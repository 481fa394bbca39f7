/-!
# Functional simulations

Two systems take the same events. A simulation is a function from the states of the one to the
states of the other that commutes with every step, on the states of an invariant.

* `run step s es`: the state after all the events; `none` when one of them has no result.
* `Simulation.run_map`: every list of events has the same result in both systems.
* `Simulation.transfer`: what holds at the end of every run of the second system holds of what
  the first one does.
* `Trace`: the runs of a system that answers its events, with the answers. `Trace.simulate`:
  a system whose every step another one can take, with the same answer, has no other traces.
-/

namespace Transition

variable {σ τ ε : Type}

/-- The state after the events, one after the other. -/
def run (step : σ → ε → Option σ) : σ → List ε → Option σ
  | s, [] => some s
  | s, e :: es => (step s e).bind fun s' => run step s' es

/-- `abs` takes each step of the first system to the step of the second one, and a step that one
of them does not have the other one does not have either. -/
structure Simulation (step : σ → ε → Option σ) (step' : τ → ε → Option τ) where
  inv : σ → Prop
  abs : σ → τ
  keeps : ∀ {s s' : σ} {e : ε}, inv s → step s e = some s' → inv s'
  simulates : ∀ {s : σ} (e : ε), inv s → (step s e).map abs = step' (abs s) e

/-- What every step keeps holds at the end of a run. -/
theorem run_invariant {step : σ → ε → Option σ} (inv : σ → Prop)
    (hstep : ∀ s e s', inv s → step s e = some s' → inv s') {s s' : σ} {es : List ε}
    (hs : inv s) (hrun : run step s es = some s') : inv s' := by
  induction es generalizing s with
  | nil =>
    cases hrun
    exact hs
  | cons e es ih =>
    obtain ⟨s1, hfirst, hrest⟩ := Option.bind_eq_some_iff.mp hrun
    exact ih (hstep s e s1 hs hfirst) hrest

namespace Simulation

variable {step : σ → ε → Option σ} {step' : τ → ε → Option τ}

theorem run_map (S : Simulation step step') {s : σ} (hs : S.inv s) (es : List ε) :
    (run step s es).map S.abs = run step' (S.abs s) es := by
  induction es generalizing s with
  | nil => rfl
  | cons e es ih =>
    rw [run, run, ← S.simulates e hs]
    cases hstep : step s e with
    | none => rfl
    | some s' => exact ih (S.keeps hs hstep)

theorem transfer (S : Simulation step step') (P : τ → Prop) {s s' : σ} {es : List ε}
    (hs : S.inv s) (hP : ∀ t, run step' (S.abs s) es = some t → P t)
    (hrun : run step s es = some s') : P (S.abs s') := by
  refine hP _ ?_
  rw [← S.run_map hs, hrun]
  rfl

end Simulation

/-! ## Answers -/

variable {ω : Type}

/-- A run of a system that answers each event, with the events and the answers. -/
inductive Trace (next : σ → ε → ω → σ → Prop) : σ → List (ε × ω) → σ → Prop
  | nil {s : σ} : Trace next s [] s
  | cons {s s1 s' : σ} {e : ε} {a : ω} {es : List (ε × ω)} :
      next s e a s1 → Trace next s1 es s' → Trace next s ((e, a) :: es) s'

variable {next : σ → ε → ω → σ → Prop} {next' : τ → ε → ω → τ → Prop}

theorem Trace.invariant (inv : σ → Prop)
    (hstep : ∀ s e a s', inv s → next s e a s' → inv s') {s s' : σ} {es : List (ε × ω)}
    (hs : inv s) (h : Trace next s es s') : inv s' := by
  induction h with
  | nil => exact hs
  | cons hfirst _ ih => exact ih (hstep _ _ _ _ hs hfirst)

/-- The second system may choose among steps; `R` says which of its states fit. -/
theorem Trace.simulate (R : σ → τ → Prop)
    (hstep : ∀ s t e a s', R s t → next s e a s' → ∃ t', next' t e a t' ∧ R s' t')
    {s s' : σ} {t : τ} {es : List (ε × ω)} (hR : R s t) (h : Trace next s es s') :
    ∃ t', Trace next' t es t' ∧ R s' t' := by
  induction h generalizing t with
  | nil => exact ⟨t, .nil, hR⟩
  | cons hfirst _ ih =>
    obtain ⟨t1, hfirst', hR1⟩ := hstep _ _ _ _ _ hR hfirst
    obtain ⟨t', hrest, hR'⟩ := ih hR1
    exact ⟨t', .cons hfirst' hrest, hR'⟩

end Transition
