/-!
# Guarded runs

A system is a set of start states and a partial step function on states and events.
A run takes only steps that meet a guard. The guard says what the environment
promises; a stronger guard gives fewer runs.

* `Reach init guard step s`: some run ends in `s`.
* `Reach.invariant`: what holds at the start and is kept by every guarded step holds
  at the end of every run.
* `Reach.mono`: a weaker guard allows every run that a stronger one does.
* `Reach.follow`: a list of events that are all `Legal` is a run; `Legal.invariant` says what
  holds after it.
-/

namespace Transition

variable {σ ε : Type}

/-- The states at the end of a run whose every step meets `guard`. -/
inductive Reach (init : σ → Prop) (guard : σ → ε → Prop) (step : σ → ε → Option σ) : σ → Prop
  | start {s : σ} : init s → Reach init guard step s
  | next {s s' : σ} {e : ε} : Reach init guard step s → guard s e → step s e = some s' →
      Reach init guard step s'

variable {init : σ → Prop} {guard : σ → ε → Prop} {step : σ → ε → Option σ}

/-- The induction over a run, packaged once. -/
theorem Reach.invariant (inv : σ → Prop) (hinit : ∀ s, init s → inv s)
    (hstep : ∀ s e s', inv s → guard s e → step s e = some s' → inv s') {s : σ}
    (h : Reach init guard step s) : inv s := by
  induction h with
  | start hs => exact hinit _ hs
  | next _ hg hs ih => exact hstep _ _ _ ih hg hs

/-- A run under a stronger guard is one under the weaker guard. -/
theorem Reach.mono {guard' : σ → ε → Prop} (hguard : ∀ s e, guard s e → guard' s e) {s : σ}
    (h : Reach init guard step s) : Reach init guard' step s := by
  induction h with
  | start hs => exact .start hs
  | next _ hg hs ih => exact .next ih (hguard _ _ hg) hs

/-! ## Concrete runs -/

/-- The state after the events, one after the other; an event without a result is skipped. -/
def follow (step : σ → ε → Option σ) : σ → List ε → σ
  | s, [] => s
  | s, e :: es => follow step ((step s e).getD s) es

/-- Every one of the events meets the guard and has a result. -/
def Legal (guard : σ → ε → Prop) (step : σ → ε → Option σ) : σ → List ε → Prop
  | _, [] => True
  | s, e :: es => guard s e ∧ (step s e).isSome ∧ Legal guard step ((step s e).getD s) es

instance Legal.decidable (guard : σ → ε → Prop) (step : σ → ε → Option σ)
    [∀ s e, Decidable (guard s e)] : ∀ s es, Decidable (Legal guard step s es)
  | _, [] => .isTrue trivial
  | s, e :: es =>
    have := Legal.decidable guard step ((step s e).getD s) es
    inferInstanceAs (Decidable (_ ∧ _ ∧ _))

/-- What the guarded steps keep holds after events that are all legal. -/
theorem Legal.invariant (inv : σ → Prop)
    (hstep : ∀ s e s', inv s → guard s e → step s e = some s' → inv s') {s : σ} {es : List ε}
    (hs : inv s) (hlegal : Legal guard step s es) : inv (follow step s es) := by
  induction es generalizing s with
  | nil => exact hs
  | cons e es ih =>
    obtain ⟨hguard, hsome, hrest⟩ := hlegal
    obtain ⟨s', hs'⟩ := Option.isSome_iff_exists.mp hsome
    refine ih (hstep s e _ hs hguard ?_) hrest
    rw [hs', Option.getD_some]

theorem Reach.follow {s : σ} (h : Reach init guard step s) {es : List ε}
    (hlegal : Legal guard step s es) : Reach init guard step (follow step s es) :=
  hlegal.invariant (Reach init guard step) (fun _ _ _ => .next) h

theorem Legal.append {s : σ} {es es' : List ε} (h : Legal guard step s es)
    (h' : Legal guard step (Transition.follow step s es) es') : Legal guard step s (es ++ es') := by
  induction es generalizing s with
  | nil => exact h'
  | cons e es ih => exact ⟨h.1, h.2.1, ih h.2.2 h'⟩

end Transition
