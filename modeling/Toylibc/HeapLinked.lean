import Toylibc.HeapGrow

/-!
# Heaps with wrong flags

After a split or a growth that was fused the flags of the heap need not be right, but the sizes
in the headers still lead from block to block, and a PREV_FREE bit still stands behind a footer
with the size of the block before (`Linked`). This is enough for `brk_release` to write only
headers and footers, so that no payload is lost (`Linked.release`).
-/

namespace Toylibc

open ByteMemory BlockList

/-- The headers lead through the blocks `bs`, and a PREV_FREE bit stands behind the footer of the
block before, which is `prev` for the first one. ALLOC bits do not matter. -/
def Linked (m : Mem) : Option HeapBlock → Nat → List HeapBlock → Nat → Prop
  | _, a, [], hi => a = hi
  | prev, a, b :: bs, hi =>
    getSz (load64 m a) = b.size ∧
      (prevFree (load64 m a) = true → ∃ p, prev = some p ∧ getSz (load64 m (a - 8)) = p.size) ∧
      Linked m (some b) (a + b.size) bs hi

/-- Only header words and footer words of the blocks `bs` differ. -/
def TagsOnly (m m' : Mem) (lo : Nat) (bs : List HeapBlock) : Prop :=
  ∀ x, x < space →
    (∀ v, Boundary lo bs v → (v < lo + extent bs → x < v ∨ v + 8 ≤ x) ∧
      (lo < v → x + 8 < v ∨ v ≤ x)) → loadByte m' x = loadByte m x

section

variable {m m' m'' : Mem} {lo hi : Nat} {bs : List HeapBlock}

/-! ## Stores into tags -/

theorem TagsOnly.refl (m : Mem) (lo : Nat) (bs : List HeapBlock) : TagsOnly m m lo bs :=
  fun _ _ _ => rfl

theorem TagsOnly.trans (h : TagsOnly m m' lo bs) (h' : TagsOnly m' m'' lo bs) :
    TagsOnly m m'' lo bs :=
  fun x hx hout => (h' x hx hout).trans (h x hx hout)

theorem tagsOnly_header {v : Nat} (val : Nat) (hv : Boundary lo bs v) (hlt : v < lo + extent bs)
    (htop : v + 8 ≤ 2 ^ 64) : TagsOnly m (store64 m v val) lo bs :=
  fun x hx hout => store64_sameOutside m val htop x hx ((hout v hv).1 hlt)

theorem tagsOnly_footer {v : Nat} (val : Nat) (hv : Boundary lo bs v) (hlt : lo < v)
    (htop : v ≤ 2 ^ 64) : TagsOnly m (store64 m (v - 8) val) lo bs := by
  have hbehind := hv.behind hlt
  intro x hx hout
  have hfoot := (hout v hv).2 hlt
  exact store64_sameOutside m val (show v - 8 + 8 ≤ 2 ^ 64 by omega) x hx (by omega)

/-- A range without boundaries, such as a block, keeps its payload. -/
theorem TagsOnly.payload (h : TagsOnly m m' lo bs) {c k x : Nat}
    (hout : ∀ v, Boundary lo bs v → v ≤ c ∨ c + k ≤ v) (hlo : c + 8 ≤ x) (hhi : x + 8 < c + k)
    (htop : c + k ≤ 2 ^ 64) : loadByte m' x = loadByte m x := by
  refine h x (show x < 2 ^ 64 by omega) fun v hv => ?_
  have := hout v hv
  omega

theorem TagsOnly.sameOutside (h : TagsOnly m m' lo bs) :
    SameOutside m m' lo (lo + extent bs) := by
  intro x hx hout
  refine h x hx fun v hv => ?_
  have hbounds := hv.bounds
  have hroom := hv.room
  have hbehind := hv.behind
  omega

/-! ## Linked heaps -/

theorem Linked.hi_eq {prev : Option HeapBlock} {a : Nat} (h : Linked m prev a bs hi) :
    hi = a + extent bs := by
  induction bs generalizing prev a with
  | nil => exact Eq.symm h
  | cons b bs ih =>
    have := ih h.2.2
    simp only [extent_cons]
    omega

theorem linked_append {prev : Option HeapBlock} {a : Nat} {cs : List HeapBlock} :
    Linked m prev a (bs ++ cs) hi ↔
      Linked m prev a bs (a + extent bs) ∧ Linked m (lastBlock prev bs) (a + extent bs) cs hi := by
  induction bs generalizing prev a with
  | nil => simp [Linked, lastBlock]
  | cons b bs ih =>
    simp only [List.cons_append, Linked, lastBlock, extent_cons, ih, Nat.add_assoc, and_assoc]

/-- Changes that meet no tag keep the links. -/
theorem Linked.frame {prev : Option HeapBlock} {a x y : Nat} (h : Linked m prev a bs hi)
    (hsame : SameOutside m m' x y) (htop : hi ≤ 2 ^ 64)
    (hout : ∀ v, Boundary a bs v → v < hi → v + 8 ≤ x ∨ y + 8 ≤ v) : Linked m' prev a bs hi := by
  induction bs generalizing prev a with
  | nil => exact h
  | cons b bs ih =>
    obtain ⟨hsz, hprev, hrest⟩ := h
    have hleast := b.least_le
    have hhi := hrest.hi_eq
    have hfirst := hout a (.inr ⟨b, List.mem_cons_self ..⟩) (by omega)
    have hhdr : load64 m' a = load64 m a :=
      load64_eq_of_sameOutside hsame (by omega) (by omega)
    refine ⟨by rw [hhdr, hsz], fun hset => ?_, ih hrest fun v hv hlt => ?_⟩
    · rw [hhdr] at hset
      obtain ⟨p, hp, hftr⟩ := hprev hset
      refine ⟨p, hp, ?_⟩
      rw [load64_eq_of_sameOutside hsame (by omega) (by omega), hftr]
    · refine hout v ?_ hlt
      rcases hv with rfl | ⟨c, hc⟩
      · exact .inl (by simp only [extent_cons]; omega)
      · exact .inr ⟨c, List.mem_cons_of_mem _ hc⟩

/-- Accurate tags are linked. -/
theorem Tiles.linked {pf : Bool} {prev : Option HeapBlock} {a : Nat} (h : Tiles m pf a bs hi)
    (hprev : pf = true → ∃ p, prev = some p ∧ getSz (load64 m (a - 8)) = p.size) :
    Linked m prev a bs hi := by
  induction bs generalizing pf prev a with
  | nil => exact h
  | cons b bs ih =>
    refine ⟨h.1.hdr_size, fun hset => hprev (h.1.hdr_prev ▸ hset), ih h.2 fun _ => ?_⟩
    exact ⟨b, rfl, h.1.ftr_size⟩

/-! ## Releasing a block -/

/-- The block that `merge` finds in front of a linked block starts at a boundary. -/
theorem Linked.back {pre post : List HeapBlock} (h : Linked m none lo (pre ++ post) hi) {a : Nat}
    (ha : a = lo + extent pre)
    (hprev : prevFree (load64 m a) = true →
      ∃ p, lastBlock none pre = some p ∧ getSz (load64 m (a - 8)) = p.size) :
    ∃ back, (if prevFree (load64 m a) then getSz (load64 m (a - 8)) else 0) = back ∧
      back ≤ extent pre ∧ Boundary lo (pre ++ post) (a - back) := by
  have hhere := boundary_append lo pre post
  rw [← ha] at hhere
  cases hset : prevFree (load64 m a) with
  | false => exact ⟨0, by simp, Nat.zero_le _, hhere⟩
  | true =>
    obtain ⟨p, hp, hsz⟩ := hprev hset
    rcases List.eq_nil_or_concat pre with rfl | ⟨front, q, rfl⟩
    · cases hp
    · obtain rfl : q = p := by
        rw [List.concat_eq_append, lastBlock_append] at hp
        exact Option.some.inj hp
      rw [List.concat_eq_append] at *
      have hext : extent (front ++ [q]) = extent front + q.size := by simp
      refine ⟨q.size, by simp [hsz], by omega, ?_⟩
      rw [List.append_assoc, show a - q.size = lo + extent front by omega]
      exact boundary_append lo front ([q] ++ post)

/-- The stores of `merge` are tags when the fused range ends at boundaries. -/
theorem tagsOnly_joined {s t : Nat} (hs : Boundary lo bs s) (hend : Boundary lo bs (s + t))
    (ht : 8 ≤ t) (hhi : hi = lo + extent bs) (htop : hi + 8 ≤ 2 ^ 64) :
    TagsOnly m (joined m hi s t) lo bs := by
  have hlo := hs.bounds
  have hle := hend.bounds
  have hhdr := tagsOnly_header (m := m) (t ||| (load64 m s &&& flagPrevFree)) hs (by omega)
    (by omega)
  have hftr := tagsOnly_footer (m := store64 m s (t ||| (load64 m s &&& flagPrevFree))) t hend
    (by omega) (by omega)
  unfold joined
  dsimp only
  split
  · exact (hhdr.trans hftr).trans (tagsOnly_header _ hend (by omega) (by omega))
  · exact hhdr.trans hftr

/-- The stores of `brk_release` before it merges are tags. -/
theorem tagsOnly_markFreed {pre post : List HeapBlock} {b : HeapBlock}
    (h : Linked m none lo (pre ++ b :: post) hi) (htop : hi + 8 ≤ 2 ^ 64) :
    TagsOnly m (markFreed m hi (lo + extent pre)) lo (pre ++ b :: post) := by
  obtain ⟨-, hsz, -, hrest⟩ := linked_append.mp h
  have hleast := b.least_le
  have hhi := hrest.hi_eq
  have hall := h.hi_eq
  have hstart := boundary_append lo pre (b :: post)
  have hend := boundary_append lo (pre ++ [b]) post
  rw [List.append_assoc, List.singleton_append, extent_append, extent_cons, extent_nil,
    Nat.add_zero, ← Nat.add_assoc] at hend
  have hhdr := tagsOnly_header (m := m)
    (b.size ||| (load64 m (lo + extent pre) &&& flagPrevFree)) hstart (by omega) (by omega)
  have hftr := tagsOnly_footer (m := store64 m (lo + extent pre)
    (b.size ||| (load64 m (lo + extent pre) &&& flagPrevFree))) b.size hend (by omega) (by omega)
  rw [markFreed_eq hsz (by omega) (by omega)]
  split
  · exact (hhdr.trans hftr).trans (tagsOnly_header _ hend (by omega) (by omega))
  · exact hhdr.trans hftr

/-- On a linked heap `brk_release` writes headers and footers only. -/
theorem Linked.release {pre post : List HeapBlock} {b : HeapBlock}
    (h : Linked m none lo (pre ++ b :: post) hi) (htop : hi + 8 ≤ 2 ^ 64) :
    TagsOnly m (brkRelease m hi (lo + extent pre + 8)) lo (pre ++ b :: post) := by
  obtain ⟨-, hsz, hprev, hrest⟩ := linked_append.mp h
  have hleast := b.least_le
  have hhi := hrest.hi_eq
  have hall := h.hi_eq
  have hmark := tagsOnly_markFreed h htop
  have hhdr : wsub (lo + extent pre + 8) hdrSz = lo + extent pre := wsub_hdrSz (by omega)
  have hsame := markFreed_sameOutside hi hsz (by omega) (by omega)
  have hword := markFreed_header hi hsz (by omega) (by omega)
  have hn8 := HeapBlock.size_dvd_eight b
  have hn : getSz b.size = b.size := getSz_of_dvd (by omega) hn8
  -- what `merge` reads of the marked heap
  have hsz' : getSz (load64 (markFreed m hi (lo + extent pre)) (lo + extent pre)) = b.size := by
    rw [hword, getSz_mod]
    simp [hn]
  have hset' : prevFree (load64 (markFreed m hi (lo + extent pre)) (lo + extent pre)) =
      prevFree (load64 m (lo + extent pre)) := by
    rw [hword, prevFree_mod]
    simp [prevFree_of_dvd (show b.size < 2 ^ 64 by omega) hn8]
  obtain ⟨back, hback, hle, hstart⟩ := h.back rfl hprev
  have hback' : (if prevFree (load64 (markFreed m hi (lo + extent pre)) (lo + extent pre)) then
      getSz (load64 (markFreed m hi (lo + extent pre)) (wsub (lo + extent pre) hdrSz)) else 0) =
      back := by
    rw [hset', ← hback]
    split
    · next hset =>
      obtain ⟨p, hp, -⟩ := hprev hset
      have hpos : 32 ≤ extent pre := by
        rcases List.eq_nil_or_concat pre with rfl | ⟨front, q, rfl⟩
        · cases hp
        · have := q.least_le
          simp only [List.concat_eq_append, extent_append, extent_cons]
          omega
      have hftr : wsub (lo + extent pre) hdrSz = lo + extent pre - 8 :=
        wsub_eq (by omega) (by unfold hdrSz; omega)
      rw [hftr, load64_eq_of_sameOutside hsame (by omega) (by omega)]
    · rfl
  rw [brkRelease_eq, hhdr]
  refine hmark.trans ?_
  generalize hmm : markFreed m hi (lo + extent pre) = mm at hsz' hback'
  cases post with
  | nil =>
    simp only [extent_nil] at hhi
    have hfront : (if lo + extent pre + b.size < hi ∧
        isFree (load64 mm (lo + extent pre + b.size)) = true
        then getSz (load64 mm (lo + extent pre + b.size)) else 0) = 0 :=
      if_neg fun hbad => absurd hbad.1 (by omega)
    rw [merge_eq 0 hsz' hback' hfront (by omega) (by omega) (by omega)]
    split
    · exact TagsOnly.refl _ _ _
    · refine tagsOnly_joined hstart (.inl ?_) (by omega) hall htop
      omega
  | cons c post =>
    have hc_least := c.least_le
    simp only [extent_cons] at hhi
    have hnext := markFreed_next hsz (by omega) (show lo + extent pre + b.size < hi by omega)
      (by omega)
    rw [hmm] at hnext
    have hfront : (if lo + extent pre + b.size < hi ∧
        isFree (load64 mm (lo + extent pre + b.size)) = true
        then getSz (load64 mm (lo + extent pre + b.size)) else 0) = c.size := by
      have hfree : isFree (load64 mm (lo + extent pre + b.size)) = true := by
        rw [hnext, isFree_mod, isFree_or, ← getSz, isFree_getSz]
        rfl
      rw [if_pos ⟨by omega, hfree⟩, hnext, getSz_mod, getSz_or, ← getSz, getSz_getSz, hrest.1]
      simp
    rw [merge_eq c.size hsz' hback' hfront (by omega) (by omega) (by omega), if_neg (by omega)]
    have hend := boundary_append lo (pre ++ [b, c]) post
    rw [List.append_assoc, show [b, c] ++ post = b :: c :: post from rfl, extent_append,
      extent_cons, extent_cons, extent_nil, Nat.add_zero] at hend
    refine tagsOnly_joined hstart ?_ (by omega) hall htop
    rwa [show lo + extent pre - back + (back + b.size + c.size) =
      lo + (extent pre + (b.size + c.size)) by omega]

end

end Toylibc
