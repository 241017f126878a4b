import MyosIo.Startup.Barrier

/-! A processor takes its bits out of `usableBits` before it asks whether it is one too many. -/
namespace MyosIo.Startup

open Function

variable {C : Type*}

/-- `this_xsave_size`. -/
def Ap.size : Ap → Option ℕ
  | .loadMax size | .raise size _ => some size
  | _ => none

def Bsp.size : Bsp → Option ℕ
  | .wait size | .loadMax size => some size
  | _ => none

/-- The sizes the processors have measured, and the largest of them. -/
structure Sized (m : Machine C) (s : State C) : Prop where
  measured : ∀ c size, (s.ap c).size = some size →
    ∃ v, s.xcr0 c = some v ∧ size = m.xsaveSize c v
  seen : ∀ c size cur, s.ap c = .raise size cur → cur ≤ s.maxXsaveSize
  raised : ∀ c, s.ap c = .finish ∨ s.ap c = .emptyLoop →
    ∃ v, s.xcr0 c = some v ∧ m.xsaveSize c v ≤ s.maxXsaveSize
  bsp : ∀ size, s.bsp.size = some size → ∃ v, s.bspXcr0 = some v ∧ size = m.bspXsaveSize v
  area : s.bsp = .check ∨ s.bsp = .returned → ∀ c, (s.ap c).counted = 1 →
    ∃ v, s.xcr0 c = some v ∧ m.xsaveSize c v ≤ s.xsaveAreaSize
  bspArea : s.bsp = .check ∨ s.bsp = .returned →
    ∃ v, s.bspXcr0 = some v ∧ m.bspXsaveSize v ≤ s.xsaveAreaSize

/-- `usableBits` holds the bits of all who have written theirs, and an `XCR0` is set only behind
the barrier. -/
structure Bits (m : Machine C) (s : State C) : Prop where
  bits : ∀ i, s.usableBits.getLsbD i = true ↔ initBits.getLsbD i = true ∧
    (s.bsp = .sipi ∨ s.sipi = true → m.bspUsable.getLsbD i = true) ∧
    ∀ c, (s.ap c).anded = true → (m.usable c).getLsbD i = true
  xcr0 : ∀ c v, s.xcr0 c = some v → (s.ap c).past = true
  bspXcr0 : ∀ v, s.bspXcr0 = some v → s.bsp.past = true

variable [DecidableEq C] {m : Machine C} {s t : State C} {e : Option C} {xs : List (Option C)}
  {v : BitVec 32}

omit [DecidableEq C] in
theorem bits_boot : Bits m boot where
  bits i := by simp [boot, Ap.anded]
  xcr0 c v h := by cases h
  bspXcr0 v h := by cases h

theorem usableBits_step (h : Bits m s) (hw : Woken m s) (hs : Step m s e t) (i : ℕ) :
    t.usableBits.getLsbD i = true ↔ initBits.getLsbD i = true ∧
      (t.bsp = .sipi ∨ t.sipi = true → m.bspUsable.getLsbD i = true) ∧
      ∀ c, (t.ap c).anded = true → (m.usable c).getLsbD i = true := by
  have hbits := h.bits i
  have hbefore := hw.before
  cases hs
  all_goals
    simp only [State.setAp, BitVec.getLsbD_and, Bool.and_eq_true]
    grind -linarith [Ap.anded]

theorem bits_step (h : Bits m s) (hw : Woken m s) (hs : Step m s e t) : Bits m t := by
  refine ⟨usableBits_step h hw hs, ?_, ?_⟩
  · intro c v hv
    have hxcr0 := h.xcr0
    cases hs
    all_goals
      simp only [State.setAp] at hv ⊢
      grind -linarith [Ap.past]
  · intro v hv
    have hxcr0 := h.bspXcr0
    cases hs
    all_goals
      simp only [State.setAp] at hv ⊢
      grind -linarith [Bsp.past]

omit [DecidableEq C] in
theorem sized_boot : Sized m boot where
  measured c size h := by cases h
  seen c size cur h := by cases h
  raised c h := by simp [boot] at h
  bsp size h := by cases h
  area h := by simp [boot] at h
  bspArea h := by simp [boot] at h

theorem measured_step (h : Sized m s) (hs : Step m s e t) (c : C) (size : ℕ)
    (hc : (t.ap c).size = some size) : ∃ v, t.xcr0 c = some v ∧ size = m.xsaveSize c v := by
  have hmeasured := h.measured c
  cases hs
  all_goals
    simp only [State.setAp] at hc ⊢
    grind -linarith [Ap.size]

theorem seen_step (h : Sized m s) (hs : Step m s e t) (c : C) (size cur : ℕ)
    (hc : t.ap c = .raise size cur) : cur ≤ t.maxXsaveSize := by
  have hseen := h.seen c
  cases hs
  all_goals
    simp only [State.setAp] at hc ⊢
    grind -linarith

theorem raised_step (h : Sized m s) (hs : Step m s e t) (c : C)
    (hc : t.ap c = .finish ∨ t.ap c = .emptyLoop) :
    ∃ v, t.xcr0 c = some v ∧ m.xsaveSize c v ≤ t.maxXsaveSize := by
  have hmeasured (size cur : ℕ) (hr : s.ap c = .raise size cur) :=
    h.measured c size (by rw [hr]; rfl)
  have hseen := h.seen c
  have hraised := h.raised c
  cases hs
  all_goals
    simp only [State.setAp] at hc ⊢
    grind -linarith

theorem bspSize_step (h : Sized m s) (hs : Step m s e t) (size : ℕ) (hb : t.bsp.size = some size) :
    ∃ v, t.bspXcr0 = some v ∧ size = m.bspXsaveSize v := by
  have hsize := h.bsp
  cases hs
  all_goals
    simp only [State.setAp] at hb ⊢
    grind -linarith [Bsp.size]

theorem bspArea_step (h : Sized m s) (hs : Step m s e t) (hb : t.bsp = .check ∨ t.bsp = .returned) :
    ∃ v, t.bspXcr0 = some v ∧ m.bspXsaveSize v ≤ t.xsaveAreaSize := by
  have hsize (size : ℕ) (hl : s.bsp = .loadMax size) := h.bsp size (by rw [hl]; rfl)
  have harea := h.bspArea
  cases hs
  all_goals
    simp only [State.setAp] at hb ⊢
    grind -linarith

variable [Fintype C]

structure Inv (m : Machine C) (s : State C) : Prop where
  counts : Counts m s
  bits : Bits m s
  sized : Sized m s

theorem area_step (h : Inv m s) (hs : Step m s e t) (hb : t.bsp = .check ∨ t.bsp = .returned)
    (c : C) (hc : (t.ap c).counted = 1) :
    ∃ v, t.xcr0 c = some v ∧ m.xsaveSize c v ≤ t.xsaveAreaSize := by
  have hloop : t.ap c = .emptyLoop :=
    (counts_step h.counts hs).done (by rcases hb with hb | hb <;> rw [hb] <;> rfl) c hc
  have hdone := h.counts.done
  have hraised := h.sized.raised c
  have harea := h.sized.area
  cases hs with
  | alone hstart =>
    have := h.counts.standing.woken.off (h.counts.standing.woken.before (.inl hstart)) c
    simp [this, Ap.counted] at hc
  | bspMax size hl =>
    obtain ⟨v, hv, hle⟩ := hraised (.inr hloop)
    refine ⟨v, hv, hle.trans ?_⟩
    dsimp only
    split <;> omega
  | _ =>
    simp only [State.setAp] at hb hc hloop ⊢
    grind -linarith [Ap.counted, Bsp.done]

omit [DecidableEq C] in
theorem inv_boot : Inv m boot := ⟨counts_boot, bits_boot, sized_boot⟩

theorem inv_step (h : Inv m s) (hs : Step m s e t) : Inv m t where
  counts := counts_step h.counts hs
  bits := bits_step h.bits h.counts.standing.woken hs
  sized := ⟨measured_step h.sized hs, seen_step h.sized hs, raised_step h.sized hs,
    bspSize_step h.sized hs, area_step h hs, bspArea_step h.sized hs⟩

theorem run_inv (h : Run (Step m) boot xs s) : Inv m s :=
  h.invariant inv_boot fun _ _ _ hi hs => inv_step hi hs

/-- Whichever processors are the ones counted, no other one that comes to the `andl`, and none
of them whose local APIC turns out to be off, clears a bit they all have. -/
def Harmless (m : Machine C) : Prop :=
  1 < m.expectCoresNum → ∀ S : Finset C, S.card + 1 = m.expectCoresNum →
    (∀ c ∈ S, m.syscall c = true) → ∀ u, m.syscall u = true → (u ∈ S → m.apic u = false) →
      ∀ i, initBits.getLsbD i = true → m.bspUsable.getLsbD i = true →
        (∀ c ∈ S, m.apic c = true → (m.usable c).getLsbD i = true) →
          (m.usable u).getLsbD i = true

theorem Ap.counted_cases (p : Ap) : p.counted = if p.counted = 1 then 1 else 0 := by
  cases p <;> simp [Ap.counted]

theorem Ap.anded_of_counted {p : Ap} (h : p.counted = 1) : p.anded = true := by
  cases p <;> simp_all [Ap.counted, Ap.anded]

/-- The processors counted when the barrier opens. -/
def countedSet (s : State C) : Finset C := Finset.univ.filter fun c => (s.ap c).counted = 1

omit [DecidableEq C] in
theorem card_countedSet (h : Counts m s) : (countedSet s).card + 1 = s.writtenNum := by
  have hcard : total Ap.counted s.ap = (countedSet s).card :=
    total_eq_card _ fun c => (s.ap c).counted_cases
  rw [h.written, hcard, Nat.add_comm]

omit [DecidableEq C] in
/-- What a processor loads behind the barrier. -/
theorem common_load (hh : Harmless m) (h : Inv m s) (hsipi : s.sipi = true)
    (hfull : s.writtenNum = m.expectCoresNum) : Common m s s.usableBits := by
  intro i
  have hn := (h.counts.standing.woken.stored (.inr (.inr hsipi))).2
  have hsys := h.counts.standing.syscall
  rw [h.bits.bits i]
  constructor
  · rintro ⟨hinit, hbsp, hand⟩
    exact ⟨hinit, hbsp (.inr hsipi), fun c hc => hand c (Ap.anded_of_counted hc.1)⟩
  · rintro ⟨hinit, hbsp, hjoined⟩
    refine ⟨hinit, fun _ => hbsp, fun u hu => ?_⟩
    by_cases hj : Joined m s u
    · exact hjoined u hj
    · refine hh hn (countedSet s) ((card_countedSet h.counts).trans hfull) ?_ u
        (hsys u (.inr hu)) ?_ i hinit hbsp ?_
      · intro c hc
        exact hsys c (.inr (Ap.anded_of_counted (by simpa [countedSet] using hc)))
      · intro hmem
        by_contra hapic
        exact hj ⟨by simpa [countedSet] using hmem, by simpa using hapic⟩
      · intro c hc hapic
        exact hjoined c ⟨by simpa [countedSet] using hc, hapic⟩

end MyosIo.Startup
