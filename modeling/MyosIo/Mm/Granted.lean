import MyosIo.Mm.Steady

/-! A call on pages that are not translated comes back, and it succeeds exactly if the free pages
are enough for it. A page of a gibibyte without a table costs one page and one table. -/
namespace MyosIo.Mm

variable {L : Layout} {ram s₀ s t : State} {es : List E820Entry} {fixed : List (ℕ × ℕ)}
  {cs : List Call} {addr length v q n i j : ℕ} {isSoft : Bool} {stack : List ℕ}

theorem Steady.mapRange_comes (hS : Steady L ram fixed s) (hB : Books L fixed s.freePages s)
    (hA : Admitted addr length) (hn : ∀ v ∈ pagesOf addr length, target s v = none)
    (isSoft : Bool) : ∃ r, Mm.mapRange isSoft s addr length protAll mapFlags 0 = .ok r := by
  rw [mapRange_eq hA]
  split
  · split
    · exact ⟨_, rfl⟩
    · cases h : Mm.allocPageLockRoutine s addr (length / 0x200000) isSoft with
      | error e =>
        obtain ⟨v, hv, ht⟩ := (hS.allocPageLockRoutine_error hB hA.2 h).2.exists
        exact absurd (hn v hv) ht
      | ok r => exact ⟨_, rfl⟩
  · exact ⟨_, rfl⟩

theorem Steady.mapRange_granted (hS : Steady L ram fixed s) (hB : Books L fixed s.freePages s)
    (hA : Admitted addr length) (hn : ∀ v ∈ pagesOf addr length, target s v = none) :
    ∃ t, Mm.mapRange isSoft s addr length protAll mapFlags 0 =
      .ok (if Affords s s.freePages.length (pagesOf addr length) then addr else mapFailed, t) := by
  obtain ⟨⟨ret, t⟩, h⟩ := hS.mapRange_comes hB hA hn isSoft
  obtain ⟨-, lost, ok, hM, -, -, hret⟩ := hB.mapRange hS.pos h
  refine ⟨t, ?_⟩
  rw [h, hret]
  simp only [hM.granted]

/-- A call on pages that are not translated comes back. It succeeds if the free pages are enough
for the range and for the `PT_Page`s it needs, and only then. -/
theorem mapRange_granted (hm : MemoryMap L es) (h₀ : kernelInitPart2 L ram es = .ok s₀)
    (h : Run Step s₀ cs s) (hA : Admitted addr length)
    (hn : ∀ v ∈ pagesOf addr length, target s v = none) (isSoft : Bool) :
    ∃ t, mapRange isSoft s addr length protAll mapFlags 0 =
      .ok (if Affords s s.freePages.length (pagesOf addr length) then addr else mapFailed, t) := by
  obtain ⟨fixed, s₂, hE, rfl⟩ := kernelInitPart2_ended hm h₀
  have hg := (hE.toFilled.setSpMin (slot L s₂)).good hE.steady.pos
  exact (run_steady hg hE.steady h).mapRange_granted (run_pages hg h).1.books hA hn

/-- What a page of a gibibyte without a table costs. -/
structure Opened (s t : State) (v : ℕ) : Prop where
  pages : t.freePages.length + 1 = s.freePages.length
  tables : t.freePtsNum + 1 = s.freePtsNum
  sp : t.ptPagesSp = s.ptPagesSp ∧ t.ptPagesSpMin = s.ptPagesSpMin
  bare : ∀ g, Bare t g ↔ Bare s g ∧ g ≠ gibibyte v

theorem target_of_bare (h : Bare s (gibibyte v)) : target s v = none :=
  target_eq_none.mpr (entry_of_zero h)

theorem Steady.mapOne (hS : Steady L ram fixed s) (hB : Books L fixed s.freePages s)
    (hv : IsUser v) (h0 : Bare s (gibibyte v)) (hn : 2 ≤ s.freePtsNum)
    (hf : 1 ≤ s.freePages.length) :
    ∃ t, mmap s v 0x200000 protAll mapFlags 0 = .ok (v, t) ∧ Opened s t v := by
  have hlt := hv.lt
  have hmod := hv.mod
  have hA : Admitted v 0x200000 := ⟨by decide, hmod, hv.ge, by omega⟩
  obtain ⟨q, stack, hst⟩ := List.exists_cons_of_length_pos hf
  have hB' : Books L fixed (q :: stack) s := hst ▸ hB
  have ht := target_of_bare h0
  rcases hS.tryMap_comes hB' v false with ⟨⟨ret, stack₁, s₁⟩, h₁⟩ | ⟨-, hm, -⟩
  swap
  · exact absurd ht hm
  have hSp := hB'.tryMap_spent hS.pos hv h₁
  rcases hB'.tryMapUser (source_generic stack) hS.pos hv h₁ with
    ⟨-, hs, -⟩ | ⟨rfl, -⟩ | ⟨rfl, -⟩
  · cases hs
  · obtain ⟨-, hSt⟩ := hSp.resolve_right fun h => absurd h.1 (by decide)
    have := hSt.one
    omega
  obtain ⟨-, hSp⟩ := hSp.resolve_left fun h => absurd h.1 (by decide)
  refine ⟨{ s₁ with freePages := stack₁ }, ?_, ?_⟩
  · unfold mmap
    rw [mapRange_eq hA, if_pos hf, if_neg (by decide), Mm.allocPageLockRoutine, hst,
      show 0x200000 / 0x200000 = 0 + 1 from rfl, allocPages_succ h₁]
    rfl
  · cases hSp with
    | kept hst' hsp hmin hnum hbare =>
      rw [newTable_of_bare h0] at hnum
      exact ⟨by rw [hst, hst', List.length_cons], hnum, ⟨hsp, hmin⟩, hbare⟩
    | grown _ _ h1 => omega

/-- The first page of the `i`th gibibyte from 4T on. -/
def gibPage (i : ℕ) : ℕ := 0x40000000000 + i * 0x40000000

theorem isUser_gibPage (h : i < 0x7000) : IsUser (gibPage i) := by
  unfold gibPage
  exact ⟨by omega, by omega, by omega⟩

theorem gibPage_inj (hi : i < 0x7000) (hj : j < 0x7000)
    (h : gibibyte (gibPage i) = gibibyte (gibPage j)) : i = j := by
  obtain ⟨h1, h2⟩ := Prod.ext_iff.mp h
  simp only [gibibyte, gibPage, i1, i2] at h1 h2
  omega

theorem gibibyte_rangePages (hn : n ≤ 512) (hv : v ∈ rangePages n (gibPage i)) :
    gibibyte v = gibibyte (gibPage i) := by
  have hmod : gibPage i % 0x200000 = 0 := by
    unfold gibPage
    omega
  obtain ⟨-, hge, hlt⟩ := (mem_rangePages hmod).mp hv
  unfold gibPage at *
  simp only [gibibyte, i1, i2, Prod.mk.injEq]
  omega

theorem admitted_gibPage {length : ℕ} (hi : i < 0x7000) (hl : length % 0x200000 = 0)
    (hle : length ≤ 0x40000000) : Admitted (gibPage i) length := by
  refine ⟨hl, ?_, ?_, ?_⟩
  all_goals
    unfold gibPage
    omega

/-- One page has been mapped in each of `n` gibibytes. -/
structure Spread (s t : State) (n : ℕ) : Prop where
  pages : t.freePages.length + n = s.freePages.length
  tables : t.freePtsNum + n = s.freePtsNum
  sp : t.ptPagesSp = s.ptPagesSp ∧ t.ptPagesSpMin = s.ptPagesSpMin
  bare : ∀ g, Bare t g ↔ Bare s g ∧ ∀ i < n, g ≠ gibibyte (gibPage i)

/-- As many gibibytes as there are tables, one of which is left. -/
theorem Steady.spread (hS : Steady L ram fixed s) (hg : Good L fixed s) (hn : n < s.freePtsNum)
    (hf : n ≤ s.freePages.length) (hlt : n ≤ 0x7000)
    (h0 : ∀ i < n, Bare s (gibibyte (gibPage i))) : ∃ cs t, Run Step s cs t ∧ Spread s t n := by
  induction n with
  | zero => exact ⟨[], s, .refl, rfl, rfl, ⟨rfl, rfl⟩, by simp⟩
  | succ n ih =>
    obtain ⟨cs, u, hr, hu⟩ := ih (by omega) (by omega) (by omega) fun i hi => h0 i (by omega)
    have hpages := hu.pages
    have htables := hu.tables
    have hbare : Bare u (gibibyte (gibPage n)) := (hu.bare _).mpr
      ⟨h0 n (by omega), fun i hi he => hi.ne' (gibPage_inj (by omega) (by omega) he)⟩
    obtain ⟨t, ht, hO⟩ := (run_steady hg hS hr).mapOne (run_pages hg hr).1.books
      (isUser_gibPage (by omega)) hbare (by omega) (by omega)
    have hpages' := hO.pages
    have htables' := hO.tables
    refine ⟨_, t, hr.step (.mmap ht), by omega, by omega,
      ⟨hO.sp.1.trans hu.sp.1, hO.sp.2.trans hu.sp.2⟩, fun g => ?_⟩
    rw [hO.bare, hu.bare, and_assoc, Nat.forall_lt_succ_right]

end MyosIo.Mm
