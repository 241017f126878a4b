import MyosIo.Mm.Granted

/-! A call that fails leaves every translation as it was. A call of `mmap_soft` on pages that are
mapped leaves the page tables as they were, but not the stack. -/
namespace MyosIo.Mm

variable {L : Layout} {ram s₀ s t : State} {es : List E820Entry} {fixed : List (ℕ × ℕ)}
  {cs : List Call} {addr length prot flags num q v : ℕ} {offset : ℤ} {isSoft : Bool}
  {stack mapped : List ℕ}

/-- The pages on the stack and the pages behind the pool. -/
def spare (s : State) : List ℕ := s.freePages ++ (ptPages s.ptPagesSp).map s.phAddr

/-- While no page of [4T, 32T) changes, a page that leaves the stack goes behind the pool. -/
theorem spare_perm (h : (pages t).Perm (pages s)) (hu : ∀ v, IsUser v → target t v = target s v) :
    (spare t).Perm (spare s) := by
  have hmap : userPages.filterMap (target t) = userPages.filterMap (target s) :=
    List.filterMap_congr fun v hv => hu v (mem_userPages.mp hv)
  unfold pages at h
  rw [hmap] at h
  unfold spare
  refine (List.perm_append_left_iff (userPages.filterMap (target s))).mp ?_
  rw [← List.append_assoc, ← List.append_assoc]
  refine (List.perm_append_comm.append_right _).trans (.trans ?_
    (List.perm_append_comm.append_right _))
  rwa [List.append_assoc, List.append_assoc]

/-- A call that returns `(void *)-1` leaves every translation of [4T, 32T) as it was, both in the
directories and for the MMU. If it is one of `mmap`, every page it took off the stack is back, or
behind a `PT_Page`. -/
theorem failed_leaves_no_trace (hm : MemoryMap L es) (h₀ : kernelInitPart2 L ram es = .ok s₀)
    (h : Run Step s₀ cs s)
    (hf : mapRange isSoft s addr length prot flags offset = .ok (mapFailed, t)) :
    (∀ v, IsUser v → target t v = target s v ∧ walk t v = walk s v) ∧
    (isSoft = false → (spare t).Perm (spare s) ∧ ∀ q ∈ s.freePages,
      q ∈ t.freePages ∨ ∃ p ∈ ptPages t.ptPagesSp, t.phAddr p = q) := by
  obtain ⟨fixed, hF, hmin⟩ := kernelInitPart2_filled hm h₀
  obtain ⟨hg, -, -⟩ := run_pages (hF.good hmin) h
  obtain ⟨hA, lost, ok, hM, hhard, -, hret⟩ := hg.books.mapRange hg.min hf
  have hfailed : ok = false := by
    have hle := hA.2.le
    cases ok with
    | false => rfl
    | true =>
      have hret : mapFailed = addr := hret
      unfold mapFailed at hret
      omega
  have hsame := hM.failed hfailed
  have hg' : Good L fixed t := ⟨hM.books, hM.min.symm ▸ hg.min⟩
  refine ⟨fun v hv => ⟨hsame v hv, ?_⟩, fun hs => ?_⟩
  · rw [hg'.walk_user hv, hg.walk_user hv, hsame v hv]
  · have hperm := pages_perm hM.perm
    rw [hhard hs, List.nil_append] at hperm
    have hspare := spare_perm hperm hsame
    refine ⟨hspare, fun q hq => ?_⟩
    have hmem : q ∈ spare t := hspare.mem_iff.mpr (List.mem_append_left _ hq)
    refine (List.mem_append.mp hmem).imp_right fun hp => ?_
    obtain ⟨p, hp, hpq⟩ := List.mem_map.mp hp
    exact ⟨p, hp, hpq⟩

/-- A machine with a little more than 1 GiB of memory. -/
def wideMap : List E820Entry := [⟨0x1000000, 0x40c00000, 1, 1⟩]

theorem wideMap_ok : MemoryMap sampleLayout wideMap :=
  .sorted (List.pairwise_singleton _ _) (by decide) ⟨_, List.mem_singleton_self _, by decide⟩

theorem wideMap_init : ∃ s₀, kernelInitPart2 sampleLayout zeroRam wideMap = .ok s₀ ∧
    s₀.freePtsNum = 509 ∧ s₀.freePages.length = 514 ∧
    s₀.ptPagesSpMin + 0x200000 ≤ s₀.ptPagesSp ∧ ∀ i < 509, Bare s₀ (gibibyte (gibPage i)) := by
  obtain ⟨s₀, h, hp⟩ := exists_of_check (x := kernelInitPart2 sampleLayout zeroRam wideMap)
    (p := fun s => decide (s.freePtsNum = 509 ∧ s.freePages.length = 514 ∧
      s.ptPagesSpMin + 0x200000 ≤ s.ptPagesSp) &&
      (List.range 509).all fun i => decide (Bare s (gibibyte (gibPage i))))
    (by decide +kernel)
  obtain ⟨hs, hbare⟩ := Bool.and_eq_true_iff.mp hp
  obtain ⟨hn, hf, hroom⟩ := of_decide_eq_true hs
  exact ⟨s₀, h, hn, hf, hroom, fun i hi =>
    of_decide_eq_true (List.all_eq_true.mp hbare i (List.mem_range.mpr hi))⟩

/-- After 508 gibibytes one table is left, and six pages. -/
theorem rollback_run : ∃ s₀ cs s, kernelInitPart2 sampleLayout zeroRam wideMap = .ok s₀ ∧
    Run Step s₀ cs s ∧ s.freePages.length = 6 ∧ s.freePtsNum = 1 ∧
    s.ptPagesSpMin + 0x200000 ≤ s.ptPagesSp ∧ Bare s (gibibyte (gibPage 508)) := by
  obtain ⟨s₀, h₀, hn, hf, hroom, hbare⟩ := wideMap_init
  obtain ⟨fixed, s₂, hE, rfl⟩ := kernelInitPart2_ended wideMap_ok h₀
  have hg := (hE.toFilled.setSpMin (slot sampleLayout s₂)).good hE.steady.pos
  obtain ⟨cs, s, hr, hS⟩ := hE.steady.spread hg (n := 508) (by omega) (by omega) (by omega)
    fun i hi => hbare i (by omega)
  have hpages := hS.pages
  have htables := hS.tables
  have hlast : Bare s (gibibyte (gibPage 508)) := (hS.bare _).mpr
    ⟨hbare 508 (by omega), fun i hi he => hi.ne' (gibPage_inj (by omega) (by omega) he)⟩
  exact ⟨_, cs, s, h₀, hr, by omega, by omega, by rw [hS.sp.1, hS.sp.2]; exact hroom, hlast⟩

/-- Five of the six pages can be mapped, since one becomes a `PT_Page`; a call for all six maps
five and takes them back. -/
theorem failed_leaves_no_trace_sample : ∃ s t u, s.freePages.length = 6 ∧
    mmap s (gibPage 508) 0xa00000 protAll mapFlags 0 = .ok (gibPage 508, u) ∧
    mmap s (gibPage 508) 0xc00000 protAll mapFlags 0 = .ok (mapFailed, t) ∧
      (∀ v, IsUser v → walk t v = walk s v) ∧ (spare t).Perm (spare s) := by
  obtain ⟨s₀, cs, s, h₀, hr, hf, hn, hroom, hbare⟩ := rollback_run
  have hfree : ∀ length ≤ 0x40000000, ∀ v ∈ pagesOf (gibPage 508) length, target s v = none := by
    intro length hle v hv
    exact target_of_bare (by rwa [gibibyte_rangePages (by omega) hv])
  have hfive : Affords s 6 (pagesOf (gibPage 508) 0xa00000) := by
    refine ⟨1, by rw [pagesOf, length_rangePages], by omega, ?_⟩
    have h1 := newTables_le s (pagesOf (gibPage 508) 0xa00000)
    have h2 := newTables_le s (belowPages 1 s.ptPagesSp)
    rw [pagesOf, length_rangePages] at h1
    rw [length_belowPages] at h2
    unfold pagesOf
    omega
  have hsix : ¬ Affords s 6 (pagesOf (gibPage 508) 0xc00000) := by
    rintro ⟨grow, h1, -, h3⟩
    rw [pagesOf, length_rangePages] at h1
    have hpos : 1 ≤ newTables s (pagesOf (gibPage 508) 0xc00000) := newTables_pos hbare
    obtain rfl : grow = 0 := by omega
    omega
  obtain ⟨u, hu⟩ := mapRange_granted wideMap_ok h₀ hr
    (admitted_gibPage (by decide) (by decide) (by decide)) (hfree 0xa00000 (by decide)) false
  obtain ⟨t, ht⟩ := mapRange_granted wideMap_ok h₀ hr
    (admitted_gibPage (by decide) (by decide) (by decide)) (hfree 0xc00000 (by decide)) false
  rw [hf, if_pos hfive] at hu
  rw [hf, if_neg hsix] at ht
  obtain ⟨htr, hsp⟩ := failed_leaves_no_trace wideMap_ok h₀ hr ht
  exact ⟨s, t, u, hf, hu, ht, fun v hv => (htr v hv).2, (hsp rfl).1⟩

theorem ptTryMap_soft {σ : Type} {hook : σ → Option ℕ × σ} {parm : σ} {ph : ℕ}
    (h : target s v ≠ none) : ptTryMap hook parm s ph v true = .ok (1, parm, s) := by
  rw [Ne, target_eq_none] at h
  have h0 : s.kernelVpt2s (i1 v) (i2 v) ≠ 0 := fun h0 => h (entry_of_zero h0)
  rw [lookup_eq h0] at h
  unfold ptTryMap
  simp [h0, h]

/-- The loop takes a page off the stack for every page that is mapped. -/
theorem allocPages_soft (h : ∀ v ∈ rangePages num addr, target s v ≠ none)
    (hn : num ≤ stack.length) :
    allocPages true num addr stack mapped s = .ok (true, stack.drop num, mapped, s) := by
  induction num generalizing addr stack with
  | zero => rfl
  | succ num ih =>
    cases stack with
    | nil => simp at hn
    | cons ph stack =>
      rw [allocPages_succ (ptTryMap_soft (h addr List.mem_cons_self)), if_neg (by decide),
        if_neg (by decide), List.drop_succ_cons]
      exact ih (fun v hv => h v (List.mem_cons_of_mem _ hv)) (Nat.le_of_succ_le_succ hn)

/-- `mmap_soft` on a range whose pages are all mapped. -/
theorem mmapSoft_mapped (hA : Admitted addr length)
    (h : ∀ v ∈ pagesOf addr length, target s v ≠ none) :
    mmapSoft s addr length protAll mapFlags 0 =
      if length / 0x200000 ≤ s.freePages.length then
        .ok (addr, { s with freePages := s.freePages.drop (length / 0x200000) })
      else .ok (mapFailed, s) := by
  unfold mmapSoft
  rw [mapRange_eq hA]
  by_cases hn : length / 0x200000 ≤ s.freePages.length
  · rw [if_pos hn, if_pos hn]
    by_cases h0 : length / 0x200000 = 0
    · rw [if_pos h0, h0, List.drop_zero]
    · rw [if_neg h0, allocPageLockRoutine, allocPages_soft h hn]
      rfl
  · rw [if_neg hn, if_neg hn]

/-- The call succeeds and changes nothing. -/
def SoftNoop (s : State) (addr length : ℕ) : Prop :=
  ∃ t, mmapSoft s addr length protAll mapFlags 0 = .ok (addr, t) ∧ t.freePages = s.freePages ∧
    t.pageTables = s.pageTables ∧ t.kernelVpt2s = s.kernelVpt2s ∧ t.kernelPt2s = s.kernelPt2s

theorem softNoop_iff (hA : Admitted addr length)
    (h : ∀ v ∈ pagesOf addr length, target s v ≠ none) : SoftNoop s addr length ↔ length = 0 := by
  have hl := hA.1
  unfold SoftNoop
  rw [mmapSoft_mapped hA h]
  constructor
  · rintro ⟨t, ht, hf, -⟩
    split at ht
    next hn =>
      cases ht
      have := congrArg List.length hf
      simp only [List.length_drop] at this
      omega
    next hn =>
      have hle := hA.2.le
      have : mapFailed = addr := congrArg Prod.fst (Except.ok.inj ht)
      unfold mapFailed at this
      omega
  · rintro rfl
    exact ⟨s, by simp, rfl, rfl, rfl, rfl⟩

/-- A call of `mmap_soft` on pages that are all mapped, in particular one that repeats a call that
has succeeded, is without effect if and only if the range is empty. -/
theorem mmap_soft_again_iff (hm : MemoryMap L es) (h₀ : kernelInitPart2 L ram es = .ok s₀)
    (h : Run Step s₀ cs s) (hA : Admitted addr length) :
    ((∀ v ∈ pagesOf addr length, target s v ≠ none) → (SoftNoop s addr length ↔ length = 0)) ∧
    ∀ t, mmapSoft s addr length protAll mapFlags 0 = .ok (addr, t) →
      (SoftNoop t addr length ↔ length = 0) := by
  obtain ⟨fixed, hF, hmin⟩ := kernelInitPart2_filled hm h₀
  obtain ⟨hg, -, -⟩ := run_pages (hF.good hmin) h
  refine ⟨softNoop_iff hA, fun t ht => softNoop_iff hA ?_⟩
  obtain ⟨-, lost, ok, hM, -, -, hret⟩ := hg.books.mapRange hg.min ht
  refine hM.all ?_
  have hle := hA.2.le
  cases ok with
  | true => rfl
  | false =>
    have hret : addr = mapFailed := hret
    unfold mapFailed at hret
    omega

theorem again_run : ∃ s₀ s₁ s₂, kernelInitPart2 sampleLayout zeroRam sampleMap = .ok s₀ ∧
    mmapSoft s₀ 0x40000000000 0x200000 protAll mapFlags 0 = .ok (0x40000000000, s₁) ∧
    mmapSoft s₁ 0x40000000000 0x200000 protAll mapFlags 0 = .ok (0x40000000000, s₂) ∧
    s₁.freePages.length = 3 ∧ s₂.freePages.length = 2 := by
  obtain ⟨⟨s₀, ⟨r₁, s₁⟩, r₂, s₂⟩, h, hp⟩ := exists_of_check (x := (do
      let s₀ ← kernelInitPart2 sampleLayout zeroRam sampleMap
      let r₁ ← mmapSoft s₀ 0x40000000000 0x200000 protAll mapFlags 0
      let r₂ ← mmapSoft r₁.2 0x40000000000 0x200000 protAll mapFlags 0
      .ok (s₀, r₁, r₂) : Except Fault (State × (ℕ × State) × ℕ × State)))
    (p := fun r => decide (r.2.1.1 = 0x40000000000 ∧ r.2.2.1 = 0x40000000000 ∧
      r.2.1.2.freePages.length = 3 ∧ r.2.2.2.freePages.length = 2)) (by decide +kernel)
  obtain ⟨s₀', h₀, h⟩ := bind_ok.mp h
  obtain ⟨r₁', h₁, h⟩ := bind_ok.mp h
  obtain ⟨r₂', h₂, h⟩ := bind_ok.mp h
  cases h
  obtain ⟨rfl, rfl, hl₁, hl₂⟩ := of_decide_eq_true hp
  exact ⟨s₀, s₁, s₂, h₀, h₁, h₂, hl₁, hl₂⟩

theorem mmap_soft_again_iff_sample : ∃ s, ¬ SoftNoop s 0x40000000000 0x200000 := by
  obtain ⟨s₀, s₁, -, h₀, h₁, -⟩ := again_run
  have hA : Admitted 0x40000000000 0x200000 := ⟨by decide, by decide, by decide, by decide⟩
  refine ⟨s₁, ?_⟩
  rw [(mmap_soft_again_iff sampleMap_ok h₀ .refl hA).2 s₁ h₁]
  decide

/-- The second of two equal calls takes a page off the stack. -/
theorem mmap_soft_not_idempotent : ∃ s₀ s₁,
    kernelInitPart2 sampleLayout zeroRam sampleMap = .ok s₀ ∧
    mmapSoft s₀ 0x40000000000 0x200000 protAll mapFlags 0 = .ok (0x40000000000, s₁) ∧
    ¬ SoftNoop s₁ 0x40000000000 0x200000 := by
  obtain ⟨s₀, s₁, s₂, h₀, h₁, h₂, hl₁, hl₂⟩ := again_run
  refine ⟨s₀, s₁, h₀, h₁, ?_⟩
  rintro ⟨t, ht, hf, -⟩
  rw [h₂] at ht
  cases ht
  rw [hf, hl₁] at hl₂
  cases hl₂

end MyosIo.Mm
