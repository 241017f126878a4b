import MyosIo.Mm.Walk
import MyosIo.Lib.Run

/-! From the state `kernel_init_part2` leaves, along every sequence of calls that come back: where
the physical pages are, what the pool of page tables looks like, and what the page tables mean. -/
namespace MyosIo.Mm

open Function

variable {L : Layout} {ram s₀ s t : State} {es : List E820Entry} {fixed : List (ℕ × ℕ)}
  {c : Call} {cs : List Call} {xs : List (State × Call)} {v w q : ℕ} {stack : List ℕ}

/-- The pages on the stack, the pages mapped in [4T, 32T) and the pages behind the pool. -/
@[irreducible] def pages (s : State) : List ℕ :=
  s.freePages ++ (userPages.filterMap (target s) ++ (ptPages s.ptPagesSp).map s.phAddr)

theorem held_pages (fixed : List (ℕ × ℕ)) (s : State) :
    held fixed s.freePages s = pages s ++ fixed.map Prod.snd := by
  unfold held pages
  rw [List.append_assoc, List.append_assoc]

/-- What holds between two calls. -/
structure Good (L : Layout) (fixed : List (ℕ × ℕ)) (s : State) : Prop where
  books : Books L fixed s.freePages s
  min : 0 < s.ptPagesSpMin

theorem Good.pages_nodup (h : Good L fixed s) : (pages s).Nodup := by
  have hn := h.books.nodup
  rw [held_pages] at hn
  exact (List.nodup_append.mp hn).1

theorem pages_perm {lost : List ℕ}
    (h : (lost ++ held fixed t.freePages t).Perm (held fixed s.freePages s)) :
    (lost ++ pages t).Perm (pages s) := by
  rw [held_pages, held_pages, ← List.append_assoc] at h
  exact (List.perm_append_right_iff _).mp h

/-- A call of `mmap_soft` that takes a page off the stack for a page that is translated. -/
def Call.Wasteful (s : State) : Call → Prop
  | .mmapSoft addr length _ _ _ _ => Mm.Wasteful s addr length
  | _ => False

/-- What one call does to the pages. -/
structure Moved (L : Layout) (fixed : List (ℕ × ℕ)) (s : State) (c : Call) (t : State)
    (lost : List ℕ) : Prop where
  good : Good L fixed t
  sp : t.ptPagesSp ≤ s.ptPagesSp
  perm : (lost ++ pages t).Perm (pages s)
  lost_iff : lost ≠ [] ↔ c.Wasteful s

theorem MapSpec.moved {pages lost : List ℕ} {ok : Bool} (h : MapSpec L fixed pages s t lost ok)
    (hg : Good L fixed s) (hw : lost ≠ [] ↔ c.Wasteful s) : Moved L fixed s c t lost :=
  ⟨⟨h.books, h.min.symm ▸ hg.min⟩, h.sp, pages_perm h.perm, hw⟩

theorem Step.moved (h : Step s c t) (hg : Good L fixed s) : ∃ lost, Moved L fixed s c t lost := by
  cases h with
  | mmap h =>
    obtain ⟨-, lost, ok, hM, hhard, -, -⟩ := hg.books.mapRange hg.min h
    exact ⟨lost, hM.moved hg (iff_of_false (not_not.mpr (hhard rfl)) id)⟩
  | mmapSoft h =>
    obtain ⟨-, lost, ok, hM, -, hwaste, -⟩ := hg.books.mapRange hg.min h
    exact ⟨lost, hM.moved hg hwaste⟩
  | munmap h =>
    obtain ⟨-, hU⟩ := hg.books.munmap h
    have hp : ([] ++ held fixed t.freePages t).Perm (held fixed s.freePages s) := by
      rw [List.nil_append]
      exact hU.perm
    exact ⟨[], ⟨hU.books, hU.min.symm ▸ hg.min⟩, hU.sp, pages_perm hp,
      iff_of_false (by simp) id⟩
  | checkMap h =>
    exact ⟨[], hg, le_rfl, by rw [List.nil_append], iff_of_false (by simp) id⟩

/-- The calls of a run never take a page twice. -/
theorem run_pages (h₀ : Good L fixed s₀) (h : Run Step s₀ cs s) :
    Good L fixed s ∧ s.ptPagesSp ≤ s₀.ptPagesSp ∧ ∃ lost, (lost ++ pages s).Perm (pages s₀) := by
  induction h with
  | refl => exact ⟨h₀, le_rfl, [], by rw [List.nil_append]⟩
  | step _ hs ih =>
    obtain ⟨hg, hsp, lost, hp⟩ := ih
    obtain ⟨lost', hM⟩ := hs.moved hg
    refine ⟨hM.good, hM.sp.trans hsp, lost ++ lost', ?_⟩
    rw [List.append_assoc]
    exact (hM.perm.append_left lost).trans hp

theorem Filled.good (h : Filled L fixed s) (hmin : 0 < s.ptPagesSpMin) : Good L fixed s :=
  ⟨h.books, hmin⟩

theorem ptPages_length_le {sp sp' : ℕ} (h : sp ≤ sp') :
    (ptPages sp').length ≤ (ptPages sp).length := by
  unfold ptPages
  rw [List.length_map, List.length_range, List.length_map, List.length_range]
  exact Nat.div_le_div_right (Nat.sub_le_sub_left h _)

/-- What the sample machine holds after it maps a page with `mmap` and again with `mmap_soft`. -/
structure SampleEnd (s : State) : Prop where
  freePages : s.freePages = [0x1a00000, 0x1800000]
  target : target s 0x40000000000 = some 0x1e00000
  sp : s.ptPagesSp = firstPtPageVAddr
  phAddr : s.phAddr firstPtPageVAddr = 0x1600000

theorem sample_run : ∃ s₀ s₁ s₂, kernelInitPart2 sampleLayout zeroRam sampleMap = .ok s₀ ∧
    mmap s₀ 0x40000000000 0x200000 protAll mapFlags 0 = .ok (0x40000000000, s₁) ∧
    mmapSoft s₁ 0x40000000000 0x200000 protAll mapFlags 0 = .ok (0x40000000000, s₂) ∧
    0x1c00000 ∈ s₀.freePages ∧ SampleEnd s₂ := by
  obtain ⟨⟨s₀, ⟨r₁, s₁⟩, r₂, s₂⟩, h, hp⟩ := exists_of_check (x := (do
      let s₀ ← kernelInitPart2 sampleLayout zeroRam sampleMap
      let r₁ ← mmap s₀ 0x40000000000 0x200000 protAll mapFlags 0
      let r₂ ← mmapSoft r₁.2 0x40000000000 0x200000 protAll mapFlags 0
      .ok (s₀, r₁, r₂) : Except Fault (State × (ℕ × State) × ℕ × State)))
    (p := fun r => decide (r.2.1.1 = 0x40000000000 ∧ r.2.2.1 = 0x40000000000 ∧
      0x1c00000 ∈ r.1.freePages ∧ r.2.2.2.freePages = [0x1a00000, 0x1800000] ∧
      target r.2.2.2 0x40000000000 = some 0x1e00000 ∧ r.2.2.2.ptPagesSp = firstPtPageVAddr ∧
      r.2.2.2.phAddr firstPtPageVAddr = 0x1600000)) (by decide +kernel)
  obtain ⟨s₀', h₀, h⟩ := bind_ok.mp h
  obtain ⟨r₁', h₁, h⟩ := bind_ok.mp h
  obtain ⟨r₂', h₂, h⟩ := bind_ok.mp h
  cases h
  obtain ⟨rfl, rfl, hq, hf, ht, hsp, hph⟩ := of_decide_eq_true hp
  exact ⟨s₀, s₁, s₂, h₀, h₁, h₂, hq, hf, ht, hsp, hph⟩

theorem Filled.pages_eq (h : Filled L fixed s) :
    pages s = s.freePages ++ (ptPages s.ptPagesSp).map s.phAddr := by
  have hu : userPages.filterMap (target s) = [] :=
    List.filterMap_eq_nil_iff.mpr fun v hv => h.none v (mem_userPages.mp hv)
  rw [pages, hu, List.nil_append]

/-- The stack never outgrows its array. -/
theorem run_length (hF : Filled L fixed s₀) (hmin : 0 < s₀.ptPagesSpMin) (h : Run Step s₀ cs s) :
    s.freePages.length ≤ s₀.freePages.length := by
  obtain ⟨-, hsp, lost, hp⟩ := run_pages (hF.good hmin) h
  have hlen := hp.length_eq
  have hpool := ptPages_length_le hsp
  rw [hF.pages_eq, pages] at hlen
  simp only [List.length_append, List.length_map] at hlen
  omega

/-- The pages on the stack, mapped in [4T, 32T) and behind the `PT_Page`s are distinct, and the
stack never outgrows its array. -/
theorem no_page_used_twice (hm : MemoryMap L es) (h₀ : kernelInitPart2 L ram es = .ok s₀)
    (h : Run Step s₀ cs s) :
    (s.freePages ++ (userPages.filterMap (target s) ++
      (ptPages s.ptPagesSp).map s.phAddr)).Nodup ∧
    (∀ p ∈ ptPages s.ptPagesSp, target s p = some (s.phAddr p)) ∧
    s.freePages.length ≤ s₀.freePages.length ∧
    ∀ i < s₀.freePages.length, target s (align2m (L.ekernelAlign8 + 8 * i)) ≠ none := by
  obtain ⟨fixed, hF, hmin⟩ := kernelInitPart2_filled hm h₀
  obtain ⟨hg, -, -⟩ := run_pages (hF.good hmin) h
  have hn := hg.pages_nodup
  unfold pages at hn
  refine ⟨hn, hg.books.window, run_length hF hmin h, ?_⟩
  intro i hi
  obtain ⟨q, hq⟩ := hF.array i hi
  simp [(hg.books.fixedAt _ _ hq).2.2]

theorem no_page_used_twice_sample : ∃ s₀ s, Run Step s₀
    [.mmap 0x40000000000 0x200000 protAll mapFlags 0 0x40000000000] s ∧ s.freePages.Nodup := by
  obtain ⟨s₀, s₁, -, h₀, h₁, -⟩ := sample_run
  have hr := Run.refl.step (Step.mmap h₁)
  exact ⟨s₀, s₁, hr, (List.nodup_append.mp (no_page_used_twice sampleMap_ok h₀ hr).1).1⟩

/-- A run loses no page exactly if no call of `mmap_soft` comes to a page that is translated. -/
theorem no_page_lost_iff (hm : MemoryMap L es) (h₀ : kernelInitPart2 L ram es = .ok s₀)
    (h : Run (Traced Step) s₀ xs s) :
    (pages s).Perm (pages s₀) ↔ ∀ e ∈ xs, ¬ e.2.Wasteful e.1 := by
  obtain ⟨fixed, hF, hmin⟩ := kernelInitPart2_filled hm h₀
  have hrun : Good L fixed s ∧ ∃ lost, (lost ++ pages s).Perm (pages s₀) ∧
      (lost = [] ↔ ∀ e ∈ xs, ¬ e.2.Wasteful e.1) := by
    induction h with
    | refl => exact ⟨hF.good hmin, [], by rw [List.nil_append], by simp⟩
    | @step xs s t e _ hs ih =>
      obtain ⟨hg, lost, hp, hiff⟩ := ih
      obtain ⟨rfl, hs⟩ := hs
      obtain ⟨lost', hM⟩ := hs.moved hg
      refine ⟨hM.good, lost ++ lost', ?_, ?_⟩
      · rw [List.append_assoc]
        exact (hM.perm.append_left lost).trans hp
      · have hw : lost' = [] ↔ ¬ e.2.Wasteful e.1 := by rw [← hM.lost_iff, not_not]
        simp only [List.append_eq_nil_iff, List.mem_append, List.mem_singleton, hiff, hw]
        exact ⟨fun h e' he => he.elim (h.1 e') fun he => he ▸ h.2,
          fun h => ⟨fun e' he => h e' (Or.inl he), h e (Or.inr rfl)⟩⟩
  obtain ⟨-, lost, hp, hiff⟩ := hrun
  rw [← hiff]
  constructor
  · intro hperm
    have hlen := hp.length_eq
    rw [List.length_append, hperm.length_eq] at hlen
    exact List.eq_nil_of_length_eq_zero (by omega)
  · rintro rfl
    rw [List.nil_append] at hp
    exact hp

theorem no_page_lost_iff_sample : ∃ s₀ s, Run (Traced Step) s₀
    [(s₀, .mmap 0x40000000000 0x200000 protAll mapFlags 0 0x40000000000)] s ∧
    (pages s).Perm (pages s₀) := by
  obtain ⟨s₀, s₁, -, h₀, h₁, -⟩ := sample_run
  have hs : Traced Step s₀ (s₀, .mmap 0x40000000000 0x200000 protAll mapFlags 0 0x40000000000) s₁ :=
    ⟨rfl, .mmap h₁⟩
  have hr := Run.refl.step hs
  refine ⟨s₀, s₁, hr, (no_page_lost_iff sampleMap_ok h₀ hr).mpr ?_⟩
  simp [Call.Wasteful]

/-- `mmap` of a page and then `mmap_soft` of the same page lose a page for good. -/
theorem not_always_kept : ∃ L ram es s₀ cs s, MemoryMap L es ∧
    kernelInitPart2 L ram es = .ok s₀ ∧ Run Step s₀ cs s ∧
    ∃ q ∈ s₀.freePages, q ∉ s.freePages ∧ (∀ v, IsUser v → target s v ≠ some q) ∧
      ∀ p ∈ ptPages s.ptPagesSp, s.phAddr p ≠ q := by
  obtain ⟨s₀, s₁, s₂, h₀, h₁, h₂, hq, hE⟩ := sample_run
  have hr := (Run.refl.step (Step.mmap h₁)).step (Step.mmapSoft h₂)
  refine ⟨_, _, _, s₀, _, s₂, sampleMap_ok, h₀, hr, 0x1c00000, hq, by simp [hE.freePages], ?_, ?_⟩
  · obtain ⟨fixed, hF, hmin⟩ := kernelInitPart2_filled sampleMap_ok h₀
    have hg₀ := hF.good hmin
    obtain ⟨-, _, _, hM₁, -⟩ := hg₀.books.mapRange hg₀.min h₁
    obtain ⟨lost, hM⟩ := (Step.mmap h₁).moved hg₀
    obtain ⟨-, _, _, hM₂, -⟩ := hM.good.books.mapRange hM.good.min h₂
    intro v hv
    by_cases hve : v = 0x40000000000
    · rw [hve, hE.target]
      decide
    · have hout : v ∉ pagesOf 0x40000000000 0x200000 := by simpa [pagesOf, rangePages] using hve
      rw [hM₂.outside v hv hout, hM₁.outside v hv hout, hF.none v hv]
      simp
  · intro p hp
    rw [hE.sp, ptPages_first] at hp
    obtain rfl := List.mem_singleton.mp hp
    rw [hE.phAddr]
    decide

/-- Table `id` of the `PT_Page` at `p`. -/
def tableAt (p id : ℕ) : ℕ := p + id * 0x1000

/-- The five views of the pool that have to stay in step. -/
structure PoolInv (s : State) : Prop where
  list : s.freePtPages.Nodup ∧
    ∀ p, p ∈ s.freePtPages ↔ p ∈ ptPages s.ptPagesSp ∧ s.freeIds p ≠ []
  num : s.freePtsNum = ((ptPages s.ptPagesSp).map fun p => (s.freeIds p).length).sum ∧
    1 ≤ s.freePtsNum
  ids : ∀ p ∈ ptPages s.ptPagesSp, (s.freeIds p).Nodup ∧ ∀ id ∈ s.freeIds p, id < 510
  referenced : ∀ p ∈ ptPages s.ptPagesSp, ∀ id < 510,
    (id ∉ s.freeIds p ↔ ∃! ab : ℕ × ℕ, s.kernelVpt2s ab.1 ab.2 = tableAt p id)
  zero : ∀ p ∈ ptPages s.ptPagesSp, ∀ id ∈ s.freeIds p, ∀ c < 512,
    s.pageTables (tableAt p id) c = 0
  counters : ∀ p ∈ ptPages s.ptPagesSp, ∀ id < 510, id ∉ s.freeIds p →
    s.freeEntrysNum p id = zeros 512 (s.pageTables (tableAt p id)) ∧
      zeros 512 (s.pageTables (tableAt p id)) ≤ 511
  directories : ∀ a b, ¬ (a = 0 ∧ b = 0) → (s.kernelVpt2s a b = 0 ∧ s.kernelPt2s a b = 0) ∨
    (a < 64 ∧ b < 512 ∧ ∃ p ∈ ptPages s.ptPagesSp, ∃ id < 510,
      s.kernelVpt2s a b = tableAt p id ∧ target s p = some (s.phAddr p) ∧
        s.kernelPt2s a b = s.phAddr p + id * 0x1000 + 3)

theorem Books.poolInv (hB : Books L fixed stack s) : PoolInv s := by
  have hT := hB.pt.tables
  have htab : ∀ p ∈ ptPages s.ptPagesSp, ∀ id < 510, IsTable (ptPages s.ptPagesSp) (tableAt p id) ∧
      (IsFree s (tableAt p id) ↔ id ∈ s.freeIds p) := by
    intro p hp id hid
    have hm := hT.poolMod p hp
    refine ⟨isTable_add hp hm hid, ?_⟩
    rw [IsFree, tableAt, align2m_add hm (by omega), tableId_add hm (by omega)]
  refine ⟨⟨hB.pt.list.nodup, hB.pt.list.mem⟩, ⟨hB.pt.num, hB.num⟩,
    fun p hp => ⟨hT.idsNodup p hp, hT.idsLt p hp⟩, ?_, ?_, ?_, ?_⟩
  · intro p hp id hid
    obtain ⟨ht, hf⟩ := htab p hp id hid
    rw [← hf]
    constructor
    · intro hn
      obtain ⟨a, b, -, -, he⟩ := hT.owner _ ht hn
      refine ⟨(a, b), he, fun ab' he' => ?_⟩
      obtain ⟨h1, h2⟩ := hT.inj a b ab'.1 ab'.2 (he ▸ hT.ne_zero ht) (he'.trans he.symm)
      exact Prod.ext h1 h2
    · rintro ⟨ab, he, -⟩
      have h0 : s.kernelVpt2s ab.1 ab.2 ≠ 0 := he ▸ hT.ne_zero ht
      have hnf := hT.not_free h0 (he ▸ ht)
      rwa [he] at hnf
  · intro p hp id hid
    obtain ⟨ht, hf⟩ := htab p hp id (hT.idsLt p hp id hid)
    exact hT.zero _ ht (hf.mpr hid)
  · intro p hp id hid hn
    obtain ⟨ht, hf⟩ := htab p hp id hid
    have hm := hT.poolMod p hp
    have hc := hB.pt.counts _ ht fun h => hn (hf.mp h)
    unfold Counted at hc
    rw [tableAt, align2m_add hm (by omega), tableId_add hm (by omega)] at hc
    exact hc
  · intro a b hab
    by_cases h0 : s.kernelVpt2s a b = 0
    · exact Or.inl ⟨h0, hT.unused a b h0⟩
    · obtain ⟨ht, hnf, he⟩ := hT.used a b h0 hab
      obtain ⟨a', b', ha', hb', he'⟩ := hT.owner _ ht hnf
      obtain ⟨rfl, rfl⟩ := hT.inj a b a' b' h0 he'
      refine Or.inr ⟨ha', hb', _, ht.page, _, ht.id, ht.eq, hB.window _ ht.page, ?_⟩
      have hmod := ht.mod
      rw [he, phys]
      unfold tableId
      omega

theorem page_table_pool (hm : MemoryMap L es) (h₀ : kernelInitPart2 L ram es = .ok s₀)
    (h : Run Step s₀ cs s) : PoolInv s ∧ s.kernelVpt2s 0 0 = L.nullPt3 ∧
      s.kernelPt2s 0 0 = L.nullPt3 + 3 := by
  obtain ⟨fixed, hF, hmin⟩ := kernelInitPart2_filled hm h₀
  obtain ⟨hg, -, -⟩ := run_pages (hF.good hmin) h
  exact ⟨hg.books.poolInv, hg.books.pt.tables.null⟩

theorem page_table_pool_sample : ∃ s₀ s, Run Step s₀
    [.mmap 0x40000000000 0x200000 protAll mapFlags 0 0x40000000000] s ∧ 1 ≤ s.freePtsNum := by
  obtain ⟨s₀, s₁, -, h₀, h₁, -⟩ := sample_run
  have hr := Run.refl.step (Step.mmap h₁)
  exact ⟨s₀, s₁, hr, (page_table_pool sampleMap_ok h₀ hr).1.num.2⟩

/-- What a call means for the map that the MMU sees. -/
def Call.Means (s t : State) : Call → Prop
  | .mmap addr length _ _ _ ret | .mmapSoft addr length _ _ _ ret =>
    (ret ≠ mapFailed → ret = addr ∧ ∀ v ∈ pagesOf addr length, walk t v ≠ none) ∧
    (ret = mapFailed → ∀ v, IsUser v → walk t v = walk s v) ∧
    (∀ v, IsUser v → v ∉ pagesOf addr length → walk t v = walk s v) ∧
    (∀ v, IsUser v → walk s v ≠ none → walk t v = walk s v)
  | .munmap addr length _ =>
    (∀ v ∈ pagesOf addr length, walk s v ≠ none ∧ walk t v = none) ∧
    (∀ v, IsUser v → v ∉ pagesOf addr length → walk t v = walk s v) ∧
    t.freePages = ((pagesOf addr length).filterMap (walk s)).reverse ++ s.freePages
  | .checkMap addr length ret =>
    t = s ∧
    (ret = mapAllMapped ↔ ∀ v ∈ pagesOf addr length, walk s v ≠ none) ∧
    (ret = mapNoMapped ↔ ∀ v ∈ pagesOf addr length, walk s v = none) ∧
    (ret = mapPartMapped ↔ (∃ v ∈ pagesOf addr length, walk s v ≠ none) ∧
      ∃ v ∈ pagesOf addr length, walk s v = none)

theorem Good.walk_user (h : Good L fixed s) (hv : IsUser v) : walk s v = target s v := by
  have hge := hv.ge
  have hlt := hv.lt
  exact h.books.walk_eq hv.mod (by omega) (by omega)

theorem Admitted.user {addr length : ℕ} (h : Admitted addr length) (hv : v ∈ pagesOf addr length) :
    IsUser v := h.2.mem hv

theorem mapRange_means {addr length prot flags ret : ℕ} {offset : ℤ} {isSoft : Bool}
    (hg : Good L fixed s) (hg' : Good L fixed t)
    (h : mapRange isSoft s addr length prot flags offset = .ok (ret, t)) :
    (ret ≠ mapFailed → ret = addr ∧ ∀ v ∈ pagesOf addr length, walk t v ≠ none) ∧
    (ret = mapFailed → ∀ v, IsUser v → walk t v = walk s v) ∧
    (∀ v, IsUser v → v ∉ pagesOf addr length → walk t v = walk s v) ∧
    (∀ v, IsUser v → walk s v ≠ none → walk t v = walk s v) := by
  obtain ⟨hA, lost, ok, hM, -, -, hret⟩ := hg.books.mapRange hg.min h
  have hwalk : ∀ v, IsUser v → target t v = target s v → walk t v = walk s v := by
    intro v hv he
    rw [hg'.walk_user hv, hg.walk_user hv, he]
  refine ⟨?_, ?_, fun v hv hn => hwalk v hv (hM.outside v hv hn), fun v hv hn => ?_⟩
  · intro hne
    cases ok with
    | true =>
      refine ⟨hret, fun v hv => ?_⟩
      rw [hg'.walk_user (hA.user hv)]
      exact hM.all rfl v hv
    | false => exact absurd hret hne
  · intro he v hv
    cases ok with
    | true =>
      have hle := hA.2.le
      have hret : ret = addr := hret
      unfold mapFailed at he
      omega
    | false => exact hwalk v hv (hM.failed rfl v hv)
  · rw [hg.walk_user hv] at hn
    exact hwalk v hv (hM.already v hv hn)

theorem Step.means (h : Step s c t) (hg : Good L fixed s) : c.Means s t := by
  obtain ⟨lost, hM⟩ := h.moved hg
  have hg' := hM.good
  cases h with
  | mmap h => exact mapRange_means hg hg' h
  | mmapSoft h => exact mapRange_means hg hg' h
  | munmap h =>
    obtain ⟨hA, hU⟩ := hg.books.munmap h
    refine ⟨fun v hv => ?_, fun v hv hn => ?_, ?_⟩
    · rw [hg.walk_user (hA.user hv), hg'.walk_user (hA.user hv)]
      exact ⟨hU.was v hv, hU.gone v hv⟩
    · rw [hg.walk_user hv, hg'.walk_user hv]
      exact hU.outside v hv hn
    · rw [hU.pushed]
      congr 2
      exact List.filterMap_congr fun v hv => (hg.walk_user (hA.user hv)).symm
  | checkMap h =>
    obtain ⟨hA, hC⟩ := checkMap_spec h
    have hw : ∀ v ∈ pagesOf _ _, walk s v = target s v := fun v hv => hg.walk_user (hA.user hv)
    refine ⟨rfl, hC.allMapped.trans ?_, hC.noMapped.trans ?_, hC.partMapped.trans ?_⟩
    · exact forall₂_congr fun v hv => by rw [hw v hv]
    · exact forall₂_congr fun v hv => by rw [hw v hv]
    · refine and_congr ?_ ?_
      · exact exists_congr fun v => and_congr_right fun hv => by rw [hw v hv]
      · exact exists_congr fun v => and_congr_right fun hv => by rw [hw v hv]

theorem walk_lt (h : walk s v = some q) (hv : v < 2 ^ 48) : v < 0x200000000000 := by
  have h64 : ¬ 64 ≤ i1 v := by
    intro h64
    rw [walk, if_pos h64] at h
    cases h
  unfold i1 at h64
  omega

/-- In every state of a run the MMU sees an injective map, and every call does to it what it
says. -/
theorem page_tables_map (hm : MemoryMap L es) (h₀ : kernelInitPart2 L ram es = .ok s₀)
    (h : Run Step s₀ cs s) :
    (∀ v w q, v % 0x200000 = 0 → w % 0x200000 = 0 → 0 < v → 0 < w → v < 2 ^ 48 → w < 2 ^ 48 →
      walk s v = some q → walk s w = some q → v = w) ∧
    (∀ c t, Step s c t → c.Means s t) ∧ ∀ v, IsUser v → walk s₀ v = none := by
  obtain ⟨fixed, hF, hmin⟩ := kernelInitPart2_filled hm h₀
  obtain ⟨hg, -, -⟩ := run_pages (hF.good hmin) h
  refine ⟨?_, fun c t hs => hs.means hg, fun v hv => ?_⟩
  · intro v w q hv hw hv0 hw0 hv' hw' ht ht'
    have h1 := walk_lt ht hv'
    have h2 := walk_lt ht' hw'
    rw [hg.books.walk_eq hv hv0 hv'] at ht
    rw [hg.books.walk_eq hw hw0 hw'] at ht'
    exact hg.books.target_inj hv hv0 h1 hw hw0 h2 ht ht'
  · rw [(hF.good hmin).walk_user hv]
    exact hF.none v hv

theorem page_tables_map_sample : ∃ s₀ s, Run Step s₀
    [.mmap 0x40000000000 0x200000 protAll mapFlags 0 0x40000000000] s ∧
    ∀ t ret, Step s (.munmap 0x40000000000 0x200000 ret) t → walk t 0x40000000000 = none := by
  obtain ⟨s₀, s₁, -, h₀, h₁, -⟩ := sample_run
  have hr := Run.refl.step (Step.mmap h₁)
  refine ⟨s₀, s₁, hr, fun t ret ht => ?_⟩
  exact (((page_tables_map sampleMap_ok h₀ hr).2.1 _ t ht).1 _ (by simp [pagesOf, rangePages])).2

end MyosIo.Mm
