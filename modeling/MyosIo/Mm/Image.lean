import MyosIo.Mm.Steady

/-! The counters of the level-3 tables lie in the `PT_Page`s. A kernel image that starts in the
first gibibyte is mapped through `null_pt3`, which lies in the image itself, and so its counter is
looked for there. -/
namespace MyosIo.Mm

variable {L : Layout} {ram s₀ s : State} {es : List E820Entry} {fixed : List (ℕ × ℕ)}
  {cs : List Call} {stack : List ℕ}

/-- Of the memory that can be read as `PT_Page`s only the pool has been written, and `null_pt3`;
every table in use is one of the pool and its counter is its own. -/
structure Enclosed (L : Layout) (ram s : State) : Prop where
  own : ∀ a b, ¬ (a = 0 ∧ b = 0) → s.kernelVpt2s a b ≠ 0 →
    IsTable (ptPages s.ptPagesSp) (s.kernelVpt2s a b) ∧ Counted s (s.kernelVpt2s a b)
  freeEntrysNum : ∀ p, p ∉ ptPages s.ptPagesSp → s.freeEntrysNum p = ram.freeEntrysNum p
  freeIds : ∀ p, p ∉ ptPages s.ptPagesSp → s.freeIds p = ram.freeIds p
  phAddr : ∀ p, p ∉ ptPages s.ptPagesSp → s.phAddr p = ram.phAddr p
  pageTables : ∀ t, align2m t ∉ ptPages s.ptPagesSp → t ≠ L.nullPt3 →
    s.pageTables t = ram.pageTables t

/-- Memory is kept as long as nothing is mapped through `null_pt3`. -/
theorem Image.enclosed {n : ℕ} (hi : Image L (ptPages s.ptPagesSp) ram n s)
    (hI : PtInv L (ptPages s.ptPagesSp) s) (hhigh : 0x40000000 ≤ L.kernelAlign2m) :
    Enclosed L ram s where
  own a b hab h0 := by
    obtain ⟨ht, hf, -⟩ := hI.tables.used a b h0 hab
    exact ⟨ht, hI.counts _ ht hf⟩
  freeEntrysNum p hp := by
    funext id
    by_cases hc : p = align2m L.nullPt3 ∧ id = tableId L.nullPt3
    · rw [hc.1, hc.2]
      exact hi.still hhigh
    · exact hi.freeEntrysNum p hp id hc
  freeIds := hi.freeIds
  phAddr := hi.phAddr
  pageTables := hi.pageTables

/-- A filled entry of `null_pt3` shows in the counter that its address names. -/
theorem Image.not_enclosed {n : ℕ} (hi : Image L (ptPages s.ptPagesSp) ram n s)
    (hI : PtInv L (ptPages s.ptPagesSp) s) (hn : n < 504) : ¬ Enclosed L ram s := by
  intro hE
  have hc : nullCounter L s = nullCounter L ram :=
    congrFun (hE.freeEntrysNum _ hI.tables.nullOut) _
  have hs := hi.spent
  have hb := hi.bound
  rw [hc] at hs
  have hz : 504 % 0x10000 = nullZeros L s % 0x10000 := hs.add_left_cancel'
  omega

/-- The table bookkeeping stays in the pool exactly if the kernel image starts at 1 GiB or
above. -/
theorem bookkeeping_enclosed_iff (hm : MemoryMap L es) (h₀ : kernelInitPart2 L ram es = .ok s₀)
    (h : Run Step s₀ cs s) : Enclosed L ram s ↔ 0x40000000 ≤ L.kernelAlign2m := by
  obtain ⟨fixed, s₂, hE, rfl⟩ := kernelInitPart2_ended hm h₀
  have hg := (hE.toFilled.setSpMin (slot L s₂)).good hE.steady.pos
  have hB := (run_pages hg h).1.books
  have hi := (run_steady hg hE.steady h).image
  refine ⟨fun hK => ?_, hi.enclosed hB.pt⟩
  by_contra hlow
  have hn : emptyEntries L < 504 := by
    unfold emptyEntries
    split <;> omega
  exact hi.not_enclosed hB.pt hn hK

theorem bookkeeping_enclosed_iff_sample : ∃ s₀ s, Run Step s₀
    [.mmap 0x40000000000 0x200000 protAll mapFlags 0 0x40000000000] s ∧
    ¬ Enclosed sampleLayout zeroRam s := by
  obtain ⟨s₀, s₁, -, h₀, h₁, -⟩ := sample_run
  have hr : Run Step s₀ [] s₀ := .refl
  have hr₁ := hr.step (Step.mmap h₁)
  exact ⟨s₀, s₁, hr₁, fun hE =>
    absurd ((bookkeeping_enclosed_iff sampleMap_ok h₀ hr₁).mp hE) (by decide)⟩

/-- A kernel at 16 MiB: mapping its three pages counts down a word of its first page. -/
theorem image_written : ∃ s₀, kernelInitPart2 sampleLayout zeroRam sampleMap = .ok s₀ ∧
    s₀.freeEntrysNum sampleLayout.kernelAlign2m 4 = 0xfffd ∧
      ¬ Enclosed sampleLayout zeroRam s₀ := by
  obtain ⟨s₀, h, hp⟩ := exists_of_check (x := kernelInitPart2 sampleLayout zeroRam sampleMap)
    (p := fun s => decide (s.ptPagesSp = firstPtPageVAddr ∧
      s.freeEntrysNum sampleLayout.kernelAlign2m 4 = 0xfffd)) (by decide +kernel)
  obtain ⟨hsp, hc⟩ := of_decide_eq_true hp
  refine ⟨s₀, h, hc, fun hE => ?_⟩
  have hout : sampleLayout.kernelAlign2m ∉ ptPages s₀.ptPagesSp := by
    rw [hsp, mem_ptPages (by decide)]
    decide
  have hkept := congrFun (hE.freeEntrysNum _ hout) 4
  rw [hc] at hkept
  cases hkept

end MyosIo.Mm
