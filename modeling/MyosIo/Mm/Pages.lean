import MyosIo.Mm.Blocks

/-! Every usable page is in one block, but for the first page of an entry that starts at a page
boundary above 16M, which the padding leaves out. -/
namespace MyosIo.Mm

variable {L : Layout} {es : List E820Entry} {e : E820Entry} {blocks blocks' : List FreeMemoryBlock}
  {b : FreeMemoryBlock} {p addr size : ℕ}

/-- The page lies inside the block. -/
def hasPage (p : ℕ) (b : FreeMemoryBlock) : Bool := b.addr ≤ p ∧ p + 0x200000 ≤ b.addr + b.size

theorem hasPage_iff : hasPage p b = true ↔ b.addr ≤ p ∧ p + 0x200000 ≤ b.addr + b.size := by
  simp [hasPage]

/-- Disjoint blocks: a page that is in one of them is in no other. -/
theorem countP_hasPage (h : blocks.Pairwise fun a b => a.addr + a.size ≤ b.addr) (hb : b ∈ blocks)
    (hp : hasPage p b) : blocks.countP (hasPage p) = 1 := by
  induction h with
  | nil => cases hb
  | @cons c blocks hfirst _ ih =>
    rw [List.countP_cons]
    rcases List.mem_cons.mp hb with rfl | hb
    · have hnone : blocks.countP (hasPage p) = 0 := by
        rw [List.countP_eq_zero]
        intro a ha hpa
        have := hfirst a ha
        rw [hasPage_iff] at hp hpa
        omega
      rw [hnone, if_pos hp]
    · have hc : ¬ hasPage p c = true := by
        have := hfirst b hb
        rw [hasPage_iff] at hp ⊢
        omega
      rw [ih hb, if_neg hc]

theorem addBlock_subset (h : addBlock blocks addr size = .ok blocks') (hb : b ∈ blocks) :
    b ∈ blocks' :=
  (addBlock_mem h).mpr (.inl hb)

theorem addEntry_subset (he : e.addr + e.size ≤ 2 ^ 64) (h : addEntry L blocks e = .ok blocks')
    (hb : b ∈ blocks) : b ∈ blocks' := by
  rcases addEntry_ok he h with rfl | ⟨-, addr, size, -, -, ⟨-, -, blocks₁, h₁, h₂⟩ | ⟨-, h₁⟩⟩
  · exact hb
  · have hb₁ : b ∈ blocks₁ := by
      split at h₁
      · exact addBlock_subset h₁ hb
      · cases h₁
        exact hb
    split at h₂
    · exact addBlock_subset h₂ hb₁
    · cases h₂
      exact hb₁
  · exact addBlock_subset h₁ hb

/-- The pages from the padding on are in the blocks of the entry. -/
theorem addEntry_hasPage (hL : L.Loaded) (he : e.addr + e.size ≤ 2 ^ 64) (hpl : Placed L e)
    (hu : e.type = 1 ∧ e.extend = 1) (hp : FreePage L p) (hlo : e.addr + pad e ≤ p)
    (hhi : p + 0x200000 ≤ e.addr + e.size) (h : addEntry L blocks e = .ok blocks') :
    ∃ b ∈ blocks', hasPage p b := by
  have hm := hp.mod
  have hsize : align2m (e.size - pad e) ≠ 0 := by
    unfold align2m
    omega
  obtain ⟨addr, size, rfl, hs, hcase⟩ := addEntry_span he hu (by omega) hsize h
  have hhi' : p + 0x200000 ≤ e.addr + pad e + size := by
    rw [hs.hi]
    unfold align2m
    omega
  have hkm := kernelAlign2m_mod L
  have hem := ekernelAlign2m_mod L
  have hiff := hs.inside_iff hL hpl
  rcases hcase with ⟨hk, hsub, blocks₁, h₁, h₂⟩ | ⟨-, h₁⟩
  · obtain ⟨hi₁, hi₂⟩ := hiff.mp ⟨hk, hsub⟩
    obtain ⟨hr₁, hr₂⟩ := hs.reach hi₁ hi₂ hL
    rw [sub64_eq hr₁ (by have := hL.ekernelAlign2m_le; omega)] at h₂
    rcases hp.out with hout | hout
    · -- below the kernel image
      rw [if_pos (by omega)] at h₁
      have hb₁ := (addBlock_mem h₁).mpr (.inr rfl)
      refine ⟨⟨e.addr + pad e, L.kernelAlign2m - (e.addr + pad e)⟩, ?_, hasPage_iff.mpr ⟨hlo, ?_⟩⟩
      · split at h₂
        · exact addBlock_subset h₂ hb₁
        · cases h₂
          exact hb₁
      · simp only
        omega
    · rw [if_pos (by omega)] at h₂
      refine ⟨_, (addBlock_mem h₂).mpr (.inr rfl), hasPage_iff.mpr ⟨hout, ?_⟩⟩
      simp only
      omega
  · exact ⟨_, (addBlock_mem h₁).mpr (.inr rfl), hasPage_iff.mpr ⟨hlo, hhi'⟩⟩

theorem addEntries_subset (hes : ∀ e ∈ es, e.addr + e.size ≤ 2 ^ 64)
    (h : addEntries L blocks es = .ok blocks') (hb : b ∈ blocks) : b ∈ blocks' := by
  induction es generalizing blocks with
  | nil =>
    cases h
    exact hb
  | cons e es ih =>
    obtain ⟨blocks₁, h₁, h⟩ := bind_ok.mp h
    exact ih (fun e he => hes e (List.mem_cons_of_mem _ he)) h
      (addEntry_subset (hes e List.mem_cons_self) h₁ hb)

theorem addEntries_hasPage (hL : L.Loaded) (hes : ∀ e ∈ es, e.addr + e.size ≤ 2 ^ 64)
    (hpl : ∀ e ∈ es, Placed L e) (he : e ∈ es) (hu : e.type = 1 ∧ e.extend = 1)
    (hp : FreePage L p) (hlo : e.addr + pad e ≤ p) (hhi : p + 0x200000 ≤ e.addr + e.size)
    (h : addEntries L blocks es = .ok blocks') : ∃ b ∈ blocks', hasPage p b := by
  induction es generalizing blocks with
  | nil => cases he
  | cons a es ih =>
    obtain ⟨blocks₁, h₁, h₂⟩ := bind_ok.mp h
    have hes' := fun e he => hes e (List.mem_cons_of_mem a he)
    rcases List.mem_cons.mp he with rfl | he
    · obtain ⟨b, hb, hpb⟩ := addEntry_hasPage hL (hes e List.mem_cons_self)
        (hpl e List.mem_cons_self) hu hp hlo hhi h₁
      exact ⟨b, addEntries_subset hes' h₂ hb, hpb⟩
    · exact ih hes' (fun e he => hpl e (List.mem_cons_of_mem a he)) he h₂

theorem superBlocks_hasPage (hL : L.Loaded) (hp : FreePage L p)
    (h : superBlocks L e = .ok blocks) : ∃ b ∈ blocks, hasPage p b := by
  have hm := hp.mod
  have hge := hp.ge
  have hle := hp.le
  have hkm := kernelAlign2m_mod L
  have hem := ekernelAlign2m_mod L
  have hek := hL.ekernelAlign2m_le
  unfold superBlocks at h
  split at h
  · cases h
  have hlast {blocks₁ : List FreeMemoryBlock}
      (h₂ : addBlock blocks₁ L.ekernelAlign2m (2 ^ 64 - 1 - L.ekernelAlign2m + 1) = .ok blocks)
      (hout : L.ekernelAlign2m ≤ p) : ∃ b ∈ blocks, hasPage p b :=
    ⟨_, (addBlock_mem h₂).mpr (.inr rfl), hasPage_iff.mpr ⟨hout, by simp only; omega⟩⟩
  split at h
  · next hne =>
    obtain ⟨blocks₁, h₁, h₂⟩ := bind_ok.mp h
    rcases hp.out with hout | hout
    · exact ⟨_, addBlock_subset h₂ ((addBlock_mem h₁).mpr (.inr rfl)),
        hasPage_iff.mpr ⟨hge, by simp only; omega⟩⟩
    · exact hlast h₂ hout
  · next heq =>
    obtain ⟨blocks₁, h₁, h₂⟩ := bind_ok.mp h
    exact hlast h₂ (hp.out.resolve_left (by omega))

/-- A usable entry that starts at a page boundary above 16M and has a whole page starts with the
kernel image. -/
def StartsRight (L : Layout) (es : List E820Entry) : Prop :=
  ∀ e ∈ es, e.type = 1 ∧ e.extend = 1 → 0x1000000 < e.addr → e.addr % 0x200000 = 0 →
    0x200000 ≤ e.size → e.addr = L.kernelAlign2m

/-- Behind the padding are all the pages but that first one. -/
theorem pad_le (hp : FreePage L p) (hlo : e.addr ≤ p)
    (hne : 0x1000000 < e.addr → e.addr % 0x200000 = 0 → p ≠ e.addr) : e.addr + pad e ≤ p := by
  have hm := hp.mod
  have hge := hp.ge
  unfold pad
  split <;> omega

/-- The initialisation keeps every usable page if and only if no entry starts at a page boundary
above 16M, unless with the kernel image. -/
theorem no_page_dropped_iff (hL : L.Loaded) (hm : MemoryMap L es)
    (h : freeBlocks L es = .ok blocks) :
    (∀ p, FreePage L p → InUsable es p (p + 0x200000) → blocks.countP (hasPage p) = 1) ↔
      StartsRight L es := by
  obtain ⟨lo, hS⟩ := freeBlocks_sorted hL hm h
  cases hm with
  | @super e h0 =>
    refine iff_of_true (fun p hp _ => ?_) fun e' he' _ _ _ hsize => ?_
    · rw [freeBlocks, if_pos h0] at h
      obtain ⟨b, hb, hpb⟩ := superBlocks_hasPage hL hp h
      exact countP_hasPage hS.order hb hpb
    · obtain rfl := List.mem_singleton.mp he'
      omega
  | sorted hs hend hk =>
    obtain ⟨k, hk, -, -, h₁, h₂⟩ := hk
    have ha := addEntries_of_sorted h hk h₁ h₂
    have hpl := fun e he => placed_of_mem (e := e) hs hk h₁ h₂ he
    have hlt := kernelAlign2m_lt L
    constructor
    · intro hall e he hu hlow hmod hsize
      by_contra hne
      have hp : FreePage L e.addr := by
        have := hend e he
        refine ⟨hmod, hlow.le, by omega, ?_⟩
        cases hpl e he with
        | inside h => exact .inl (by omega)
        | below h => exact .inl (by omega)
        | above h => exact .inr h
      have hcount := hall e.addr hp ⟨e, he, hu, .inr ⟨le_rfl, by omega⟩⟩
      obtain ⟨b, hb, hpb⟩ := List.countP_pos_iff.mp (by omega : 0 < blocks.countP (hasPage e.addr))
      rw [hasPage_iff] at hpb
      rcases addEntries_within hL hend hpl ha hb with hno | ⟨e', he', ⟨-, hw₁, hw₂⟩, hpad⟩
      · cases hno
      · obtain rfl : e' = e := by
          rcases pairwise_cases hs he' he with h | h | h
          · exact h
          all_goals omega
        unfold pad at hpad
        rw [if_neg (by omega)] at hpad
        omega
    · rintro hstart p hp ⟨e, he, hu, ⟨rfl, hz⟩ | ⟨hlo, hhi⟩⟩
      · obtain rfl := List.mem_singleton.mp hk
        omega
      · have hpad : e.addr + pad e ≤ p := by
          refine pad_le hp hlo fun hlow hmod heq => ?_
          have := hstart e he hu hlow hmod (by omega)
          have := hp.out
          omega
        obtain ⟨b, hb, hpb⟩ := addEntries_hasPage hL hend hpl he hu hp hpad hhi ha
        exact countP_hasPage hS.order hb hpb

/-- The kernel image in one entry, and another entry that starts at a page boundary. -/
def alignedMap : List E820Entry := [⟨0x1000000, 0x800000, 1, 1⟩, ⟨0x2000000, 0x400000, 1, 1⟩]

theorem alignedMap_ok : MemoryMap sampleLayout alignedMap :=
  .sorted (List.pairwise_cons.mpr ⟨fun _ h => by
    obtain rfl := List.mem_singleton.mp h
    decide, List.pairwise_singleton _ _⟩) (by decide) ⟨_, List.mem_cons_self, by decide⟩

theorem alignedMap_blocks : freeBlocks sampleLayout alignedMap =
    .ok [⟨0x1600000, 0x200000⟩, ⟨0x2200000, 0x200000⟩] := rfl

/-- The first page of the second entry is in no block. -/
theorem first_page_dropped : MemoryMap sampleLayout alignedMap ∧
    FreePage sampleLayout 0x2000000 ∧ InUsable alignedMap 0x2000000 (0x2000000 + 0x200000) ∧
    ∃ blocks, freeBlocks sampleLayout alignedMap = .ok blocks ∧
      blocks.countP (hasPage 0x2000000) = 0 := by
  refine ⟨alignedMap_ok, ⟨by decide, by decide, by decide, by decide⟩, ?_, _, alignedMap_blocks, ?_⟩
  · exact ⟨⟨0x2000000, 0x400000, 1, 1⟩, by simp [alignedMap], by decide, .inr (by decide)⟩
  · decide

theorem no_page_dropped_sample :
    [FreeMemoryBlock.mk 0x1600000 0xa00000].countP (hasPage 0x1800000) = 1 := by
  have hs : StartsRight sampleLayout sampleMap := by
    intro e he _ hlow
    obtain rfl := List.mem_singleton.mp he
    exact absurd hlow (by decide)
  refine (no_page_dropped_iff sampleLayout_loaded sampleMap_ok sampleMap_blocks).mpr hs 0x1800000
    ⟨by decide, by decide, by decide, by decide⟩ ?_
  exact ⟨_, List.mem_singleton_self _, by decide, .inr (by decide)⟩

end MyosIo.Mm
