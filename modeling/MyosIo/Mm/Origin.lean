import MyosIo.Mm.Runs

/-! `kernel_init_part2` puts nothing on the stack and nothing behind the pool that does not come
from the E820 array, and no call adds a page. -/
namespace MyosIo.Mm

variable {L : Layout} {ram s s' s₀ : State} {v ph q room num first : ℕ} {fixed : List (ℕ × ℕ)}
  {stack stack' : List ℕ} {it : FreePagesIterator} {es : List E820Entry} {cs : List Call}

/-- The physical pages behind the pool. -/
def poolPages (s : State) : List ℕ := (ptPages s.ptPagesSp).map s.phAddr

theorem held_poolPages (hn : ∀ v, IsUser v → target s v = none) :
    held fixed stack s = stack ++ poolPages s ++ fixed.map Prod.snd := by
  have hu : userPages.filterMap (target s) = [] :=
    List.filterMap_eq_nil_iff.mpr fun v hv => hn v (mem_userPages.mp hv)
  rw [held, hu, List.nil_append, List.append_assoc]
  rfl

/-- The pages that a new page of the pool leaves are the ones that were there. -/
theorem Ready.pool (hR : Ready L fixed stack stack' s s')
    (hn : ∀ v, IsUser v → target s v = none) :
    (stack' ++ poolPages s').Perm (stack ++ poolPages s) := by
  have hp := hR.perm
  rw [held_poolPages hn, held_poolPages fun v hv => (hR.same v hv).trans (hn v hv)] at hp
  exact (List.perm_append_right_iff _).mp hp

/-- `pt_try_map` for the array takes its page and at most one from the iterator. -/
theorem Filling.grow_pool {it₁ it₂ : FreePagesIterator} {ret : ℤ} (hF : Filling L fixed it s)
    (hlt : slot L s < freePagesVAddrMax) (hs : slot L s % 0x200000 = 0)
    (hB : Books L fixed (ph :: (left it₁ ++ stack)) s) (hi : Inside L it₁)
    (h : ptTryMap getFreePageInInit it₁ s ph (slot L s) false = .ok (ret, it₂, s')) :
    (left it₂ ++ stack ++ poolPages s').Perm (left it₁ ++ stack ++ poolPages s) := by
  have hfar := fun w (_ : s.ptPagesSpMin + 0x200000 ≤ s.ptPagesSp)
    (hw : s.ptPagesSp - 0x200000 = w) => slot_far hlt hs hF.pool hB.spLe hw
  have hlt45 : slot L s < 2 ^ 45 := by unfold freePagesVAddrMax at hlt; omega
  have hT := @Books.tryMap L fixed s s' (slot L s) ph false _ getFreePageInInit
    (fun it => left it ++ stack) it₁ it₂ ret hB (source_init hi _) hlt45 hfar h
  rcases hT with ⟨-, hsoft, -⟩ | ⟨-, -, hsrc, rfl⟩ | ⟨-, s₁, hR, hM, -⟩
  · cases hsoft
  · rw [show left it₂ ++ stack = left it₁ ++ stack from hsrc]
  · have hpool : poolPages s' = poolPages s₁ := by
      unfold poolPages
      rw [hM.phAddr, hM.sp.1]
    rw [hpool]
    exact List.Perm.cons_inv (hR.pool hF.none)

/-- The loop moves pages from the iterator to the stack and to the pool, and to nowhere else but the
array of the stack. -/
theorem Filling.origin (hF : Filling L fixed it s)
    (hroom : slot L s + 8 * room ≤ freePagesVAddrMax) (h : Mm.buildStack L room it s = .ok s') :
    s'.freePages ++ poolPages s' ⊆ left it ++ s.freePages ++ poolPages s := by
  induction room generalizing it s fixed with
  | zero =>
    cases h
    rw [List.append_assoc]
    exact List.subset_append_right ..
  | succ room ih =>
    have hsp := hF.sp_ge (show slot L s ≤ freePagesVAddrMax by omega)
    unfold Mm.buildStack at h
    cases hb : it.blocks with
    | nil =>
      rw [(next_nil hb).1] at h
      cases h
      rw [List.append_assoc]
      exact List.subset_append_right ..
    | cons b rest =>
      obtain ⟨it₁, hn, hl, hi⟩ := next_spec hF.inside hb
      have hB := hF.books
      rw [hl] at hB ⊢
      rw [hn] at h
      simp only at h
      change (if slot L s % 0x200000 = 0 then _ else _) = _ at h
      by_cases hs : slot L s % 0x200000 = 0
      · rw [if_pos hs] at h
        cases hb₁ : it₁.blocks with
        | nil =>
          -- the last page goes to the pool
          rw [(next_nil hb₁).1] at h
          have hR := hB.pushPtPage (by omega) h
          have hp := (hR.pool hF.none).subset
          rw [hR.freePages]
          refine fun q hq => List.mem_cons.mpr ?_
          have hq' : q ∈ left it₁ ++ s.freePages ++ poolPages s' := by
            rw [List.append_assoc]
            exact List.mem_append_right _ hq
          simpa [or_assoc] using hp hq'
        | cons b₁ rest₁ =>
          obtain ⟨it₂, hn₁, hl₁, hi₁⟩ := next_spec hi hb₁
          rw [hl₁] at hB ⊢
          have hB₁ : Books L fixed (it₁.addr :: (left it₂ ++ (it.addr :: s.freePages))) s :=
            hB.perm ((List.Perm.swap _ _ _).trans (List.perm_middle.symm.cons _))
          rw [hn₁] at h
          simp only at h
          obtain ⟨⟨ret, it₃, s₁⟩, h₁, h'⟩ := bind_ok.mp h
          clear h
          have hg := hF.grow_pool (by omega) hs hB₁ hi₁ h₁
          simp only at h'
          rcases hF.grow (by omega) hs hB₁ hi₁ h₁ with ⟨rfl, hB₂, rfl⟩ | ⟨rfl, hfree, hF'⟩
          · rw [if_pos (by decide)] at h'
            obtain ⟨s₂, h₂, h₃⟩ := bind_ok.mp h'
            have hB₃ : Books L fixed (it.addr :: it₁.addr :: (left it₃ ++ s₁.freePages)) s₁ :=
              hB₂.perm ((List.perm_middle.cons _).trans (List.Perm.swap _ _ _))
            have hR₂ := hB₃.pushPtPage (by omega) h₂
            have hsp₂ := hR₂.sp.2
            have hR₃ := hR₂.books.pushPtPage (by omega) h₃
            have hp₂ := hR₂.pool hF.none
            have hp₃ := hR₃.pool (hR₂.last hF.none).1
            have hl₂ : (left it₃).Perm (left it₂) :=
              (List.perm_append_right_iff _).mp ((List.perm_append_right_iff _).mp hg)
            rw [hR₃.freePages, hR₂.freePages]
            calc s₁.freePages ++ poolPages s'
              _ ⊆ left it₃ ++ s₁.freePages ++ poolPages s' := by
                rw [List.append_assoc]
                exact List.subset_append_right ..
              _ ⊆ it.addr :: it₁.addr :: (left it₃ ++ s₁.freePages) ++ poolPages s₁ :=
                (hp₃.trans hp₂).subset
              _ ⊆ it.addr :: it₁.addr :: left it₂ ++ s₁.freePages ++ poolPages s₁ :=
                ((((hl₂.append_right _).cons _).cons _).append_right _).subset
          · have hslot : slot L s₁ = slot L s := by rw [slot, hfree, slot]
            rw [if_neg (by decide)] at h'
            have ho := ih hF' (by rw [slot_push, hslot]; omega) h'
            rw [hfree] at ho
            calc s'.freePages ++ poolPages s'
              _ ⊆ left it₃ ++ (it.addr :: s.freePages) ++ poolPages s₁ := ho
              _ ⊆ left it₂ ++ (it.addr :: s.freePages) ++ poolPages s := hg.subset
              _ ⊆ it.addr :: (left it₂ ++ s.freePages) ++ poolPages s :=
                (List.perm_middle.append_right _).subset
              _ ⊆ it.addr :: it₁.addr :: left it₂ ++ s.freePages ++ poolPages s :=
                List.cons_subset_cons _ (List.subset_cons_self ..)
      · rw [if_neg hs] at h
        have hpool : firstPtPageVAddr ≤ s.ptPagesSp + roundup (slot L s + 8) :=
          hF.pool.trans (Nat.add_le_add_left (roundup_mono _) _)
        have hF' := Filling.push hB hi hF.none hF.min hpool hF.array (hF.next hs)
        have ho := ih hF' (by rw [slot_push]; omega) h
        exact List.Subset.trans ho (List.perm_middle.append_right _).subset

theorem mapInFirstPtPage_phAddr (h : mapInFirstPtPage first s ph v = .ok s') :
    s'.phAddr = s.phAddr := by
  unfold mapInFirstPtPage at h
  split at h
  · simp only at h
    split at h
    · cases h
    · cases h
      rfl
  · split at h
    · cases h
    · obtain ⟨⟨t, s₁⟩, h₁, h₂⟩ := bind_ok.mp h
      obtain ⟨page, rest, id, ids, -, -, -, rfl⟩ := newPt3_ok h₁
      cases h₂
      rfl

theorem mapKernel_phAddr (h : mapKernel first num v s = .ok s') : s'.phAddr = s.phAddr := by
  induction num generalizing v s with
  | zero =>
    cases h
    rfl
  | succ num ih =>
    obtain ⟨s₁, h₁, h⟩ := bind_ok.mp h
    exact (ih h).trans (mapInFirstPtPage_phAddr h₁)

theorem mapFirst_phAddr (h : mapFirst L ram first = .ok s) :
    s.phAddr firstPtPageVAddr = first := by
  obtain ⟨s₁, h₁, h⟩ := bind_ok.mp h
  obtain ⟨s₂, h₂, h⟩ := bind_ok.mp h
  cases h
  change s₂.phAddr _ = _
  rw [mapInFirstPtPage_phAddr h₂, mapKernel_phAddr h₁]
  simp [initPtPage]

/-- A free page inside a usable entry of the E820 array. -/
structure Original (L : Layout) (es : List E820Entry) (q : ℕ) : Prop extends FreePage L q where
  usable : InUsable es q (q + 0x200000)

theorem freeBlocks_original (hL : L.Loaded) (hm : MemoryMap L es)
    {blocks : List FreeMemoryBlock} (h : freeBlocks L es = .ok blocks)
    (hq : q ∈ blocks.flatMap blockPages) : Original L es q := by
  obtain ⟨lo, hS⟩ := freeBlocks_sorted hL hm h
  obtain ⟨b, hb, hqb⟩ := List.mem_flatMap.mp hq
  have hf := hS.free b hb
  obtain ⟨hmod, h1, h2⟩ := hf.mem_pages.mp hqb
  have hend := page_end hmod hf.mod hf.sizeMod h2
  obtain ⟨e, he, hu, hcase⟩ := freeBlocks_usable hL hm h hb
  exact ⟨hf.page hqb, e, he, hu, hcase.imp_right fun hc => ⟨hc.1.trans h1, hend.trans hc.2⟩⟩

theorem beforeStack_original (hm : MemoryMap L es) (h : beforeStack L ram es = .ok (it, s))
    (hq : q ∈ left it ++ s.freePages ++ poolPages s) : Original L es q := by
  obtain ⟨hL, block, rest, hb, h₁, rfl⟩ := beforeStack_ok h
  obtain ⟨lo, hS⟩ := freeBlocks_sorted hL hm hb
  have hflat := flatMap_afterFirst (hS.free block (by simp)) rest
  have hnodup := hS.nodup
  rw [hflat] at hnodup
  obtain ⟨fixed, -, -, ⟨hsp, -, hfree⟩, -⟩ :=
    mapFirst_books hL (fun q hq => hS.page (hflat ▸ hq)) hnodup h₁
  have hpool : poolPages s = [block.addr] := by
    rw [poolPages, hsp, ptPages_first, List.map_singleton, mapFirst_phAddr h₁]
  rw [left_init, hfree, List.append_nil, hpool] at hq
  refine freeBlocks_original hL hm hb ?_
  rw [hflat]
  exact (List.perm_append_singleton _ _).subset hq

/-- The pages that `kernel_init_part2` leaves on the stack and behind the pool. -/
theorem kernelInitPart2_original (hm : MemoryMap L es) (h : kernelInitPart2 L ram es = .ok s)
    (hq : q ∈ pages s) : Original L es q := by
  obtain ⟨fixed₂, hF₂, -⟩ := kernelInitPart2_filled hm h
  rw [kernelInitPart2_eq] at h
  obtain ⟨⟨it, s₁⟩, h₁, h⟩ := bind_ok.mp h
  obtain ⟨s₂, h₂, h⟩ := bind_ok.mp h
  obtain ⟨hL, hfree, fixed, hF, -⟩ := beforeStack_filling hm h₁
  have ho := hF.origin (stackRoom_le hL hfree) h₂
  cases h
  rw [hF₂.pages_eq] at hq
  exact beforeStack_original hm h₁ (ho hq)

/-- No call adds a page. -/
theorem run_original (hm : MemoryMap L es) (h₀ : kernelInitPart2 L ram es = .ok s₀)
    (h : Run Step s₀ cs s) (hq : q ∈ pages s) : Original L es q := by
  obtain ⟨fixed, hF, hmin⟩ := kernelInitPart2_filled hm h₀
  obtain ⟨-, -, lost, hp⟩ := run_pages (hF.good hmin) h
  exact kernelInitPart2_original hm h₀ (hp.subset (List.mem_append_right _ hq))

end MyosIo.Mm
