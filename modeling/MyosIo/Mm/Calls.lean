import MyosIo.Mm.Budget

/-! What mapping a range and rolling it back do to the books and to the targets of the pages of
[4T, 32T), and when the loop gets to its end. -/
namespace MyosIo.Mm

open Function

variable {L : Layout} {fixed : List (ℕ × ℕ)} {stack stack' stack₁ mapped mapped' new lost : List ℕ}
  {s s' s₁ : State} {v w ph q num addr : ℕ} {isSoft ok : Bool}

/-- What the loop of `alloc_page_lock_routine` leaves: `new` is what it mapped and `lost` what
it popped for pages that were mapped before. -/
structure Allocated (L : Layout) (fixed : List (ℕ × ℕ)) (pages stack stack' : List ℕ)
    (s s' : State) (new lost : List ℕ) (ok : Bool) : Prop where
  books : Books L fixed stack' s'
  perm : (lost ++ held fixed stack' s').Perm (held fixed stack s)
  sub : ∀ v ∈ new, v ∈ pages ∧ target s v = none ∧ target s' v ≠ none
  nodup : new.Nodup
  same : ∀ w, IsUser w → w ∉ new → target s' w = target s w
  all : ok = true → ∀ v ∈ pages, target s' v ≠ none
  sp : s'.ptPagesSp ≤ s.ptPagesSp
  min : s'.ptPagesSpMin = s.ptPagesSpMin
  freePages : s'.freePages = s.freePages
  granted : ok = true ↔ Affords s stack.length pages
  wasted : lost ≠ [] ↔ ReachesMapped s stack.length pages

theorem Allocated.stop {pages : List ℕ} (hB : Books L fixed stack s)
    (ha : ¬ Affords s stack.length pages) (hw : ¬ ReachesMapped s stack.length pages) :
    Allocated L fixed pages stack stack s s [] [] false :=
  ⟨hB, by rw [List.nil_append], by simp, List.nodup_nil, fun _ _ _ => rfl, by simp, le_rfl, rfl,
    rfl, iff_of_false (by simp) ha, iff_of_false (by simp) hw⟩

/-- A page that was mapped before costs the page popped for it. -/
theorem Allocated.already (hA : Allocated L fixed (rangePages num (addr + 0x200000)) stack stack'
    s s' new lost ok) (hr : UserRange addr (num + 1)) (ht : target s addr ≠ none)
    (hS : Spent s addr stack stack s) (hB : Books L fixed stack s) :
    Allocated L fixed (rangePages (num + 1) addr) (ph :: stack) stack' s s' new (ph :: lost)
      ok := by
  have hv := hr.head
  have hm : ptIsMap s addr = true := by
    rw [ptIsMap_eq]
    exact Option.isSome_iff_ne_none.mpr ht
  have hperm : (ph :: lost ++ held fixed stack' s').Perm (held fixed (ph :: stack) s) := by
    rw [held_cons]
    exact hA.perm.cons ph
  refine ⟨hA.books, hperm, ?_, hA.nodup, hA.same, ?_, hA.sp, hA.min, hA.freePages,
    hA.granted.trans (hS.affords hv (fun w hw => hr.tail.mem hw) hB.spLe).symm,
    iff_of_true (by simp) (reachesMapped_of_head hB.num hm)⟩
  · intro v hv'
    obtain ⟨h1, h2, h3⟩ := hA.sub v hv'
    exact ⟨List.mem_cons_of_mem _ h1, h2, h3⟩
  · intro hok v hm
    rcases List.mem_cons.mp hm with rfl | hm
    · rwa [hA.same _ hv fun hn => ht (hA.sub _ hn).2.1]
    · exact hA.all hok v hm

/-- A page is mapped and the loop goes on. -/
theorem Allocated.cons (hA : Allocated L fixed (rangePages num (addr + 0x200000)) stack₁ stack'
    s₁ s' new lost ok) (hr : UserRange addr (num + 1)) (ht : target s addr = none)
    (ht' : target s₁ addr = some ph) (hF : Frame s s₁ addr)
    (hp : (held fixed stack₁ s₁).Perm (held fixed (ph :: stack) s))
    (hS : Spent s addr stack stack₁ s₁) (hsp : s.ptPagesSp ≤ firstPtPageVAddr) :
    Allocated L fixed (rangePages (num + 1) addr) (ph :: stack) stack' s s' (new ++ [addr]) lost
      ok := by
  have hv := hr.head
  have hnot : addr ∉ rangePages num (addr + 0x200000) := fun hm => by
    have := mem_rangePages_ge hm
    omega
  have hadd : addr ∉ new := fun hn => hnot (hA.sub addr hn).1
  have hend : target s' addr ≠ none := by simp [hA.same _ hv hadd, ht']
  have hu : ∀ w ∈ rangePages num (addr + 0x200000), IsUser w := fun w hw => hr.tail.mem hw
  refine ⟨hA.books, hA.perm.trans hp, ?_, ?_, ?_, ?_, Nat.le_trans hA.sp hF.sp,
    hA.min.trans hF.min, hA.freePages.trans hF.freePages,
    hA.granted.trans (hS.affords hv hu hsp).symm,
    hA.wasted.trans (hS.reachesMapped hv hu hsp ?_ fun w hw => ?_).symm⟩
  · intro v hm
    rcases List.mem_append.mp hm with hm | hm
    · obtain ⟨h1, h2, h3⟩ := hA.sub v hm
      rw [hF.same v (hr.tail.mem h1) fun he => hnot (he ▸ h1)] at h2
      exact ⟨List.mem_cons_of_mem _ h1, h2, h3⟩
    · obtain rfl := List.mem_singleton.mp hm
      exact ⟨by simp [rangePages], ht, hend⟩
  · exact hA.nodup.append (List.nodup_singleton addr) (List.disjoint_singleton.mpr hadd)
  · intro w hw hm
    simp only [List.mem_append, List.mem_singleton, not_or] at hm
    rw [hA.same w hw hm.1, hF.same w hw hm.2]
  · intro hok v hm
    rcases List.mem_cons.mp hm with rfl | hm
    · exact hend
    · exact hA.all hok v hm
  · rw [ptIsMap_eq, ht]
    rfl
  · rw [ptIsMap_eq, ptIsMap_eq, hF.same w (hu w hw) fun he => hnot (he ▸ hw)]

theorem allocPages_succ {ret : ℤ}
    (h : ptTryMap getFreePageGeneric stack s ph addr isSoft = .ok (ret, stack₁, s₁)) :
    allocPages isSoft (num + 1) addr (ph :: stack) mapped s =
      if ret < 0 then .ok (false, ph :: stack₁, mapped, s₁)
      else if ret = 0 then allocPages isSoft num (addr + 0x200000) stack₁ (addr :: mapped) s₁
      else allocPages isSoft num (addr + 0x200000) stack₁ mapped s₁ := by
  rw [allocPages, h]
  rfl

theorem Books.allocPages (hB : Books L fixed stack s) (hmin : 0 < s.ptPagesSpMin)
    (hr : UserRange addr num)
    (h : allocPages isSoft num addr stack mapped s = .ok (ok, stack', mapped', s')) :
    ∃ new lost, mapped' = new ++ mapped ∧
      Allocated L fixed (rangePages num addr) stack stack' s s' new lost ok ∧
      (isSoft = false → lost = []) := by
  induction num generalizing addr stack mapped s with
  | zero =>
    cases h
    exact ⟨[], [], rfl, ⟨hB, by rw [List.nil_append], by simp, List.nodup_nil, fun _ _ _ => rfl,
      by simp [rangePages], le_rfl, rfl, rfl, iff_of_true rfl (affords_nil hB.num),
      iff_of_false (by simp) ReachesMapped.nil⟩, fun _ => rfl⟩
  | succ num ih =>
    cases stack with
    | nil =>
      cases h
      exact ⟨[], [], rfl, .stop hB (not_affords_of_lt (Nat.succ_pos _)) ReachesMapped.empty,
        fun _ => rfl⟩
    | cons ph stack =>
      obtain ⟨⟨ret, stack₁, s₁⟩, h₁, hk⟩ := bind_ok.mp h
      have hv := hr.head
      have hS := hB.tryMap_spent hmin hv h₁
      rcases hB.tryMapUser (source_generic stack) hmin hv h₁ with
        ⟨rfl, hsoft, ht, rfl, rfl⟩ | ⟨rfl, ht, hst, rfl⟩ | ⟨rfl, ht, ht', hF, hB₁, hp₁⟩
      · replace hk : allocPages isSoft num (addr + 0x200000) stack₁ mapped s₁ =
            .ok (ok, stack', mapped', s') := by simpa using hk
        obtain ⟨-, hS⟩ := hS.resolve_left fun h => absurd h.1 (by decide)
        obtain ⟨new, lost, hnew, hA, -⟩ := ih hB.drop hmin hr.tail hk
        exact ⟨new, ph :: lost, hnew, hA.already hr ht hS hB.drop, by simp [hsoft]⟩
      · obtain rfl : stack₁ = stack := hst
        cases hk
        obtain ⟨-, hS⟩ := hS.resolve_right fun h => absurd h.1 (by decide)
        exact ⟨[], [], rfl, .stop hB hS.not_affords hS.not_reachesMapped, fun _ => rfl⟩
      · replace hk : allocPages isSoft num (addr + 0x200000) stack₁ (addr :: mapped) s₁ =
            .ok (ok, stack', mapped', s') := by simpa using hk
        obtain ⟨-, hS⟩ := hS.resolve_left fun h => absurd h.1 (by decide)
        obtain ⟨new, lost, hnew, hA, hhard⟩ := ih hB₁ (hF.min ▸ hmin) hr.tail hk
        exact ⟨new ++ [addr], lost, by rw [hnew]; simp, hA.cons hr ht ht' hF hp₁ hS hB.spLe,
          hhard⟩

end MyosIo.Mm
