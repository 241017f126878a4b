import MyosIo.Mm.Books

/-! What `pt_try_map` and `pt_unmap` do to the books and to the targets of the pages of [4T, 32T),
and what unmapping a range does. -/
namespace MyosIo.Mm

open Function

variable {L : Layout} {fixed : List (ℕ × ℕ)} {stack stack' mapped : List ℕ} {s s' s₁ : State}
  {v w ph q num addr : ℕ} {isSoft : Bool}

/-- The pages that a hook still has to hand out, next to its argument. -/
structure Source {σ : Type} (hook : σ → Option ℕ × σ) (src : σ → List ℕ) (parm : σ) : Prop where
  some : ∀ q parm', hook parm = (some q, parm') → src parm = q :: src parm'
  none : ∀ parm', hook parm = (none, parm') → src parm' = src parm

theorem source_generic (stack : List ℕ) : Source getFreePageGeneric id stack where
  some q stack' he := by
    cases stack with
    | nil => simp [getFreePageGeneric] at he
    | cons page stack =>
      obtain ⟨rfl, rfl⟩ : page = q ∧ stack = stack' := by simpa [getFreePageGeneric] using he
      rfl
  none stack' he := by
    cases stack with
    | nil => simpa [getFreePageGeneric] using he.symm
    | cons page stack => simp [getFreePageGeneric] at he

/-- The pool may have grown by one page; the pages of [4T, 32T) are as they were. -/
structure Ready (L : Layout) (fixed : List (ℕ × ℕ)) (stack stack' : List ℕ) (s s' : State) :
    Prop where
  books : Books L fixed stack' s'
  perm : (held fixed stack' s').Perm (held fixed stack s)
  same : ∀ w, IsUser w → target s' w = target s w
  sp : s'.ptPagesSp ≤ s.ptPagesSp ∧ s.ptPagesSp ≤ s'.ptPagesSp + 0x200000
  min : s'.ptPagesSpMin = s.ptPagesSpMin
  freePages : s'.freePages = s.freePages

theorem Ready.refl (hB : Books L fixed stack s) : Ready L fixed stack stack s s :=
  ⟨hB, .refl _, fun _ _ => rfl, ⟨le_rfl, Nat.le_add_right _ _⟩, rfl, rfl⟩

/-- The page just below the pool, where the next `PT_Page` goes. -/
theorem Books.fresh (hB : Books L fixed stack s) (hr : 0x200000 ≤ s.ptPagesSp) (h0 : 0 < w)
    (hw : s.ptPagesSp - 0x200000 = w) : Fresh L (ptPages s.ptPagesSp) s w := by
  have hmod := hB.spMod
  have hle := hB.spLe
  unfold firstPtPageVAddr at hle
  refine ⟨fun hm => ?_, by omega, by omega, by omega, fun hl => ?_⟩
  · have := ((mem_ptPages hmod).mp hm).2.1
    omega
  · have := target_eq_none.mpr hl
    simp [(hB.fixedAt _ _ hB.null).2.2] at this

theorem Grown.ready (hB : Books L fixed (q :: stack) s) (hw : s.ptPagesSp - 0x200000 = w)
    (hsp : 0x200000 ≤ s.ptPagesSp)
    (hG : Grown L (ptPages s.ptPagesSp) { s with ptPagesSp := w } s' w q) :
    Ready L fixed (q :: stack) stack s s' ∧ ptPages s'.ptPagesSp = w :: ptPages s.ptPagesSp := by
  obtain ⟨hB', hperm, hu⟩ := hB.grown hw hsp hG
  have hsp' : s'.ptPagesSp = w := hG.sp.1
  have hcons := ptPages_cons hsp hB.spLe
  rw [hw] at hcons
  refine ⟨⟨hB', hperm, hu, by omega, hG.sp.2, hG.freePages⟩, ?_⟩
  rw [hsp', hcons]

/-- `pt_try_map` at a page, `ph` being the first of the free pages. -/
theorem Books.tryMap {σ : Type} {hook : σ → Option ℕ × σ} {src : σ → List ℕ} {parm parm' : σ}
    {ret : ℤ} (hB : Books L fixed (ph :: src parm) s) (hS : Source hook src parm)
    (hv : v < 2 ^ 45)
    (hfar : ∀ w, s.ptPagesSpMin + 0x200000 ≤ s.ptPagesSp → s.ptPagesSp - 0x200000 = w →
      0 < w ∧ ¬ (i1 v = i1 w ∧ i2 v = i2 w))
    (h : ptTryMap hook parm s ph v isSoft = .ok (ret, parm', s')) :
    (ret = 1 ∧ isSoft = true ∧ target s v ≠ none ∧ parm' = parm ∧ s' = s) ∨
    (ret = -1 ∧ target s v = none ∧ src parm' = src parm ∧ s' = s) ∨
    (ret = 0 ∧ ∃ s₁, Ready L fixed (ph :: src parm) (ph :: src parm') s s₁ ∧
      Mapped L (ptPages s₁.ptPagesSp) s₁ s' v ph ∧ 1 ≤ s'.freePtsNum) := by
  have hq : ∀ q parm', hook parm = (some q, parm') → q % 0x200000 = 0 := fun q parm' hh =>
    hB.stackMod q (by simp [hS.some _ _ hh])
  have hT := hB.pt.tryMap hB.num h hv hB.ph_mod hq fun w hr hw =>
    ⟨hB.fresh (Nat.le_trans (Nat.le_add_left _ _) hr) (hfar w hr hw).1 hw, (hfar w hr hw).2⟩
  cases hT with
  | already hs hl => exact Or.inl ⟨rfl, hs, fun hn => hl (target_eq_none.mp hn), rfl, rfl⟩
  | noRoom h0 => exact Or.inr (Or.inl ⟨rfl, target_eq_none.mpr (entry_of_zero h0), rfl, rfl⟩)
  | noPage hh h0 =>
    exact Or.inr (Or.inl ⟨rfl, target_eq_none.mpr (entry_of_zero h0), hS.none _ hh, rfl⟩)
  | mapped hM hn => exact Or.inr (Or.inr ⟨rfl, s, .refl hB, hM, hn⟩)
  | @grown parm' q w s₁ s' hh h0 h1 hr hw hG hM hn =>
    have hsrc := hS.some _ _ hh
    have hswap : (ph :: src parm).Perm (q :: ph :: src parm') := by
      rw [hsrc]
      exact List.Perm.swap q ph _
    obtain ⟨hR, hpool⟩ := hG.ready (hB.perm hswap) hw (Nat.le_trans (Nat.le_add_left _ _) hr)
    rw [← hpool] at hM
    exact Or.inr (Or.inr ⟨rfl, s₁, { hR with perm := hR.perm.trans (held_perm hswap).symm }, hM,
      hn⟩)

/-- A step that leaves the pages of [4T, 32T) other than `v` alone. -/
structure Frame (s s' : State) (v : ℕ) : Prop where
  same : ∀ w, IsUser w → w ≠ v → target s' w = target s w
  sp : s'.ptPagesSp ≤ s.ptPagesSp
  min : s'.ptPagesSpMin = s.ptPagesSpMin
  freePages : s'.freePages = s.freePages

/-- A page of [4T, 32T) and the next page of the pool lie in different gibibytes. -/
theorem Books.far (hB : Books L fixed stack s) (hmin : 0 < s.ptPagesSpMin) (hv : IsUser v)
    (hr : s.ptPagesSpMin + 0x200000 ≤ s.ptPagesSp) (hw : s.ptPagesSp - 0x200000 = w) :
    0 < w ∧ ¬ (i1 v = i1 w ∧ i2 v = i2 w) := by
  have hle := hB.spLe
  have hge := hv.ge
  have hlt := hv.lt
  unfold firstPtPageVAddr at hle
  refine ⟨by omega, fun hi => ?_⟩
  have h1 := hi.1
  unfold i1 at h1
  omega

/-- `pt_try_map` at a page of [4T, 32T). -/
theorem Books.tryMapUser {σ : Type} {hook : σ → Option ℕ × σ} {src : σ → List ℕ} {parm parm' : σ}
    {ret : ℤ} (hB : Books L fixed (ph :: src parm) s) (hS : Source hook src parm)
    (hmin : 0 < s.ptPagesSpMin) (hv : IsUser v)
    (h : ptTryMap hook parm s ph v isSoft = .ok (ret, parm', s')) :
    (ret = 1 ∧ isSoft = true ∧ target s v ≠ none ∧ parm' = parm ∧ s' = s) ∨
    (ret = -1 ∧ target s v = none ∧ src parm' = src parm ∧ s' = s) ∨
    (ret = 0 ∧ target s v = none ∧ target s' v = some ph ∧ Frame s s' v ∧
      Books L fixed (src parm') s' ∧
      (held fixed (src parm') s').Perm (held fixed (ph :: src parm) s)) := by
  rcases hB.tryMap hS hv.lt45 (fun w hr hw => hB.far hmin hv hr hw) h with
    h | h | ⟨rfl, s₁, hR, hM, hn⟩
  · exact Or.inl h
  · exact Or.inr (Or.inl h)
  · obtain ⟨hB', hperm⟩ := hR.books.mapped hM hn hv
    refine Or.inr (Or.inr ⟨rfl, ?_, hM.sets.target_self hB.ph_mod, ⟨?_, ?_, ?_, ?_⟩, hB',
      hperm.trans hR.perm⟩)
    · rw [← hR.same v hv, target_eq_none]
      exact hM.was
    · intro w hw hne
      rw [hM.sets.target_ne hv.mod hv.lt45 hw.mod hw.lt45 hne, hR.same w hw]
    · exact hM.sp.1.le.trans hR.sp.1
    · exact hM.sp.2.trans hR.min
    · exact hM.freePages.trans hR.freePages

theorem Books.ptUnmap (hB : Books L fixed stack s) (hv : IsUser v)
    (h : ptUnmap s v = .ok (ph, s')) :
    target s v = some ph ∧ target s' v = none ∧ Frame s s' v ∧ Books L fixed (ph :: stack) s' ∧
      (held fixed (ph :: stack) s').Perm (held fixed stack s) := by
  have hlt := hv.lt
  have hge := hv.ge
  have hU := hB.pt.unmap h (by unfold i1; omega)
  obtain ⟨hB', hperm⟩ := hB.unmapped hU hv
  refine ⟨target_eq_some hU.was hU.mod, hU.sets.target_none, ⟨?_, ?_, ?_, ?_⟩, hB', hperm⟩
  · intro w hw hne
    exact hU.sets.target_ne hv.mod hv.lt45 hw.mod hw.lt45 hne
  · exact hU.sp.1.le
  · exact hU.sp.2
  · exact hU.freePages

/-- The `num` pages from `addr` on. -/
def rangePages : ℕ → ℕ → List ℕ
  | 0, _ => []
  | num + 1, addr => addr :: rangePages num (addr + 0x200000)

/-- A range the checks admit. -/
structure UserRange (addr num : ℕ) : Prop where
  mod : addr % 0x200000 = 0
  ge : 0x40000000000 ≤ addr
  le : addr + num * 0x200000 ≤ 0x200000000000

theorem UserRange.tail (h : UserRange addr (num + 1)) : UserRange (addr + 0x200000) num := by
  obtain ⟨h1, h2, h3⟩ := h
  exact ⟨by omega, by omega, by omega⟩

theorem UserRange.head (h : UserRange addr (num + 1)) : IsUser addr := by
  obtain ⟨h1, h2, h3⟩ := h
  exact ⟨h1, h2, by omega⟩

theorem mem_rangePages_ge (h : v ∈ rangePages num addr) : addr ≤ v := by
  induction num generalizing addr with
  | zero => simp [rangePages] at h
  | succ num ih =>
    rcases List.mem_cons.mp h with rfl | h
    · exact le_rfl
    · have := ih h
      omega

theorem length_rangePages (num addr : ℕ) : (rangePages num addr).length = num := by
  induction num generalizing addr with
  | zero => rfl
  | succ num ih => rw [rangePages, List.length_cons, ih]

theorem rangePages_nodup (num addr : ℕ) : (rangePages num addr).Nodup := by
  induction num generalizing addr with
  | zero => exact List.nodup_nil
  | succ num ih =>
    refine List.nodup_cons.mpr ⟨fun h => ?_, ih _⟩
    have := mem_rangePages_ge h
    omega

theorem UserRange.mem (h : UserRange addr num) (hv : v ∈ rangePages num addr) : IsUser v := by
  induction num generalizing addr with
  | zero => simp [rangePages] at hv
  | succ num ih =>
    rcases List.mem_cons.mp hv with rfl | hv
    · exact h.head
    · exact ih h.tail hv

theorem mem_rangePages (h : addr % 0x200000 = 0) :
    v ∈ rangePages num addr ↔ v % 0x200000 = 0 ∧ addr ≤ v ∧ v < addr + num * 0x200000 := by
  induction num generalizing addr with
  | zero =>
    simp only [rangePages, List.not_mem_nil, false_iff]
    omega
  | succ num ih =>
    rw [rangePages, List.mem_cons, ih (by omega)]
    omega

/-- What unmapping a list of pages leaves. -/
structure Freed (L : Layout) (fixed : List (ℕ × ℕ)) (pages stack stack' : List ℕ)
    (s s' : State) : Prop where
  books : Books L fixed stack' s'
  perm : (held fixed stack' s').Perm (held fixed stack s)
  gone : ∀ v ∈ pages, target s' v = none
  same : ∀ w, IsUser w → w ∉ pages → target s' w = target s w
  pushed : stack' = (pages.filterMap (target s)).reverse ++ stack
  was : ∀ v ∈ pages, target s v ≠ none
  sp : s'.ptPagesSp ≤ s.ptPagesSp
  min : s'.ptPagesSpMin = s.ptPagesSpMin

theorem Books.unmapPages (hB : Books L fixed stack s) (hn : mapped.Nodup)
    (hu : ∀ v ∈ mapped, IsUser v) (h : unmapPages mapped stack s = .ok (stack', s')) :
    Freed L fixed mapped stack stack' s s' := by
  induction mapped generalizing stack s with
  | nil =>
    cases h
    exact ⟨hB, .refl _, by simp, fun _ _ _ => rfl, rfl, by simp, le_rfl, rfl⟩
  | cons v mapped ih =>
    obtain ⟨⟨ph, s₁⟩, h₁, h⟩ := bind_ok.mp h
    obtain ⟨hvm, hn⟩ := List.nodup_cons.mp hn
    have hv := hu v (by simp)
    have hu' : ∀ w ∈ mapped, IsUser w := fun w hw => hu w (List.mem_cons_of_mem v hw)
    obtain ⟨ht, ht', hF, hB₁, hp₁⟩ := hB.ptUnmap hv h₁
    have hR := ih hB₁ hn hu' h
    have hsame : ∀ w ∈ mapped, target s₁ w = target s w := fun w hw =>
      hF.same w (hu' w hw) fun he => hvm (he ▸ hw)
    refine ⟨hR.books, hR.perm.trans hp₁, ?_, ?_, ?_, ?_, ?_, hR.min.trans hF.min⟩
    · intro w hw
      rcases List.mem_cons.mp hw with rfl | hw
      · rw [hR.same _ hv hvm, ht']
      · exact hR.gone w hw
    · intro w hw hnot
      simp only [List.mem_cons, not_or] at hnot
      rw [hR.same w hw hnot.2, hF.same w hw hnot.1]
    · rw [hR.pushed, List.filterMap_congr hsame]
      simp [ht]
    · intro w hw
      rcases List.mem_cons.mp hw with rfl | hw
      · simp [ht]
      · rw [← hsame w hw]
        exact hR.was w hw
    · exact Nat.le_trans hR.sp hF.sp

theorem freePagesLoop_eq (num v : ℕ) (stack : List ℕ) (s : State) :
    freePagesLoop num v stack s = unmapPages (rangePages num v) stack s := by
  induction num generalizing v stack s with
  | zero => rfl
  | succ num ih =>
    unfold freePagesLoop rangePages unmapPages
    simp only [ih]

theorem ptIsMap_eq (s : State) (v : ℕ) : ptIsMap s v = (target s v).isSome := by
  unfold ptIsMap target lookup entry
  simp only
  split <;> split <;> simp_all

end MyosIo.Mm
