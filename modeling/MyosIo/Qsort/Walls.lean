import MyosIo.Lib.Rearranged
import MyosIo.Qsort.Model

/-! The pivot stops both scans, so `left_ptr` and `right_ptr` stay between `lo` and `hi`. -/
namespace MyosIo.Qsort

open Function

variable {α : Type} {cmp : α → α → ℤ} {n : ℕ} {a b c : ℤ → α} {i j k lo hi mid left right : ℤ}
  {x y z : α}

/-- `x` may stand before `y`. -/
def Below (cmp : α → α → ℤ) (x y : α) : Prop := 0 ≤ cmp y x

/-- What the standard asks of the function given to `qsort`. -/
structure Consistent (cmp : α → α → ℤ) : Prop where
  total : ∀ x y, cmp x y < 0 → Below cmp x y
  trans : ∀ x y z, Below cmp x y → Below cmp y z → Below cmp x z

theorem below_of_not_less (h : ¬ cmp x y < 0) : Below cmp y x := Int.not_lt.mp h

theorem Consistent.refl (hc : Consistent cmp) (x : α) : Below cmp x x := by
  by_contra h
  exact h (hc.total x x (Int.not_le.mp h))

theorem less_eq (hi : Inside n i) (hj : Inside n j) :
    less cmp n a i j = some (decide (cmp (a i) (a j) < 0)) := if_pos ⟨hi, hj⟩

theorem swap_eq (hi : Inside n i) (hj : Inside n j) :
    swap n a i j = some (update (update a i (a j)) j (a i)) := if_pos ⟨hi, hj⟩

/-- What a swap does to the array. -/
theorem swap_spec (hi : Inside n i) (hj : Inside n j) :
    ∃ b, swap n a i j = some b ∧ b i = a j ∧ b j = a i ∧
      (∀ k, k ≠ i → k ≠ j → b k = a k) ∧
      ∀ lo hi, lo ≤ i → i ≤ hi → lo ≤ j → j ≤ hi → Rearranged lo hi a b := by
  refine ⟨_, swap_eq hi hj, ?_, update_self .., fun k hki hkj => ?_, fun lo hi h₁ h₂ h₃ h₄ => ?_⟩
  · by_cases hij : i = j
    · rw [hij, update_self]
    · rw [update_of_ne hij, update_self]
  · rw [update_of_ne hkj, update_of_ne hki]
  · exact .swap ⟨h₁, h₂⟩ ⟨h₃, h₄⟩

theorem scanLeft_spec (hmid : Inside n mid) (h : 0 ≤ left) (hk : left ≤ k ∧ k < n)
    (hstop : ¬ cmp (a k) (a mid) < 0) {fuel : ℕ} (hf : k - left < fuel) :
    ∃ l, scanLeft cmp n a mid fuel left = some l ∧ left ≤ l ∧ l ≤ k ∧
      ¬ cmp (a l) (a mid) < 0 ∧ ∀ i, left ≤ i → i < l → cmp (a i) (a mid) < 0 := by
  induction fuel generalizing left with
  | zero => omega
  | succ fuel ih =>
    rw [scanLeft, less_eq ⟨h, by omega⟩ hmid]
    by_cases hless : cmp (a left) (a mid) < 0
    · have hne : left ≠ k := by
        rintro rfl
        exact hstop hless
      obtain ⟨l, hl, hle, hlk, hnot, hall⟩ :=
        ih (show 0 ≤ left + 1 by omega) (by omega) (by omega)
      refine ⟨l, by simpa [hless] using hl, by omega, hlk, hnot, fun i h₁ h₂ => ?_⟩
      by_cases hi : i = left
      · exact hi ▸ hless
      · exact hall i (by omega) h₂
    · exact ⟨left, by simp [hless], Int.le_refl _, hk.1, hless, fun i _ _ => by omega⟩

theorem scanRight_spec (hmid : Inside n mid) (h : right < n) (hk : 0 ≤ k ∧ k ≤ right)
    (hstop : ¬ cmp (a mid) (a k) < 0) {fuel : ℕ} (hf : right - k < fuel) :
    ∃ r, scanRight cmp n a mid fuel right = some r ∧ k ≤ r ∧ r ≤ right ∧
      ¬ cmp (a mid) (a r) < 0 ∧ ∀ i, r < i → i ≤ right → cmp (a mid) (a i) < 0 := by
  induction fuel generalizing right with
  | zero => omega
  | succ fuel ih =>
    rw [scanRight, less_eq hmid ⟨by omega, h⟩]
    by_cases hless : cmp (a mid) (a right) < 0
    · have hne : right ≠ k := by
        rintro rfl
        exact hstop hless
      obtain ⟨r, hr, hle, hrk, hnot, hall⟩ :=
        ih (show right - 1 < n by omega) (by omega) (by omega)
      refine ⟨r, by simpa [hless] using hr, hle, by omega, hnot, fun i h₁ h₂ => ?_⟩
      by_cases hi : i = right
      · exact hi ▸ hless
      · exact hall i h₁ (by omega)
    · exact ⟨right, by simp [hless], hk.2, Int.le_refl _, hless, fun i _ _ => by omega⟩

/-- Up to `left` no element is above the pivot, and from `right` on none is below it. -/
structure Walled (cmp : α → α → ℤ) (lo hi left right : ℤ) (pivot : α) (a : ℤ → α) : Prop where
  low : ∀ k, lo ≤ k → k < left → Below cmp (a k) pivot
  high : ∀ k, right < k → k ≤ hi → Below cmp pivot (a k)

/-- What `qsort` gets from a partition. -/
structure Parted (cmp : α → α → ℤ) (lo hi : ℤ) (a : ℤ → α) (w : Walls α) : Prop where
  cells : Rearranged lo hi a w.array
  walled : ∃ pivot, Walled cmp lo hi w.left w.right pivot w.array
  crossed : w.right < w.left
  right : lo ≤ w.right
  left : w.left ≤ hi

/-- The walls after the scans. -/
structure Scanned (cmp : α → α → ℤ) (lo hi mid left right : ℤ) (a : ℤ → α) : Prop where
  walled : Walled cmp lo hi left right (a mid) a
  left_ge : Below cmp (a mid) (a left)
  right_le : Below cmp (a right) (a mid)
  lo_lt : lo < left
  left_le : left ≤ hi
  right_ge : left - 1 ≤ right
  right_lt : right < hi

/-- Both scans stop, and they stop without passing each other by more than a step. -/
theorem scans (hc : Consistent cmp) (hlo : 0 ≤ lo) (hhi : hi < n) (hmid : lo ≤ mid ∧ mid ≤ hi)
    (hw : Walled cmp lo hi left right (a mid) a) (hl : lo < left) (hlr : left ≤ right)
    (hr : right < hi) :
    ∃ l r, scanLeft cmp n a mid (n + 1) left = some l ∧
      scanRight cmp n a mid (n + 1) right = some r ∧ left ≤ l ∧ r ≤ right ∧
      Scanned cmp lo hi mid l r a := by
  have hin : Inside n mid := ⟨by omega, by omega⟩
  obtain ⟨l, hscan, hle, hlk, hnot, hbelow⟩ :=
    scanLeft_spec hin (show 0 ≤ left by omega) (show left ≤ right + 1 ∧ right + 1 < n by omega)
      (Int.not_lt.mpr (hw.high (right + 1) (by omega) (by omega)))
      (show right + 1 - left < (n + 1 : ℕ) by omega)
  have hw' : ∀ k, lo ≤ k → k < l → Below cmp (a k) (a mid) := by
    intro k h₁ h₂
    by_cases hk : k < left
    · exact hw.low k h₁ hk
    · exact hc.total _ _ (hbelow k (by omega) h₂)
  have hstop : ¬ cmp (a mid) (a (l - 1)) < 0 :=
    Int.not_lt.mpr (hw' (l - 1) (by omega) (by omega))
  obtain ⟨r, hscan', hge, hrk, hnot', habove⟩ :=
    scanRight_spec hin (show right < n by omega) (show 0 ≤ l - 1 ∧ l - 1 ≤ right by omega) hstop
      (show right - (l - 1) < (n + 1 : ℕ) by omega)
  refine ⟨l, r, hscan, hscan', hle, hrk, ⟨hw', fun k h₁ h₂ => ?_⟩, below_of_not_less hnot,
    below_of_not_less hnot', by omega, by omega, hge, by omega⟩
  by_cases hk : right < k
  · exact hw.high k hk h₂
  · exact hc.total _ _ (habove k h₁ (by omega))

/-- Swapping the elements at the walls moves both walls by one. -/
theorem Scanned.swap (hs : Scanned cmp lo hi mid left right a) (hlr : left < right)
    (hlo : 0 ≤ lo) (hhi : hi < n) :
    ∃ b, swap n a left right = some b ∧ Rearranged lo hi a b ∧
      b (follow mid left right) = a mid ∧
      Walled cmp lo hi (left + 1) (right - 1) (a mid) b := by
  have hll := hs.lo_lt
  have hlh := hs.left_le
  have hrh := hs.right_lt
  obtain ⟨b, hb, hleft, hright, hothers, hcells⟩ :=
    swap_spec (a := a) (n := n) (i := left) (j := right) ⟨by omega, by omega⟩
      ⟨by omega, by omega⟩
  refine ⟨b, hb, hcells lo hi (by omega) (by omega) (by omega) (by omega), ?_, fun k h₁ h₂ => ?_,
    fun k h₁ h₂ => ?_⟩
  · unfold follow
    split_ifs with h₁ h₂
    · rw [hright, h₁]
    · rw [hleft, h₂]
    · exact hothers mid h₁ h₂
  · by_cases hk : k = left
    · rw [hk, hleft]
      exact hs.right_le
    · rw [hothers k hk (by omega)]
      exact hs.walled.low k h₁ (by omega)
  · by_cases hk : k = right
    · rw [hk, hright]
      exact hs.left_ge
    · rw [hothers k (by omega) hk]
      exact hs.walled.high k (by omega) h₂

theorem Walled.meet (hs : Scanned cmp lo hi mid left left a) :
    Walled cmp lo hi (left + 1) (left - 1) (a mid) a where
  low k h₁ h₂ := by
    by_cases hk : k = left
    · exact hk ▸ hs.right_le
    · exact hs.walled.low k h₁ (by omega)
  high k h₁ h₂ := by
    by_cases hk : k = left
    · exact hk ▸ hs.left_ge
    · exact hs.walled.high k (by omega) h₂

theorem Parted.of_rearranged {w : Walls α} (h : Parted cmp lo hi b w)
    (hab : Rearranged lo hi a b) : Parted cmp lo hi a w :=
  { h with cells := hab.trans h.cells }

theorem collapseWalls_spec (hc : Consistent cmp) (hlo : 0 ≤ lo) (hhi : hi < n)
    (hmid : lo ≤ mid ∧ mid ≤ hi) (hw : Walled cmp lo hi left right (a mid) a) (hl : lo < left)
    (hlr : left ≤ right) (hr : right < hi) {fuel : ℕ} (hf : right - left < fuel) :
    ∃ w, collapseWalls cmp n fuel a mid left right = some w ∧ Parted cmp lo hi a w := by
  induction fuel generalizing a mid left right with
  | zero => omega
  | succ fuel ih =>
    obtain ⟨l, r, hscan, hscan', hle, hge, hs⟩ := scans hc hlo hhi hmid hw hl hlr hr
    have hll := hs.lo_lt
    have hlh := hs.left_le
    have hrl := hs.right_ge
    have hrh := hs.right_lt
    rw [collapseWalls, hscan, hscan']
    dsimp only [bind, Option.bind]
    by_cases hlt : l < r
    · obtain ⟨b, hb, hcells, hpivot, hw⟩ := hs.swap hlt hlo hhi
      rw [if_pos hlt, hb]
      dsimp only
      rw [← hpivot] at hw
      have hfollow : lo ≤ follow mid l r ∧ follow mid l r ≤ hi := by
        unfold follow
        split_ifs <;> omega
      split_ifs with hagain
      · obtain ⟨w, hrun, hparted⟩ :=
          ih hfollow hw (by omega) hagain (by omega) (by omega)
        exact ⟨w, hrun, hparted.of_rearranged hcells⟩
      · exact ⟨_, rfl, hcells, ⟨_, hw⟩, by dsimp only; omega, by dsimp only; omega,
          by dsimp only; omega⟩
    · rw [if_neg hlt]
      split_ifs with heq
      · subst heq
        exact ⟨_, rfl, .refl .., ⟨_, Walled.meet hs⟩, by dsimp only; omega, by dsimp only; omega,
          by dsimp only; omega⟩
      · exact ⟨_, rfl, .refl .., ⟨_, hs.walled⟩, by dsimp only; omega, by dsimp only; omega, hlh⟩

theorem swapIfLess_spec (hc : Consistent cmp) (hi : Inside n i) (hj : Inside n j) (hij : j < i) :
    ∃ b, swapIfLess cmp n a i j = some b ∧ Below cmp (b j) (b i) ∧
      (∀ z, Below cmp (a i) z → Below cmp (a j) z → Below cmp (b i) z) ∧
      (∀ k, k ≠ i → k ≠ j → b k = a k) ∧ Rearranged j i a b := by
  rw [swapIfLess, less_eq hi hj]
  dsimp only [bind, Option.bind]
  by_cases hless : cmp (a i) (a j) < 0
  · obtain ⟨b, hb, hbi, hbj, hothers, hcells⟩ := swap_spec (a := a) hi hj
    refine ⟨b, by simpa [hless] using hb, ?_, fun z _ h => ?_, hothers,
      hcells j i (by omega) (by omega) (by omega) (by omega)⟩
    · rw [hbi, hbj]
      exact hc.total _ _ hless
    · rwa [hbi]
  · exact ⟨a, by simp [hless], below_of_not_less hless, fun _ h _ => h, fun _ _ _ => rfl,
      .refl ..⟩

theorem medianOfThree_spec (hc : Consistent cmp) (hlo : 0 ≤ lo) (hhi : hi < n) (hmid : lo < mid)
    (hmid' : mid < hi) :
    ∃ b, medianOfThree cmp n a lo mid hi = some b ∧ Below cmp (b lo) (b mid) ∧
      Below cmp (b mid) (b hi) ∧ Rearranged lo hi a b := by
  have hinl : Inside n lo := ⟨by omega, by omega⟩
  have hinm : Inside n mid := ⟨by omega, by omega⟩
  have hinh : Inside n hi := ⟨by omega, by omega⟩
  obtain ⟨b, hb, hle, -, -, hcells⟩ := swapIfLess_spec (a := a) hc hinm hinl hmid
  have hcells : Rearranged lo hi a b := hcells.mono (Int.le_refl lo) (by omega)
  rw [medianOfThree, hb]
  dsimp only [bind, Option.bind]
  rw [less_eq hinh hinm]
  by_cases hless : cmp (b hi) (b mid) < 0
  · -- the largest of the three is at `hi` from here on
    obtain ⟨c, hswap, hcm, hch, hothers, hcells'⟩ := swap_spec (a := b) hinm hinh
    obtain ⟨d, hd, hle', hbound, hothers', hcells''⟩ := swapIfLess_spec (a := c) hc hinm hinl hmid
    refine ⟨d, by simp [hless, hswap, hd], hle', ?_, ?_⟩
    · rw [hothers' hi (by omega) (by omega)]
      refine hbound _ ?_ ?_
      · rw [hcm, hch]
        exact hc.total _ _ hless
      · rwa [hch, hothers lo (by omega) (by omega)]
    · refine (hcells.trans (hcells' lo hi ?_ ?_ ?_ ?_)).trans
        (hcells''.mono (Int.le_refl lo) ?_) <;> omega
  · exact ⟨b, by simp [hless], hle, below_of_not_less hless, hcells⟩

/-- One partition of a range of at least five elements. -/
theorem partition_spec (hc : Consistent cmp) (hlo : 0 ≤ lo) (hhi : hi < n)
    (hsize : lo + maxThresh ≤ hi) :
    ∃ w, partition cmp n a lo hi = some w ∧ Parted cmp lo hi a w := by
  unfold maxThresh at hsize
  have hmid : lo < lo + (hi - lo) / 2 ∧ lo + (hi - lo) / 2 < hi := by omega
  obtain ⟨b, hb, hle, hge, hcells⟩ := medianOfThree_spec (a := a) hc hlo hhi hmid.1 hmid.2
  have hw : Walled cmp lo hi (lo + 1) (hi - 1) (b (lo + (hi - lo) / 2)) b :=
    ⟨fun k _ _ => by rwa [show k = lo by omega], fun k _ _ => by rwa [show k = hi by omega]⟩
  obtain ⟨w, hrun, hparted⟩ := collapseWalls_spec hc hlo hhi
    ⟨Int.le_of_lt hmid.1, Int.le_of_lt hmid.2⟩ hw (by omega) (by omega) (by omega)
    (show hi - 1 - (lo + 1) < (n + 1 : ℕ) by omega)
  refine ⟨w, ?_, hparted.of_rearranged hcells⟩
  rw [partition, hb]
  exact hrun

end MyosIo.Qsort
