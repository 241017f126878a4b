import MyosIo.Qsort.Quick

/-! The least element is put first, where it stops the inner loop. -/
namespace MyosIo.Qsort

open Function

variable {α : Type} {cmp : α → α → ℤ} {n : ℕ} {a b : ℤ → α} {hi run tmp thresh : ℤ} {x : α}
  {xs : List α}

theorem smallest_spec (hc : Consistent cmp) (hthresh : thresh < n) (htmp : 0 ≤ tmp)
    (hlt : tmp < run) (hrun : run ≤ thresh + 1)
    (hmin : ∀ k, 0 ≤ k → k < run → Below cmp (a tmp) (a k)) {fuel : ℕ}
    (hf : thresh + 1 - run < fuel) :
    ∃ t, smallest cmp n a thresh fuel run tmp = some t ∧ 0 ≤ t ∧ t ≤ thresh ∧
      ∀ k, 0 ≤ k → k ≤ thresh → Below cmp (a t) (a k) := by
  induction fuel generalizing run tmp with
  | zero => omega
  | succ fuel ih =>
    rw [smallest]
    by_cases hle : run ≤ thresh
    · rw [if_pos hle, less_eq ⟨by omega, by omega⟩ ⟨htmp, by omega⟩]
      dsimp only [bind, Option.bind]
      simp only [decide_eq_true_eq]
      by_cases hless : cmp (a run) (a tmp) < 0
      · rw [if_pos hless]
        have hle' := hc.total _ _ hless
        refine ih (by omega) (by omega) (by omega) (fun k h₁ h₂ => ?_) (by omega)
        by_cases hk : k = run
        · exact hk ▸ hc.refl _
        · exact hc.trans _ _ _ hle' (hmin k h₁ (by omega))
      · rw [if_neg hless]
        refine ih htmp (by omega) (by omega) (fun k h₁ h₂ => ?_) (by omega)
        by_cases hk : k = run
        · exact hk ▸ below_of_not_less hless
        · exact hmin k h₁ (by omega)
    · rw [if_neg hle]
      exact ⟨tmp, rfl, htmp, by omega, fun k h₁ h₂ => hmin k h₁ (by omega)⟩

/-- The element at `hi` is overwritten first. -/
theorem shift_update (c : α) (k : ℕ) : shift c k (update a hi x) hi = shift c k a hi := by
  cases k with
  | zero => rw [shift, shift, update_idem]
  | succ k => rw [shift, shift, update_idem, update_of_ne (by omega)]

theorem shift_spec (a : ℤ → α) (hi : ℤ) (k : ℕ) :
    Rearranged (hi - k) hi a (shift (a hi) k a hi) ∧ shift (a hi) k a hi (hi - k) = a hi ∧
      ∀ i, hi - k < i → i ≤ hi → shift (a hi) k a hi i = a (i - 1) := by
  induction k generalizing a hi with
  | zero =>
    rw [shift, update_eq_self]
    exact ⟨.refl .., by simp, fun i h₁ h₂ => by omega⟩
  | succ k ih =>
    -- one round of the loop swaps the element with the one below it
    obtain ⟨b, hb⟩ : ∃ b, b = update (update a hi (a (hi - 1))) (hi - 1) (a hi) := ⟨_, rfl⟩
    have hbelow : b (hi - 1) = a hi := by rw [hb, update_self]
    have habove : b hi = a (hi - 1) := by rw [hb, update_of_ne (by omega), update_self]
    have hothers : ∀ i, i < hi - 1 → b i = a i := by
      intro i hi
      rw [hb, update_of_ne (by omega), update_of_ne (by omega)]
    have heq : shift (a hi) (k + 1) a hi = shift (b (hi - 1)) k b (hi - 1) := by
      rw [shift, hbelow, hb, shift_update]
    have hswap : Rearranged (hi - 1) hi a b := by
      rw [hb]
      exact .swap ⟨by omega, by omega⟩ ⟨by omega, by omega⟩
    obtain ⟨hcells, hlast, hmoved⟩ := ih b (hi - 1)
    rw [heq]
    refine ⟨?_, ?_, fun i h₁ h₂ => ?_⟩
    · exact (hswap.mono (by omega) (by omega)).trans (hcells.mono (by omega) (by omega))
    · rw [← hbelow, ← hlast]
      congr 1
      omega
    · by_cases hi' : i = hi
      · rw [hcells.outside (by omega), hi', habove]
      · rw [hmoved i (by omega) (by omega)]
        exact hothers _ (by omega)

theorem rotate_spec (htmp : 0 ≤ tmp) (hle : tmp ≤ run) (hrun : run < n) :
    ∃ b, rotate n a tmp run = some b ∧ Rearranged tmp run a b ∧ b tmp = a run ∧
      ∀ i, tmp < i → i ≤ run → b i = a (i - 1) := by
  unfold rotate
  split_ifs with heq hin
  · subst heq
    exact ⟨a, rfl, .refl .., rfl, fun i h₁ h₂ => by omega⟩
  · have hspec := shift_spec a run (run - tmp).toNat
    rw [show run - ((run - tmp).toNat : ℤ) = tmp by omega] at hspec
    exact ⟨_, rfl, hspec⟩
  · exact absurd ⟨⟨htmp, by omega⟩, by omega, hrun⟩ hin

def SortedTo (cmp : α → α → ℤ) (run : ℤ) (a : ℤ → α) : Prop :=
  ∀ i j, 0 ≤ i → i ≤ j → j ≤ run → Below cmp (a i) (a j)

def LeastFirst (cmp : α → α → ℤ) (n : ℕ) (a : ℤ → α) : Prop :=
  ∀ k : ℤ, 0 ≤ k → k < n → Below cmp (a 0) (a k)

/-- One turn of the insertion sort. -/
theorem insert_spec (hc : Consistent cmp) (hrun : 0 < run) (hn : run < n)
    (hs : SortedTo cmp (run - 1) a) (hleast : LeastFirst cmp n a) :
    ∃ t b, findPlace cmp n a run (run - 1) = some t ∧ rotate n a (t + 1) run = some b ∧
      Rearranged 0 (n - 1) a b ∧ SortedTo cmp run b ∧ LeastFirst cmp n b := by
  obtain ⟨t, ht, hge, hle, hnot, habove⟩ :=
    scanRight_spec ⟨Int.le_of_lt hrun, hn⟩ (show run - 1 < n by omega)
      (show 0 ≤ 0 ∧ 0 ≤ run - 1 by omega) (Int.not_lt.mpr (hleast run (by omega) hn))
      (show run - 1 - 0 < (n + 1 : ℕ) by omega)
  obtain ⟨b, hb, hcells, hplace, hmoved⟩ :=
    rotate_spec (a := a) (show 0 ≤ t + 1 by omega) (show t + 1 ≤ run by omega) hn
  have hbelow : ∀ i, 0 ≤ i → i ≤ t → b i = a i := fun i _ h₂ => hcells.outside (by omega)
  refine ⟨t, b, ht, hb, hcells.mono (by omega) (by omega), fun i j h₁ h₂ h₃ => ?_,
    fun k h₁ h₂ => ?_⟩
  · by_cases hit : i ≤ t
    · rw [hbelow i h₁ hit]
      by_cases hjt : j ≤ t
      · rw [hbelow j (by omega) hjt]
        exact hs i j h₁ h₂ (by omega)
      by_cases hj : j = t + 1
      · rw [hj, hplace]
        exact hc.trans _ _ _ (hs i t h₁ hit hle) (below_of_not_less hnot)
      · rw [hmoved j (by omega) h₃]
        exact hs i (j - 1) h₁ (by omega) (by omega)
    by_cases hi : i = t + 1
    · rw [hi, hplace]
      by_cases hj : j = t + 1
      · rw [hj, hplace]
        exact hc.refl _
      · rw [hmoved j (by omega) h₃]
        exact hc.total _ _ (habove (j - 1) (by omega) (by omega))
    · rw [hmoved i (by omega) (by omega), hmoved j (by omega) h₃]
      exact hs (i - 1) (j - 1) (by omega) (by omega) (by omega)
  · rw [hbelow 0 (Int.le_refl 0) hge]
    have hcells : Rearranged 0 (n - 1) a b := hcells.mono (by omega) (by omega)
    exact hcells.forall_of (p := fun x => Below cmp (a 0) x)
      (fun k h₁ h₂ => hleast k h₁ (by omega)) h₁ (by omega)

theorem insertFrom_spec (hc : Consistent cmp) (hrun : 0 ≤ run) (hn : run < n)
    (hs : SortedTo cmp run a) (hleast : LeastFirst cmp n a) {fuel : ℕ} (hf : n - run ≤ fuel) :
    ∃ b, insertFrom cmp n fuel a run = some b ∧ Rearranged 0 (n - 1) a b ∧
      SortedTo cmp (n - 1) b := by
  induction fuel generalizing a run with
  | zero => omega
  | succ fuel ih =>
    rw [insertFrom]
    by_cases hend : run + 1 ≤ n - 1
    · have hrun' : run + 1 - 1 = run := by omega
      obtain ⟨t, b, ht, hb, hcells, hs, hleast⟩ := insert_spec hc (show 0 < run + 1 by omega)
        (by omega) (hrun'.symm ▸ hs) hleast
      obtain ⟨d, hd, hcells', hsorted⟩ := ih (by omega) (by omega) hs hleast (by omega)
      refine ⟨d, ?_, hcells.trans hcells', hsorted⟩
      rw [if_pos hend, ht]
      dsimp only [bind, Option.bind]
      rw [hb]
      exact hd
    · refine ⟨a, ?_, .refl .., fun i j h₁ h₂ h₃ => hs i j h₁ h₂ (by omega)⟩
      rw [if_neg hend]

/-- The least element of a rough array is among the first ones. -/
theorem insertionSort_spec (hc : Consistent cmp) (hn : 0 < n) (hrough : Rough cmp n a) :
    ∃ b, insertionSort cmp n a = some b ∧ Rearranged 0 (n - 1) a b ∧ SortedTo cmp (n - 1) b := by
  have hlarge : maxThresh = 4 := rfl
  obtain ⟨t, ht, hge, hle, hmin⟩ :=
    smallest_spec (a := a) hc (show min ((n : ℤ) - 1) maxThresh < n by omega) (Int.le_refl 0)
      (show 0 < 0 + 1 by omega) (by omega)
      (fun k h₁ h₂ => by rw [show k = 0 by omega]; exact hc.refl _)
      (show min ((n : ℤ) - 1) maxThresh + 1 - (0 + 1) < (n + 1 : ℕ) by omega)
  have hleast : ∀ k : ℤ, 0 ≤ k → k < n → Below cmp (a t) (a k) := by
    intro k h₁ h₂
    by_cases hk : k ≤ maxThresh
    · exact hmin k h₁ (by omega)
    · exact hc.trans _ _ _ (hmin 0 (Int.le_refl 0) (by omega))
        (hrough 0 k (Int.le_refl 0) (by omega) h₂)
  obtain ⟨b, hb, hcells, hfirst⟩ : ∃ b, moveFirst n a t = some b ∧
      Rearranged 0 (n - 1) a b ∧ b 0 = a t := by
    unfold moveFirst
    split_ifs with h
    · obtain ⟨b, hb, -, hfirst, -, hcells⟩ :=
        swap_spec (a := a) (n := n) (i := t) (j := 0) ⟨hge, by omega⟩ ⟨Int.le_refl 0, by omega⟩
      exact ⟨b, hb, hcells 0 (n - 1) hge (by omega) (Int.le_refl 0) (by omega), hfirst⟩
    · exact ⟨a, rfl, .refl .., by rw [not_not.mp h]⟩
  have hleast' : LeastFirst cmp n b := by
    intro k h₁ h₂
    rw [hfirst]
    exact hcells.forall_of (p := fun x => Below cmp (a t) x)
      (fun k h₁ h₂ => hleast k h₁ (by omega)) h₁ (by omega)
  obtain ⟨d, hd, hcells', hsorted⟩ : ∃ d, insertFrom cmp n n b (0 + 1) = some d ∧
      Rearranged 0 (n - 1) b d ∧ SortedTo cmp (n - 1) d := by
    by_cases hone : n = 1
    · subst hone
      refine ⟨b, ?_, .refl .., fun i j h₁ h₂ h₃ => ?_⟩
      · rw [insertFrom, if_neg (by decide)]
      · rw [show i = j by omega]
        exact hc.refl _
    · refine insertFrom_spec hc (by omega) (by omega) (fun i j h₁ h₂ h₃ => ?_) hleast' (by omega)
      obtain rfl | rfl : i = 0 ∨ i = j := by omega
      · exact hleast' j (by omega) (by omega)
      · exact hc.refl _
  refine ⟨d, ?_, hcells.trans hcells', hsorted⟩
  rw [insertionSort, ht]
  dsimp only [bind, Option.bind]
  rw [hb]
  exact hd

/-- `qsort` returns for every array, without an access outside of it and without filling its stack,
and sorts it. -/
theorem qsort_spec (hc : Consistent cmp) (hn : n < 2 ^ 31) (a : ℤ → α) :
    ∃ b, qsort cmp n a = some b ∧ Rearranged 0 (n - 1) a b ∧ SortedTo cmp (n - 1) b := by
  unfold qsort
  split_ifs with hzero hlarge
  · exact ⟨a, rfl, .refl .., fun i j h₁ h₂ h₃ => by omega⟩
  · obtain ⟨b, hb, hcells, hrough⟩ := quick_rough (a := a) hc (by omega) hlarge
    obtain ⟨d, hd, hcells', hsorted⟩ := insertionSort_spec hc (by omega) hrough
    refine ⟨d, ?_, hcells.trans hcells', hsorted⟩
    rw [hb]
    exact hd
  · exact insertionSort_spec hc (by omega) fun i j h₁ h₂ h₃ => by omega

/-- The elements of a list, in order. -/
theorem qsortList_spec (hc : Consistent cmp) (hn : xs.length < 2 ^ 31) :
    ∃ ys, qsortList cmp xs = some ys ∧ ys.Perm xs ∧ ys.Pairwise (Below cmp) := by
  cases xs with
  | nil => exact ⟨[], rfl, .refl _, .nil⟩
  | cons x xs =>
    obtain ⟨b, hb, hcells, hsorted⟩ := qsort_spec hc hn fun i => (x :: xs).getD i.toNat x
    refine ⟨_, congrArg (Option.map _) hb, ?_, ?_⟩
    · refine hcells.perm.trans (.of_eq (List.ext_getElem (by simp) fun k h₁ h₂ => ?_))
      rw [List.getElem_map, List.getElem_range, Int.toNat_natCast, List.getD_eq_getElem?_getD,
        List.getElem?_eq_getElem h₂, Option.getD_some]
    · refine List.pairwise_map.mpr (List.Pairwise.imp_of_mem ?_ List.pairwise_lt_range)
      intro i j hi hj hij
      rw [List.mem_range] at hi hj
      exact hsorted i j (by omega) (by omega) (by omega)

/-- `qsort` with a consistent comparison returns for every array of less than `PTRDIFF_MAX` bytes:
it reads and writes no element outside of the array, its stack never fills, it leaves what is
outside as it is, and the elements inside are sorted. -/
theorem qsort_sorts (hc : Consistent cmp) (hn : n < 2 ^ 31) (a : ℤ → α) :
    ∃ b, qsort cmp n a = some b ∧
      ((List.range n).map fun i : ℕ => b i).Perm ((List.range n).map fun i : ℕ => a i) ∧
      (∀ i j : ℕ, i ≤ j → j < n → Below cmp (b i) (b j)) ∧ ∀ i, ¬ Inside n i → b i = a i := by
  obtain ⟨b, hb, hcells, hsorted⟩ := qsort_spec hc hn a
  exact ⟨b, hb, hcells.perm, fun i j h₁ h₂ => hsorted i j (by omega) (by omega) (by omega),
    fun i hi => hcells.outside fun h => hi ⟨h.1, by omega⟩⟩

/-- Numbers under their remainders. -/
def compareMod (x y : ℕ) : ℤ := (x % 10 : ℕ) - (y % 10 : ℕ)

theorem consistent_compareMod : Consistent compareMod where
  total x y h := by
    unfold Below
    unfold compareMod at h ⊢
    omega
  trans x y z h h' := by
    unfold Below compareMod at h h' ⊢
    omega

theorem qsort_sorts_six :
    ∃ b, qsort compareMod 6 (fun i => (17 * i.toNat + 5) % 31) = some b ∧
      Below compareMod (b 0) (b 5) ∧ b 6 = 14 := by
  obtain ⟨b, hb, -, hsorted, hout⟩ :=
    qsort_sorts consistent_compareMod (n := 6) (by decide) fun i => (17 * i.toNat + 5) % 31
  exact ⟨b, hb, hsorted 0 5 (by decide) (by decide), hout 6 (by decide)⟩

end MyosIo.Qsort
