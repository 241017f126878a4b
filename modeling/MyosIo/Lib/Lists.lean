import Mathlib.Algebra.BigOperators.Group.List.Basic
import Mathlib.Algebra.GroupWithZero.Nat
import Mathlib.Data.Finset.Card
import Mathlib.Data.List.Nodup
import Mathlib.Data.List.Perm.Basic
import Mathlib.Logic.Function.Basic

/-! Lists and finite ranges under an update at one point. -/
namespace MyosIo

open Function

variable {α β : Type*} {l : List α} {a : α} {b : β}

/-- The arithmetic progression from `x` by `m` up to `top` gains a first member. -/
theorem progression_cons {m x top : ℕ} (hm : 0 < m) (h : m ≤ x) (hx : x ≤ top + m) :
    (List.range ((top + m - (x - m)) / m)).map (fun k => x - m + k * m) =
      (x - m) :: (List.range ((top + m - x) / m)).map fun k => x + k * m := by
  have hsub : top + m - (x - m) = top + m - x + m := by omega
  have hn : (top + m - (x - m)) / m = (top + m - x) / m + 1 := by
    rw [hsub, Nat.add_div_right _ hm]
  have hf : ∀ k, x - m + (k + 1) * m = x + k * m := by
    intro k
    rw [Nat.succ_mul]
    omega
  rw [hn, List.range_succ_eq_map]
  simp [comp_def, hf]

theorem sum_map_update [DecidableEq α] (f : α → ℕ) (n : ℕ) (hl : l.Nodup) (ha : a ∈ l) :
    (l.map (update f a n)).sum + f a = (l.map f).sum + n := by
  induction l with
  | nil => simp at ha
  | cons x l ih =>
    obtain ⟨hx, hl⟩ := List.nodup_cons.mp hl
    simp only [List.map_cons, List.sum_cons]
    rcases List.mem_cons.mp ha with rfl | ha
    · have hmap : l.map (update f a n) = l.map f :=
        List.map_congr_left fun y hy => by
          have hne : y ≠ a := fun h => hx (h ▸ hy)
          exact update_of_ne hne _ _
      rw [hmap, update_self]
      omega
    · have hne : x ≠ a := fun h => hx (h ▸ ha)
      have := ih hl ha
      rw [update_of_ne hne]
      omega

/-- A partial function that gains a value at one point of a list gains it once. -/
theorem filterMap_update_some {f g : α → Option β} (hl : l.Nodup) (ha : a ∈ l) (hf : f a = none)
    (hg : g a = some b) (hfg : ∀ x ∈ l, x ≠ a → g x = f x) :
    (l.filterMap g).Perm (b :: l.filterMap f) := by
  induction l with
  | nil => simp at ha
  | cons x l ih =>
    obtain ⟨hx, hl⟩ := List.nodup_cons.mp hl
    rcases List.mem_cons.mp ha with rfl | ha
    · have hmap : l.filterMap g = l.filterMap f :=
        List.filterMap_congr fun y hy =>
          hfg y (List.mem_cons_of_mem _ hy) fun h => hx (h ▸ hy)
      simp [hf, hg, hmap]
    · have hxa : x ≠ a := fun h => hx (h ▸ ha)
      have hi := ih hl ha fun y hy => hfg y (List.mem_cons_of_mem _ hy)
      rw [List.filterMap_cons, List.filterMap_cons, hfg x (by simp) hxa]
      cases f x with
      | none => exact hi
      | some y => exact (hi.cons y).trans (List.Perm.swap b y _)

/-- Four groups in a row: a member of a later group moves to the first one. -/
theorem perm_second {l u u' r : List β} (h : u'.Perm (b :: u)) :
    (l ++ (u' ++ r)).Perm (b :: l ++ (u ++ r)) :=
  ((h.append_right r).append_left l).trans List.perm_middle

theorem perm_third (l u p r : List β) (b : β) :
    (l ++ (u ++ (b :: p ++ r))).Perm (b :: l ++ (u ++ (p ++ r))) :=
  (List.perm_middle.append_left l).trans List.perm_middle

theorem perm_fourth (l u p r : List β) (b : β) :
    (l ++ (u ++ (p ++ b :: r))).Perm (b :: l ++ (u ++ (p ++ r))) :=
  ((List.perm_middle.append_left u).append_left l).trans (perm_third l u p r b)

/-- The number of zeros among the first `n` values. -/
def zeros (n : ℕ) (f : ℕ → ℕ) : ℕ := ((Finset.range n).filter fun i => f i = 0).card

theorem zeros_le (n : ℕ) (f : ℕ → ℕ) : zeros n f ≤ n := by
  simpa [zeros] using Finset.card_filter_le (Finset.range n) fun i => f i = 0

theorem zeros_eq_iff {n : ℕ} {f : ℕ → ℕ} : zeros n f = n ↔ ∀ i < n, f i = 0 := by
  have h := Finset.card_filter_eq_iff (s := Finset.range n) (p := fun i => f i = 0)
  rw [Finset.card_range] at h
  simpa [zeros] using h

theorem zeros_congr {n : ℕ} {f g : ℕ → ℕ} (h : ∀ i < n, f i = g i) : zeros n f = zeros n g := by
  unfold zeros
  congr 1
  refine Finset.filter_congr fun i hi => ?_
  rw [h i (Finset.mem_range.mp hi)]

theorem zeros_set {n c : ℕ} {f g : ℕ → ℕ} (hc : c < n) (hf : f c = 0) (hg : g c ≠ 0)
    (h : ∀ i, i ≠ c → g i = f i) : zeros n g + 1 = zeros n f := by
  have he : ((Finset.range n).filter fun i => g i = 0)
      = ((Finset.range n).filter fun i => f i = 0).erase c := by
    ext i
    by_cases hi : i = c
    · subst hi
      simp [hg]
    · simp [hi, h i hi]
  rw [zeros, he, zeros]
  refine Finset.card_erase_add_one ?_
  simp [hc, hf]

/-- Two members of a list in order are equal, or one of them comes first. -/
theorem pairwise_cases {r : α → α → Prop} (h : l.Pairwise r) (ha : a ∈ l) {b : α} (hb : b ∈ l) :
    a = b ∨ r a b ∨ r b a := by
  induction h with
  | nil => cases ha
  | cons hfirst _ ih =>
    rcases List.mem_cons.mp ha with rfl | ha <;> rcases List.mem_cons.mp hb with rfl | hb
    · exact .inl rfl
    · exact .inr (.inl (hfirst _ hb))
    · exact .inr (.inr (hfirst _ ‹_›))
    · exact ih ha hb

/-- The first member of a finite set is counted apart, where `q` is what `p` leaves without it. -/
theorem card_filter_insert [DecidableEq α] {p q : α → Prop} [DecidablePred p] [DecidablePred q]
    {t : Finset α} (h : ∀ x ∈ t, q x ↔ p x ∧ x ≠ a) :
    ((insert a t).filter p).card = (if p a then 1 else 0) + (t.filter q).card := by
  by_cases ha : p a
  · have hset : (insert a t).filter p = insert a (t.filter q) := by
      ext x
      by_cases hx : x = a
      · simp [hx, ha]
      · simp only [Finset.mem_filter, Finset.mem_insert, hx, false_or]
        exact and_congr_right fun ht => ((h x ht).trans (and_iff_left hx)).symm
    have hnot : a ∉ t.filter q := fun hm => by
      obtain ⟨ht, hq⟩ := Finset.mem_filter.mp hm
      exact ((h a ht).mp hq).2 rfl
    rw [hset, Finset.card_insert_of_notMem hnot, if_pos ha, Nat.add_comm]
  · have hset : (insert a t).filter p = t.filter q := by
      ext x
      by_cases hx : x = a
      · subst hx
        simp only [Finset.mem_filter, ha, and_false, false_iff]
        exact fun hm => ha ((h x hm.1).mp hm.2).1
      · simp only [Finset.mem_filter, Finset.mem_insert, hx, false_or]
        exact and_congr_right fun ht => ((h x ht).trans (and_iff_left hx)).symm
    rw [hset, if_neg ha, Nat.zero_add]

end MyosIo
