import MyosIo.Tty.Screen

/-! What the loops over video memory leave in each byte, and the cursor as the number of a cell. -/
namespace MyosIo.Tty

open Function

/-- The cell the cursor is at. -/
def Screen.cell (s : Screen) : ℕ := s.x + cols * s.y

/-- `scroll`, which moves the attributes too but clears only the characters of the last row. -/
def scrolled (m : ℕ → UInt8) : ℕ → UInt8 := fun i =>
  if i < (rows - 1) * cols * 2 then m (i + cols * 2)
  else if i < rows * cols * 2 ∧ i % 2 = 0 then 0
  else m i

/-- The characters `cs` in the cells from `a` on. -/
def putCells (m : ℕ → UInt8) (a : ℕ) (cs : List UInt8) : ℕ → UInt8 := fun i =>
  if i % 2 = 0 ∧ a ≤ i / 2 ∧ i / 2 < a + cs.length then cs.getD (i / 2 - a) 0 else m i

variable {m : ℕ → UInt8} {a b k : ℕ} {cs ds : List UInt8} {s t : Screen} {c : UInt8}

theorem mem_evens_iff {i : ℕ} : i ∈ evens a b ↔ a ≤ i ∧ i < b ∧ (i - a) % 2 = 0 := by
  unfold evens
  rw [List.mem_range']
  constructor
  · rintro ⟨j, hj, rfl⟩
    omega
  · rintro ⟨ha, hb, hi⟩
    exact ⟨(i - a) / 2, by omega, by omega⟩

/-- A loop that stores one value. -/
theorem foldlM_poke (f : ℕ → ℕ) (xs : List ℕ) (h : ∀ i ∈ xs, f i < rows * cols * 2)
    (m : ℕ → UInt8) : xs.foldlM (fun m i => poke m (f i) c) m =
      some fun j => if j ∈ xs.map f then c else m j := by
  induction xs generalizing m with
  | nil => rfl
  | cons i xs ih =>
    obtain ⟨hi, h⟩ := List.forall_mem_cons.mp h
    rw [List.foldlM_cons, poke, if_pos hi, Option.bind_eq_bind, Option.bind_some, ih h]
    congr 1
    funext j
    simp only [List.map_cons, List.mem_cons]
    by_cases hj : j ∈ xs.map f
    · rw [if_pos hj, if_pos (.inr hj)]
    · rw [if_neg hj, update_apply]
      simp only [hj, or_false]

theorem scroll_eq (m : ℕ → UInt8) : scroll m = some (scrolled m) := by
  unfold scroll memmove
  rw [if_pos (by decide), Option.bind_eq_bind, Option.bind_some]
  refine (foldlM_poke (c := 0) id _ (fun i hi => (mem_evens_iff.mp hi).2.1) _).trans ?_
  congr 1
  funext i
  simp only [List.map_id, mem_evens_iff]
  unfold scrolled rows cols
  by_cases hmove : i < (25 - 1) * 80 * 2
  · rw [if_neg (by omega), if_pos (by omega), if_pos hmove, Nat.sub_zero, Nat.add_comm]
  · rw [if_neg hmove]
    by_cases hlast : i < 25 * 80 * 2 ∧ i % 2 = 0
    · rw [if_pos (by omega), if_pos hlast]
    · rw [if_neg (by omega), if_neg (by omega), if_neg hlast]

@[simp] theorem putCells_nil (m : ℕ → UInt8) (a : ℕ) : putCells m a [] = m := by
  funext i
  exact if_neg (by simp only [List.length_nil]; omega)

theorem putCells_singleton (m : ℕ → UInt8) (a : ℕ) (c : UInt8) :
    putCells m a [c] = update m (a * 2) c := by
  funext i
  unfold putCells
  by_cases hi : i = a * 2
  · subst hi
    have hz : a * 2 / 2 - a = 0 := by omega
    rw [if_pos (by simp only [List.length_singleton]; omega), update_self, hz]
    rfl
  · rw [if_neg (by simp only [List.length_singleton]; omega), update_of_ne hi]

theorem putCells_cons (m : ℕ → UInt8) (a : ℕ) (c : UInt8) (cs : List UInt8) :
    putCells (putCells m a [c]) (a + 1) cs = putCells m a (c :: cs) := by
  funext i
  unfold putCells
  rw [List.length_singleton, List.length_cons]
  by_cases htail : i % 2 = 0 ∧ a + 1 ≤ i / 2 ∧ i / 2 < a + 1 + cs.length
  · obtain ⟨j, hj⟩ : ∃ j, i / 2 - a = j + 1 := ⟨i / 2 - a - 1, by omega⟩
    have hj' : i / 2 - (a + 1) = j := by omega
    rw [if_pos htail, if_pos (by omega), hj, hj', List.getD_cons_succ]
  · rw [if_neg htail]
    by_cases hhead : i % 2 = 0 ∧ i / 2 = a
    · rw [if_pos (by omega), if_pos (by omega), show i / 2 - a = 0 by omega]
      rfl
    · rw [if_neg (by omega), if_neg (by omega)]

theorem putCells_snoc (m : ℕ → UInt8) (a : ℕ) (cs : List UInt8) (c : UInt8) :
    putCells (putCells m (a + cs.length) [c]) a cs = putCells m a (cs ++ [c]) := by
  funext i
  unfold putCells
  rw [List.length_singleton, List.length_append, List.length_singleton]
  by_cases hfront : i % 2 = 0 ∧ a ≤ i / 2 ∧ i / 2 < a + cs.length
  · rw [if_pos hfront, if_pos (by omega), List.getD_eq_getElem?_getD,
      List.getD_eq_getElem?_getD, List.getElem?_append_left (by omega)]
  · rw [if_neg hfront]
    by_cases hlast : i % 2 = 0 ∧ i / 2 = a + cs.length
    · have hindex : i / 2 - a = cs.length := by omega
      rw [if_pos (by omega), if_pos (by omega), hlast.2, Nat.sub_self, ← hlast.2, hindex]
      simp
    · rw [if_neg (by omega), if_neg (by omega)]

/-- The later characters stay. -/
theorem putCells_twice (m : ℕ → UInt8) (a : ℕ) (h : cs.length = ds.length) :
    putCells (putCells m a cs) a ds = putCells m a ds := by
  funext i
  unfold putCells
  rw [h]
  split <;> rfl

/-- Characters below the first row move up with it. -/
theorem scrolled_putCells (m : ℕ → UInt8) (ha : cols ≤ a) (h : a + cs.length ≤ rows * cols) :
    scrolled (putCells m a cs) = putCells (scrolled m) (a - cols) cs := by
  funext i
  unfold scrolled putCells
  dsimp only
  unfold rows cols at *
  by_cases hmove : i < (25 - 1) * 80 * 2
  · have hcell : (i + 80 * 2) / 2 - a = i / 2 - (a - 80) := by omega
    rw [if_pos hmove, if_pos hmove, hcell]
    have hiff : (i + 80 * 2) % 2 = 0 ∧ a ≤ (i + 80 * 2) / 2 ∧ (i + 80 * 2) / 2 < a + cs.length ↔
        i % 2 = 0 ∧ a - 80 ≤ i / 2 ∧ i / 2 < a - 80 + cs.length := by omega
    simp only [hiff]
  · rw [if_neg hmove, if_neg hmove]
    by_cases hlast : i < 25 * 80 * 2 ∧ i % 2 = 0
    · rw [if_pos hlast, if_neg (by omega), if_pos hlast]
    · rw [if_neg hlast, if_neg (by omega), if_neg (by omega), if_neg hlast]

theorem scrolled_iterate_putCells (m : ℕ → UInt8) (k : ℕ) (ha : cols * k ≤ a)
    (h : a + cs.length ≤ rows * cols) :
    scrolled^[k] (putCells m a cs) = putCells (scrolled^[k] m) (a - cols * k) cs := by
  induction k with
  | zero => rfl
  | succ k ih =>
    rw [Nat.mul_succ] at ha
    rw [iterate_succ_apply', ih (by omega), scrolled_putCells _ (by omega) (by omega),
      iterate_succ_apply', Nat.mul_succ, Nat.sub_sub]

end MyosIo.Tty
