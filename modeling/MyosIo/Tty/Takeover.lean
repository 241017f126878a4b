import MyosIo.Tty.Cells

/-! What `kernel_init_part0` leaves of the screen it finds. It counts in bytes up to the number of
cells. -/
namespace MyosIo.Tty

open Function

/-- The position read from the video controller, or 0 if it is not on the screen. -/
def Screen.start (s : Screen) : ℕ :=
  if (s.cursor.2.toNat ||| s.cursor.1.toNat <<< 8) < rows * cols then
    s.cursor.2.toNat ||| s.cursor.1.toNat <<< 8
  else 0

/-- All cells have the attribute, those before the position keep their characters, the others are
cleared, and the cursor is at the position. -/
structure TakenOver (s t : Screen) : Prop where
  attributes : ∀ c < rows * cols, t.vidmem (c * 2 + 1) = charAttr
  kept : ∀ c < s.start, t.vidmem (c * 2) = s.vidmem (c * 2)
  cleared : ∀ c, s.start ≤ c → c < rows * cols → t.vidmem (c * 2) = 0
  cursor : t.cell = s.start

/-- The bytes after both loops; the second one ends in the middle of video memory. -/
def taken (m : ℕ → UInt8) (start : ℕ) : ℕ → UInt8 := fun i =>
  if i < start * 2 then if i % 2 = 0 then m i else charAttr
  else if i < rows * cols then if i % 2 = 0 then 0 else charAttr
  else m i

variable {s t : Screen} {m : ℕ → UInt8} {a b : ℕ}

/-- A loop that clears characters and sets attributes. -/
theorem foldlM_clear (xs : List ℕ) (h : ∀ i ∈ xs, i % 2 = 0 ∧ i + 1 < rows * cols * 2)
    (m : ℕ → UInt8) :
    xs.foldlM (fun m i => do
      let m ← poke m i 0
      poke m (i + 1) charAttr) m =
      some fun j => if j % 2 = 0 then if j ∈ xs then 0 else m j
        else if j - 1 ∈ xs then charAttr else m j := by
  induction xs generalizing m with
  | nil => simp
  | cons i xs ih =>
    obtain ⟨⟨heven, hi⟩, h⟩ := List.forall_mem_cons.mp h
    have hbody : (do
        let m ← poke m i 0
        poke m (i + 1) charAttr) = some (update (update m i 0) (i + 1) charAttr) := by
      rw [poke, if_pos (by omega), Option.bind_eq_bind, Option.bind_some, poke, if_pos hi]
    rw [List.foldlM_cons, hbody]
    refine (ih h _).trans ?_
    congr 1
    funext j
    simp only [List.mem_cons, update_apply]
    by_cases hj : j % 2 = 0
    · rw [if_pos hj, if_pos hj, if_neg (show ¬ j = i + 1 by omega)]
      by_cases hmem : j ∈ xs
      · rw [if_pos hmem, if_pos (.inr hmem)]
      · simp only [hmem, or_false, if_false]
    · rw [if_neg hj, if_neg hj, if_neg (show ¬ j = i by omega)]
      have hiff : j - 1 = i ↔ j = i + 1 := by omega
      by_cases hmem : j - 1 ∈ xs
      · rw [if_pos hmem, if_pos (.inr hmem)]
      · simp only [hmem, or_false, if_false, hiff]

theorem Screen.start_lt (s : Screen) : s.start < rows * cols := by
  unfold Screen.start
  split
  next h => exact h
  next => decide

theorem kernelInitPart0_eq (s : Screen) : s.kernelInitPart0 =
    some ⟨taken s.vidmem s.start, s.start % 80, s.start / 80, s.cursor⟩ := by
  have hpos : (if s.cursor.2.toNat ||| s.cursor.1.toNat <<< 8 ≥ cols * rows then 0
      else (s.cursor.2.toNat ||| s.cursor.1.toNat <<< 8) <<< 1) = s.start * 2 := by
    unfold Screen.start
    rw [Nat.mul_comm cols]
    split
    next h => rw [if_neg (Nat.not_lt.mpr h)]
    next h => rw [if_pos (Nat.not_le.mp h), Nat.shiftLeft_eq, Nat.pow_one]
  have hlt := s.start_lt
  unfold Screen.kernelInitPart0
  dsimp only
  rw [hpos]
  generalize s.start = p at hlt
  have hattr (i : ℕ) (hi : i ∈ evens 0 (p * 2)) : i + 1 < rows * cols * 2 := by
    have := mem_evens_iff.mp hi
    omega
  have hclear (i : ℕ) (hi : i ∈ evens (p * 2) (rows * cols)) :
      i % 2 = 0 ∧ i + 1 < rows * cols * 2 := by
    have := mem_evens_iff.mp hi
    unfold rows cols at *
    omega
  rw [foldlM_poke (· + 1) _ hattr, Option.bind_eq_bind, Option.bind_some,
    foldlM_clear _ hclear, Option.bind_some, Nat.shiftRight_eq_div_pow, Nat.pow_one,
    Nat.mul_div_cancel _ (by decide : 0 < 2)]
  congr 2
  funext j
  have hodd : j ∈ (evens 0 (p * 2)).map (· + 1) ↔ j % 2 = 1 ∧ j < p * 2 := by
    rw [List.mem_map]
    constructor
    · rintro ⟨i, hi, rfl⟩
      have := mem_evens_iff.mp hi
      omega
    · rintro ⟨hj, hlt⟩
      exact ⟨j - 1, mem_evens_iff.mpr (by omega), by omega⟩
  simp only [hodd, mem_evens_iff]
  unfold taken
  by_cases hfront : j < p * 2
  · rw [if_pos hfront]
    by_cases hj : j % 2 = 0
    · rw [if_pos hj, if_pos hj, if_neg (by omega), if_neg (by omega)]
    · rw [if_neg hj, if_neg hj, if_neg (by omega), if_pos (by omega)]
  · rw [if_neg hfront, if_neg (show ¬ (j % 2 = 1 ∧ j < p * 2) by omega)]
    by_cases hlast : j < rows * cols
    · rw [if_pos hlast]
      by_cases hj : j % 2 = 0
      · rw [if_pos hj, if_pos hj, if_pos (by omega)]
      · rw [if_neg hj, if_neg hj, if_pos (by omega)]
    · have heven : rows * cols % 2 = 0 := by decide
      rw [if_neg hlast]
      by_cases hj : j % 2 = 0
      · rw [if_pos hj, if_neg (by omega)]
      · rw [if_neg hj, if_neg (by omega)]

/-- The screen is taken over as it should be if and only if the cells from the position on that
are in its lower half are clear and have the attribute before. -/
theorem taken_over_iff (s : Screen) :
    (∃ t, s.kernelInitPart0 = some t ∧ TakenOver s t) ↔
      ∀ c, s.start ≤ c → rows * cols / 2 ≤ c → c < rows * cols →
        s.vidmem (c * 2) = 0 ∧ s.vidmem (c * 2 + 1) = charAttr := by
  have hstart := s.start_lt
  have hhalf : rows * cols / 2 * 2 = rows * cols := by decide
  rw [kernelInitPart0_eq]
  constructor
  · rintro ⟨t, ht, htaken⟩ c hc hlow hlt
    obtain rfl := Option.some.inj ht
    have hchar := htaken.cleared c hc hlt
    have hattr := htaken.attributes c hlt
    unfold taken at hchar hattr
    dsimp only at hchar hattr
    rw [if_neg (by omega), if_neg (by omega)] at hchar hattr
    exact ⟨hchar, hattr⟩
  · intro hlower
    refine ⟨_, rfl, ⟨fun c hc => ?_, fun c hc => ?_, fun c hc hlt => ?_, ?_⟩⟩
    · unfold taken
      dsimp only
      by_cases hfront : c < s.start
      · rw [if_pos (by omega), if_neg (by omega)]
      · rw [if_neg (by omega)]
        by_cases hup : c * 2 + 1 < rows * cols
        · rw [if_pos hup, if_neg (by omega)]
        · rw [if_neg hup]
          exact (hlower c (by omega) (by omega) hc).2
    · unfold taken
      dsimp only
      rw [if_pos (by omega), if_pos (by omega)]
    · unfold taken
      dsimp only
      rw [if_neg (by omega)]
      by_cases hup : c * 2 < rows * cols
      · rw [if_pos hup, if_pos (by omega)]
      · rw [if_neg hup]
        exact (hlower c hc (by omega) hlt).1
    · unfold Screen.cell cols
      dsimp only
      omega

/-- A screen of blanks in the boot loader's colour, with the cursor in the fourth row. -/
def booted : Screen := ⟨fun i => if i % 2 = 0 then 32 else 7, 0, 0, 0, 240⟩

theorem booted_not_cleared : ¬ ∃ t, booted.kernelInitPart0 = some t ∧ TakenOver booted t := by
  rintro ⟨t, ht, htaken⟩
  rw [kernelInitPart0_eq] at ht
  obtain rfl := Option.some.inj ht
  exact absurd (htaken.cleared 1000 (by decide) (by decide)) (by decide)

end MyosIo.Tty
