import Mathlib.Tactic.NormNum
import MyosIo.Calc.Model
import MyosIo.Lib.Except

/-! What each of the shared loops makes of the number its words denote, and that it neither
overflows nor leaves its array. -/
namespace MyosIo.Calc

variable {xs ys ws us vs rest a : List ℤ} {x y c M : ℤ} {i n : ℕ}

theorem base_pos : 0 < base := by decide

theorem i64_ok (h : -2 ^ 63 ≤ x) (h' : x < 2 ^ 63) : i64 x = .ok x := if_pos ⟨h, h'⟩

theorem i64_eq_ok : i64 x = .ok y ↔ (-2 ^ 63 ≤ x ∧ x < 2 ^ 63) ∧ x = y := by
  unfold i64
  split
  next h => exact ⟨fun he => ⟨h, Except.ok.inj he⟩, fun he => congrArg _ he.2⟩
  next h => exact ⟨fun he => (nomatch he), fun he => absurd he.1 h⟩

theorem read_ok (h : a[i]? = some x) : read a i = .ok x := by
  unfold read
  rw [if_pos (Int.natCast_nonneg i), Int.toNat_natCast, h]

theorem readAll_ok (h : n ≤ a.length) : readAll a n = .ok (a.take n) := if_pos h

theorem atOffset_append {f : List ℤ → Outcome (List ℤ)} (h : us.length = n) :
    atOffset n f (us ++ vs) = (f vs).map (us ++ ·) := by
  unfold atOffset
  rw [if_pos ⟨Int.natCast_nonneg _, by rw [List.length_append]; omega⟩, Int.toNat_natCast,
    List.drop_left' h, List.take_left' h]

/-- A call with a pointer to where the first `k` words end. -/
theorem atOffset_take {k : ℤ} {f : List ℤ → Outcome (List ℤ)} (h₀ : 0 ≤ k) (hk : k ≤ a.length) :
    atOffset k f a = (f (a.drop k.toNat)).map (a.take k.toNat ++ ·) := if_pos ⟨h₀, hk⟩

theorem memcpy_zeros (h : xs.length ≤ n) :
    memcpy xs (List.replicate n 0) = .ok (xs ++ List.replicate (n - xs.length) 0) := by
  unfold memcpy
  rw [if_pos (by rwa [List.length_replicate]), List.drop_replicate]

/-- Copied into a fresh array. -/
theorem memcpy_place {k : ℤ} (h₀ : 0 ≤ k) (h : k.toNat + xs.length ≤ n) :
    atOffset k (memcpy xs) (List.replicate n 0) = .ok (place k.toNat xs n) := by
  rw [atOffset_take h₀ (by rw [List.length_replicate]; omega), List.drop_replicate,
    memcpy_zeros (by omega), List.take_replicate, Nat.min_eq_left (by omega), Nat.sub_sub]
  rfl

theorem addScaled_ok (hl : xs.length ≤ ys.length)
    (hp : ∀ x ∈ xs, -2 ^ 63 ≤ x * c ∧ x * c < 2 ^ 63)
    (hs : ∀ y ∈ ys, ∀ x ∈ xs, -2 ^ 63 ≤ y + x * c ∧ y + x * c < 2 ^ 63) :
    addScaled c xs ys = .ok (plus c ys (xs ++ List.replicate (ys.length - xs.length) 0)) := by
  induction xs generalizing ys with
  | nil =>
    rw [List.nil_append, List.length_nil, Nat.sub_zero, plus_zeros]
    rfl
  | cons x xs ih =>
    cases ys with
    | nil => exact absurd hl (by simp)
    | cons y ys =>
      have hx := hp x List.mem_cons_self
      have hy := hs y List.mem_cons_self x List.mem_cons_self
      have hrest := @ih ys (Nat.le_of_succ_le_succ hl)
        (fun z hz => hp z (List.mem_cons_of_mem _ hz))
        (fun z hz w hw => hs z (List.mem_cons_of_mem _ hz) w (List.mem_cons_of_mem _ hw))
      rw [addScaled, i64_ok hx.1 hx.2]
      simp only [bind, Except.bind, i64_ok hy.1 hy.2, hrest]
      simp [plus]

/-- Words added to those from `k` on. -/
theorem addScaled_place {k : ℤ} (xs : List ℤ) (h₀ : 0 ≤ k) (hl : k.toNat + xs.length ≤ ws.length)
    (hp : ∀ x ∈ xs, -2 ^ 63 ≤ x * c ∧ x * c < 2 ^ 63)
    (hs : ∀ y ∈ ws, ∀ x ∈ xs, -2 ^ 63 ≤ y + x * c ∧ y + x * c < 2 ^ 63) :
    atOffset k (addScaled c xs) ws = .ok (plus c ws (place k.toNat xs ws.length)) := by
  have hlen : (ws.drop k.toNat).length = ws.length - k.toNat := List.length_drop
  have hadd := addScaled_ok (c := c) (show xs.length ≤ (ws.drop k.toNat).length by omega) hp
    fun y hy => hs y (List.mem_of_mem_drop hy)
  rw [atOffset_take h₀ (by omega), hadd, hlen, Nat.sub_sub]
  have hcut : plus c ws (place k.toNat xs ws.length) =
      plus c (ws.take k.toNat ++ ws.drop k.toNat) (place k.toNat xs ws.length) := by
    rw [List.take_append_drop]
  have htake : (ws.take k.toNat).length = k.toNat := List.length_take_of_le (by omega)
  rw [hcut, place, plus, plus, List.zipWith_append (by rw [htake, List.length_replicate])]
  have hzeros : plus c (ws.take k.toNat) (List.replicate k.toNat 0) = ws.take k.toNat := by
    have := plus_zeros c (ws.take k.toNat)
    rwa [htake] at this
  rw [plus] at hzeros
  rw [hzeros]
  rfl

/-- One carry. -/
theorem tdiv_add_tmod (h : 0 ≤ x) :
    0 ≤ x.tmod base ∧ x.tmod base < base ∧ x.tmod base + base * x.tdiv base = x ∧
      0 ≤ x.tdiv base ∧ x.tdiv base ≤ x / 1000000 := by
  rw [Int.tmod_eq_emod_of_nonneg h, Int.tdiv_eq_ediv_of_nonneg h]
  unfold base
  omega

theorem zhengxiang_loop (hM : 2 * M < 2 ^ 63) (hx : 0 ≤ x ∧ x ≤ 2 * M)
    (hw : ∀ w ∈ ws, 0 ≤ w ∧ w ≤ M) :
    ∃ low top, jinweiZhengxiang (ws.length + 1) (x :: ws ++ rest) = .ok (low ++ top :: rest) ∧
      low.length = ws.length ∧ Digits base low ∧ 0 ≤ top ∧
      radix base (low ++ [top]) = radix base (x :: ws) := by
  induction ws generalizing x with
  | nil => exact ⟨[], x, rfl, rfl, .nil, hx.1, rfl⟩
  | cons y ws ih =>
    obtain ⟨hm₀, hm, hsum, hq₀, hq⟩ := tdiv_add_tmod hx.1
    have hy := hw y List.mem_cons_self
    obtain ⟨low, top, hrun, hlen, hlow, htop, hval⟩ := @ih (y + x.tdiv base) (by omega)
      fun w hmem => hw w (List.mem_cons_of_mem _ hmem)
    refine ⟨x.tmod base :: low, top, ?_, by rw [List.length_cons, hlen, List.length_cons],
      Digits.cons_iff.mpr ⟨⟨hm₀, hm⟩, hlow⟩, htop, ?_⟩
    · rw [List.length_cons, List.cons_append, List.cons_append, jinweiZhengxiang,
        i64_ok (by omega) (by omega)]
      change (do let a ← jinweiZhengxiang (ws.length + 1) ((y + x.tdiv base) :: ws ++ rest); _) = _
      rw [hrun]
      rfl
    · rw [List.cons_append, radix_cons, hval]
      simp only [radix_cons]
      linarith

/-- The carries are passed up: every word but the top one becomes a digit. -/
theorem jinweiZhengxiang_spec (ws : List ℤ) (hne : ws ≠ []) (hM : 2 * M < 2 ^ 63)
    (hw : ∀ w ∈ ws, 0 ≤ w ∧ w ≤ M) :
    ∃ low top, jinweiZhengxiang ws.length (ws ++ rest) = .ok (low ++ top :: rest) ∧
      low.length + 1 = ws.length ∧ Digits base low ∧ 0 ≤ top ∧
      radix base (low ++ [top]) = radix base ws := by
  obtain ⟨x, ws, rfl⟩ := List.exists_cons_of_ne_nil hne
  have hx := hw x List.mem_cons_self
  obtain ⟨low, top, hrun, hlen, hspec⟩ := zhengxiang_loop hM
    (show 0 ≤ x ∧ x ≤ 2 * M by omega) fun w hmem => hw w (List.mem_cons_of_mem _ hmem)
  exact ⟨low, top, hrun, by rw [hlen, List.length_cons], hspec⟩

/-- One borrow. -/
theorem borrow_spec (h : x < 0) :
    0 ≤ x + ((-x - 1).tdiv base + 1) * base ∧ x + ((-x - 1).tdiv base + 1) * base < base ∧
      0 < (-x - 1).tdiv base + 1 ∧ (-x - 1).tdiv base + 1 ≤ (-x - 1) / 1000000 + 1 := by
  rw [Int.tdiv_eq_ediv_of_nonneg (by omega)]
  unfold base
  omega

theorem fanxiang_loop (hM₀ : 0 < M) (hM : 2 * M + base < 2 ^ 63) (hx : -(2 * M) ≤ x ∧ x < base)
    (hw : ∀ w ∈ ws, -M ≤ w ∧ w < base) :
    ∃ low top, jinweiFanxiang (ws.length + 1) (x :: ws ++ rest) = .ok (low ++ top :: rest) ∧
      low.length = ws.length ∧ Digits base low ∧ top < base ∧
      radix base (low ++ [top]) = radix base (x :: ws) := by
  induction ws generalizing x with
  | nil => exact ⟨[], x, rfl, rfl, .nil, hx.2, rfl⟩
  | cons y ws ih =>
    have hy := hw y List.mem_cons_self
    have hws : ∀ w ∈ ws, -M ≤ w ∧ w < base := fun w hmem => hw w (List.mem_cons_of_mem _ hmem)
    rw [List.length_cons, List.cons_append, List.cons_append, jinweiFanxiang]
    split
    next hneg =>
      obtain ⟨hd₀, hd, htemp₀, htemp⟩ := borrow_spec hneg
      dsimp only
      generalize (-x - 1).tdiv base + 1 = temp at *
      have hbase : base = 1000000 := rfl
      obtain ⟨low, top, hrun, hlen, hlow, htop, hval⟩ := @ih (y - temp) (by omega) hws
      refine ⟨(x + temp * base) :: low, top, ?_, by rw [List.length_cons, hlen],
        Digits.cons_iff.mpr ⟨⟨hd₀, hd⟩, hlow⟩, htop, ?_⟩
      · rw [i64_ok (by omega) (by omega)]
        change (do let y ← i64 (y - temp); _) = _
        rw [i64_ok (by omega) (by omega)]
        change (do let a ← jinweiFanxiang (ws.length + 1) ((y - temp) :: ws ++ rest); _) = _
        rw [hrun]
        rfl
      · rw [List.cons_append, radix_cons, hval]
        simp only [radix_cons]
        linarith
    next hnn =>
      obtain ⟨low, top, hrun, hlen, hlow, htop, hval⟩ := @ih y (by omega) hws
      refine ⟨x :: low, top, ?_, by rw [List.length_cons, hlen],
        Digits.cons_iff.mpr ⟨⟨by omega, hx.2⟩, hlow⟩, htop, ?_⟩
      · change (do let a ← jinweiFanxiang (ws.length + 1) (y :: ws ++ rest); _) = _
        rw [hrun]
        rfl
      · rw [List.cons_append, radix_cons, hval]
        simp only [radix_cons]

/-- The borrows are passed up: every word but the top one becomes a digit. -/
theorem jinweiFanxiang_spec (ws : List ℤ) (hne : ws ≠ []) (hM₀ : 0 < M)
    (hM : 2 * M + base < 2 ^ 63)
    (hw : ∀ w ∈ ws, -M ≤ w ∧ w < base) :
    ∃ low top, jinweiFanxiang ws.length (ws ++ rest) = .ok (low ++ top :: rest) ∧
      low.length + 1 = ws.length ∧ Digits base low ∧ top < base ∧
      radix base (low ++ [top]) = radix base ws := by
  obtain ⟨x, ws, rfl⟩ := List.exists_cons_of_ne_nil hne
  have hx := hw x List.mem_cons_self
  obtain ⟨low, top, hrun, hlen, hspec⟩ := fanxiang_loop hM₀ hM
    (show -(2 * M) ≤ x ∧ x < base by omega) fun w hmem => hw w (List.mem_cons_of_mem _ hmem)
  exact ⟨low, top, hrun, by rw [hlen, List.length_cons], hspec⟩

end MyosIo.Calc
