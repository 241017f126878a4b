import Mathlib.Algebra.Field.Rat
import Mathlib.Algebra.Order.Ring.Rat
import Mathlib.Data.Rat.Cast.Order
import Mathlib.Tactic.FieldSimp
import MyosIo.Calc.Words

/-! `jia` and `jian` are exact. -/
namespace MyosIo.Calc

variable {a b result : Num} {i j k n N : ℕ} {ws : List ℤ} {w c : ℤ}

/-- The words below `len` are digits and lie in the array. -/
structure Num.WellFormed (a : Num) : Prop where
  digits : Digits base (a.num.take a.len)
  array : a.len ≤ a.num.length

/-- The number the words denote, without the point. -/
def Num.whole (a : Num) : ℤ := radix base (a.num.take a.len)

/-- The absolute value. -/
def Num.magnitude (a : Num) : ℚ :=
  a.whole * 10 ^ (6 * a.floatSegment + a.floatOffset)

/-- A magnitude with a sign. -/
def signed (isNegative : Bool) (q : ℚ) : ℚ := if isNegative then -q else q

def Num.value (a : Num) : ℚ := signed a.isNegative a.magnitude

/-- What passes the checks of `jia` and `jian` and can be allocated. -/
structure Fits (a b : Num) : Prop where
  topA : a.floatSegment + a.len ≤ floatWidthMax
  topB : b.floatSegment + b.len ≤ floatWidthMax
  size : (topOf a b - bottomOf a b + 1) * sizeofNumWidth ≤ mallocMax

/-- Where the words of both lie among `N` words. -/
structure Aligned (a b : Num) (i j N : ℕ) : Prop where
  segA : a.floatSegment - bottomOf a b = i
  segB : b.floatSegment - bottomOf a b = j
  top : topOf a b - bottomOf a b = N
  fitA : i + a.len ≤ N
  fitB : j + b.len ≤ N
  low : i = 0 ∨ j = 0

theorem exists_aligned (a b : Num) : ∃ i j N, Aligned a b i j N := by
  have ha : 0 ≤ a.floatSegment - bottomOf a b := by
    unfold bottomOf
    split <;> omega
  have hb : 0 ≤ b.floatSegment - bottomOf a b := by
    unfold bottomOf
    split <;> omega
  have hta : a.floatSegment + a.len ≤ topOf a b := by
    unfold topOf
    split <;> omega
  have htb : b.floatSegment + b.len ≤ topOf a b := by
    unfold topOf
    split <;> omega
  have hlow : a.floatSegment - bottomOf a b = 0 ∨ b.floatSegment - bottomOf a b = 0 := by
    unfold bottomOf
    split <;> omega
  refine ⟨(a.floatSegment - bottomOf a b).toNat, (b.floatSegment - bottomOf a b).toNat,
    (topOf a b - bottomOf a b).toNat, ?_, ?_, ?_, ?_, ?_, ?_⟩ <;> omega

theorem allocate_ok (h : Fits a b) (hal : Aligned a b i j N) (message : String) :
    allocate a b message = .ok (List.replicate (N + 1) 0) := by
  have htop := hal.top
  have hsize := h.size
  unfold sizeofNumWidth mallocMax at hsize
  unfold allocate calloc
  rw [if_neg (by have := h.topA; have := h.topB; omega), if_neg (by unfold mallocMax; omega),
    if_pos h.size]
  have hN : (topOf a b - bottomOf a b + 1).toNat = N + 1 := by omega
  rw [hN]

theorem ten_pow_base (m : ℤ) (k : ℕ) :
    (10 : ℚ) ^ (6 * (m + k)) = (base : ℚ) ^ k * 10 ^ (6 * m) := by
  have hbase : (base : ℚ) = 10 ^ 6 := by
    unfold base
    norm_num
  rw [mul_add, zpow_add₀ (by norm_num), mul_comm, hbase, ← pow_mul]
  norm_cast

/-- The magnitude counted in units of a lower segment. -/
theorem Num.magnitude_at {m : ℤ} (ho : a.floatOffset = 0) (hm : a.floatSegment - m = k) :
    a.magnitude = ((base ^ k * a.whole : ℤ) : ℚ) * 10 ^ (6 * m) := by
  have hseg : a.floatSegment = m + k := by omega
  rw [magnitude, ho, hseg, Nat.cast_zero, add_zero, ten_pow_base]
  push_cast
  ring

/-- A fresh array with both numbers in it, the second `c` times. -/
def combined (c : ℤ) (a b : Num) (i j N : ℕ) : List ℤ :=
  plus c (place i (a.num.take a.len) (N + 1)) (place j (b.num.take b.len) (N + 1))

section Combined

variable (ha : a.WellFormed) (hb : b.WellFormed) (hal : Aligned a b i j N)
include ha hb hal

theorem Aligned.lengths : i + (a.num.take a.len).length ≤ N + 1 ∧
    j + (b.num.take b.len).length ≤ N + 1 := by
  rw [List.length_take_of_le ha.array, List.length_take_of_le hb.array]
  have := hal.fitA
  have := hal.fitB
  omega

theorem length_combined (c : ℤ) : (combined c a b i j N).length = N + 1 := by
  obtain ⟨hla, hlb⟩ := hal.lengths ha hb
  rw [combined, length_plus, length_place hla, length_place hlb, Nat.min_self]

theorem radix_combined (c : ℤ) :
    radix base (combined c a b i j N) = base ^ i * a.whole + c * (base ^ j * b.whole) := by
  obtain ⟨hla, hlb⟩ := hal.lengths ha hb
  rw [combined, radix_plus c (by rw [length_place hla, length_place hlb]), radix_place, radix_place]
  rfl

/-- Both numbers lie below the top word. -/
theorem combined_bounds :
    0 ≤ base ^ i * a.whole ∧ base ^ i * a.whole < base ^ N ∧
      0 ≤ base ^ j * b.whole ∧ base ^ j * b.whole < base ^ N := by
  have hplaced {xs : List ℤ} {k : ℕ} (hd : Digits base xs) (hk : k + xs.length ≤ N) :
      0 ≤ base ^ k * radix base xs ∧ base ^ k * radix base xs < base ^ N := by
    have hp := hd.place base_pos k N
    have hnn := hp.nonneg
    have hlt := hp.lt_pow
    rw [radix_place] at hnn hlt
    rw [length_place hk] at hlt
    exact ⟨hnn, hlt⟩
  have hA := hplaced (k := i) ha.digits (by
    rw [List.length_take_of_le ha.array]
    exact hal.fitA)
  have hB := hplaced (k := j) hb.digits (by
    rw [List.length_take_of_le hb.array]
    exact hal.fitB)
  exact ⟨hA.1, hA.2, hB.1, hB.2⟩

omit hal in
theorem mem_combined {c : ℤ} (hw : w ∈ combined c a b i j N) :
    ∃ x y, (0 ≤ x ∧ x < base) ∧ (0 ≤ y ∧ y < base) ∧ w = x + y * c := by
  obtain ⟨x, hx, y, hy, rfl⟩ := mem_plus hw
  exact ⟨x, y, ha.digits.place base_pos _ _ x hx, hb.digits.place base_pos _ _ y hy, rfl⟩

/-- Where only one of the numbers has words there is nothing to carry. -/
theorem combined_low : Digits base ((combined 1 a b i j N).take (max i j)) := by
  obtain ⟨hla, hlb⟩ := hal.lengths ha hb
  rw [combined, take_plus]
  rcases hal.low with rfl | rfl
  · rw [Nat.zero_max, place_take_zeros]
    have hlen : ((place 0 (a.num.take a.len) (N + 1)).take j).length = j :=
      List.length_take_of_le (by rw [length_place hla]; have := hal.fitB; omega)
    have := plus_zeros 1 ((place 0 (a.num.take a.len) (N + 1)).take j)
    rw [hlen] at this
    rw [this]
    exact (ha.digits.place base_pos _ _).take _
  · rw [Nat.max_zero, place_take_zeros]
    have hlen : ((place 0 (b.num.take b.len) (N + 1)).take i).length = i :=
      List.length_take_of_le (by rw [length_place hlb]; have := hal.fitA; omega)
    have := zeros_plus ((place 0 (b.num.take b.len) (N + 1)).take i)
    rw [hlen] at this
    rw [this]
    exact (hb.digits.place base_pos _ _).take _

theorem combined_low_left (c : ℤ) : Digits base ((combined c a b i j N).take j) := by
  obtain ⟨hla, -⟩ := hal.lengths ha hb
  rw [combined, take_plus, place_take_zeros]
  have hlen : ((place i (a.num.take a.len) (N + 1)).take j).length = j :=
    List.length_take_of_le (by rw [length_place hla]; have := hal.fitB; omega)
  have := plus_zeros c ((place i (a.num.take a.len) (N + 1)).take j)
  rw [hlen] at this
  rw [this]
  exact (ha.digits.place base_pos _ _).take _

/-- Copying one number and adding the other `c` times. -/
theorem combine_ok (hc : c = 1 ∨ c = -1) :
    copyAndAdd c (a.num.take a.len) (b.num.take b.len) i j (List.replicate (N + 1) 0) =
      .ok (combined c a b i j N) := by
  obtain ⟨hla, hlb⟩ := hal.lengths ha hb
  have hcopy := memcpy_place (Int.natCast_nonneg i) (Int.toNat_natCast i ▸ hla)
  rw [Int.toNat_natCast] at hcopy
  have hbase : base = 1000000 := rfl
  have hadd := addScaled_place (c := c)
    (b.num.take b.len) (Int.natCast_nonneg j)
    (by rw [Int.toNat_natCast, length_place hla]; exact hlb)
    (fun y hy => by have := hb.digits y hy; rcases hc with rfl | rfl <;> omega)
    (fun x hx y hy => by
      have := hb.digits y hy
      have := ha.digits.place base_pos _ _ x hx
      rcases hc with rfl | rfl <;> omega)
  rw [Int.toNat_natCast, length_place hla] at hadd
  rw [copyAndAdd, hcopy]
  exact hadd

/-- The carries of a sum stay within the array. -/
theorem carry_ok : ∃ low top,
    atOffset (max i j : ℕ) (jinweiZhengxiang (N + 1 - max i j)) (combined 1 a b i j N) =
      .ok (low ++ [top]) ∧
    low.length = N ∧ Digits base low ∧ (0 ≤ top ∧ top < base) ∧
      radix base (low ++ [top]) = base ^ i * a.whole + base ^ j * b.whole := by
  have hlen := length_combined ha hb hal 1
  have hdigits := combined_low ha hb hal
  have hval := radix_combined ha hb hal 1
  obtain ⟨hA₀, hA, hB₀, hB⟩ := combined_bounds ha hb hal
  have hmem : ∀ w ∈ (combined 1 a b i j N).drop (max i j), 0 ≤ w ∧ w ≤ 2 * base := by
    intro w hw
    obtain ⟨x, y, hx, hy, rfl⟩ := mem_combined ha hb (List.mem_of_mem_drop hw)
    omega
  have hk : max i j ≤ N := by
    have := hal.fitA
    have := hal.fitB
    omega
  have hdrop : ((combined 1 a b i j N).drop (max i j)).length = N + 1 - max i j := by
    rw [List.length_drop, hlen]
  have htake : ((combined 1 a b i j N).take (max i j)).length = max i j :=
    List.length_take_of_le (by omega)
  have hsplit := List.take_append_drop (max i j) (combined 1 a b i j N)
  generalize (combined 1 a b i j N).drop (max i j) = block at *
  obtain ⟨low, top, hrun, hlow, hlowDigits, htop₀, hradix⟩ :=
    jinweiZhengxiang_spec _ (List.ne_nil_of_length_pos (by omega)) (by decide) hmem
  rw [List.append_nil, hdrop] at hrun
  have htotal : radix base ((combined 1 a b i j N).take (max i j) ++ low ++ [top]) =
      base ^ i * a.whole + base ^ j * b.whole := by
    rw [List.append_assoc, radix_append, hradix, ← radix_append, hsplit, hval, one_mul]
  have hall := Digits.append_iff.mpr ⟨hdigits, hlowDigits⟩
  have hlength : ((combined 1 a b i j N).take (max i j) ++ low).length = N := by
    rw [List.length_append, htake]
    omega
  refine ⟨_, top, ?_, hlength, hall, ⟨htop₀, ?_⟩, htotal⟩
  · conv_lhs => rw [← hsplit]
    rw [atOffset_append htake, hrun]
    simp [Except.map]
  · have hdiv := radix_top (x := top) hall base_pos
    have hpos : 0 < base ^ N := pow_pos base_pos N
    rw [hlength, htotal] at hdiv
    rw [← hdiv]
    refine Int.ediv_lt_of_lt_mul hpos ?_
    have htwo : 2 * base ^ N ≤ base * base ^ N := Int.mul_le_mul_of_nonneg_right (by decide) hpos.le
    linarith

/-- The borrows of a difference that is not negative stay within the array. -/
theorem borrow_ok (hle : base ^ j * b.whole ≤ base ^ i * a.whole) : ∃ low,
    atOffset (j : ℕ) (jinweiFanxiang (N + 1 - j)) (combined (-1) a b i j N) = .ok (low ++ [0]) ∧
    low.length = N ∧ Digits base low ∧
      radix base low = base ^ i * a.whole - base ^ j * b.whole := by
  have hlen := length_combined ha hb hal (-1)
  have hdigits := combined_low_left ha hb hal (-1)
  have hval := radix_combined ha hb hal (-1)
  obtain ⟨hA₀, hA, hB₀, hB⟩ := combined_bounds ha hb hal
  have hbase : base = 1000000 := rfl
  have hmem : ∀ w ∈ (combined (-1) a b i j N).drop j, -base ≤ w ∧ w < base := by
    intro w hw
    obtain ⟨x, y, hx, hy, rfl⟩ := mem_combined ha hb (List.mem_of_mem_drop hw)
    omega
  have hk : j ≤ N := by
    have := hal.fitB
    omega
  have hdrop : ((combined (-1) a b i j N).drop j).length = N + 1 - j := by
    rw [List.length_drop, hlen]
  have htake : ((combined (-1) a b i j N).take j).length = j :=
    List.length_take_of_le (by omega)
  have hsplit := List.take_append_drop j (combined (-1) a b i j N)
  generalize (combined (-1) a b i j N).drop j = block at *
  obtain ⟨low, top, hrun, hlow, hlowDigits, -, hradix⟩ :=
    jinweiFanxiang_spec _ (List.ne_nil_of_length_pos (by omega)) base_pos
      (by decide) hmem
  rw [List.append_nil, hdrop] at hrun
  have htotal : radix base ((combined (-1) a b i j N).take j ++ low ++ [top]) =
      base ^ i * a.whole - base ^ j * b.whole := by
    rw [List.append_assoc, radix_append, hradix, ← radix_append, hsplit, hval]
    ring
  have hall := Digits.append_iff.mpr ⟨hdigits, hlowDigits⟩
  have hlength : ((combined (-1) a b i j N).take j ++ low).length = N := by
    rw [List.length_append, htake]
    omega
  have htop : top = 0 := by
    have hdiv := radix_top (x := top) hall base_pos
    rw [hlength, htotal] at hdiv
    rw [← hdiv]
    exact Int.ediv_eq_zero_of_lt (by omega) (by omega)
  subst htop
  refine ⟨_, ?_, hlength, hall, ?_⟩
  · conv_lhs => rw [← hsplit]
    rw [atOffset_append htake, hrun]
    simp [Except.map]
  · rw [← htotal, radix_concat_zero]

end Combined

/-- The highest index up to `i` with a word that is not zero. -/
theorem resultMax_spec (h : i < ws.length) : ∃ m ≤ i, resultMax ws i = .ok m ∧
    (m = 0 ∨ ws[m]? ≠ some 0) ∧ ∀ k, m < k → k ≤ i → ws[k]? = some 0 := by
  induction i with
  | zero => exact ⟨0, Nat.le_refl _, rfl, .inl rfl, by omega⟩
  | succ i ih =>
    have hget : ws[i + 1]? = some ws[i + 1] := List.getElem?_eq_getElem h
    rw [resultMax]
    have hread : read ws ((i : ℤ) + 1) = .ok ws[i + 1] := by
      have := read_ok hget
      rwa [Nat.cast_add, Nat.cast_one] at this
    simp only [hread, bind, Except.bind]
    split
    next hz =>
      obtain ⟨m, hm, hrun, hne, habove⟩ := ih (Nat.lt_of_succ_lt h)
      refine ⟨m, Nat.le_succ_of_le hm, hrun, hne, fun k hk hki => ?_⟩
      rcases Nat.lt_or_ge k (i + 1) with hlt | hge
      · exact habove k hk (Nat.le_of_lt_succ hlt)
      · obtain rfl : k = i + 1 := Nat.le_antisymm hki hge
        rw [hget, hz]
    next hnz =>
      refine ⟨i + 1, Nat.le_refl _, rfl, .inr fun he => hnz ?_, by omega⟩
      rw [hget] at he
      exact Option.some.inj he

/-- Zeros above `m` do not count. -/
theorem radix_take_of_zeros (h : ∀ k, n ≤ k → k < ws.length → ws[k]? = some 0) :
    radix base (ws.take n) = radix base ws := by
  have hzeros : ws.drop n = List.replicate (ws.drop n).length 0 := by
    rw [List.eq_replicate_iff]
    refine ⟨rfl, fun w hw => ?_⟩
    obtain ⟨k, hk, rfl⟩ := List.getElem_of_mem hw
    rw [List.length_drop] at hk
    have := h (n + k) (Nat.le_add_right _ _) (by omega)
    rw [List.getElem?_eq_getElem (by omega)] at this
    rw [List.getElem_drop]
    exact Option.some.inj this
  conv_rhs => rw [← List.take_append_drop n ws, hzeros]
  rw [radix_append, radix_replicate_zero, mul_zero, add_zero]

theorem plus_one_comm {xs ys : List ℤ} : plus 1 xs ys = plus 1 ys xs := by
  unfold plus
  rw [List.zipWith_comm]
  congr 1
  funext x y
  ring

theorem topOf_comm (a b : Num) : topOf b a = topOf a b := by
  unfold topOf
  split <;> split <;> omega

theorem bottomOf_comm (a b : Num) : bottomOf b a = bottomOf a b := by
  unfold bottomOf
  split <;> split <;> omega

theorem Aligned.symm (h : Aligned a b i j N) : Aligned b a j i N where
  segA := bottomOf_comm a b ▸ h.segB
  segB := bottomOf_comm a b ▸ h.segA
  top := by
    rw [topOf_comm, bottomOf_comm]
    exact h.top
  fitA := h.fitB
  fitB := h.fitA
  low := h.low.symm

/-- What `jia` leaves. -/
theorem jia_ok (ha : a.WellFormed) (hb : b.WellFormed) (hfit : Fits a b)
    (hal : Aligned a b i j N) : ∃ low top,
      jia a b result = .ok { result with
        num := low ++ [top], floatSegment := bottomOf a b, len := if top = 0 then N else N + 1 } ∧
      low.length = N ∧ Digits base low ∧ (0 ≤ top ∧ top < base) ∧
      radix base (low ++ [top]) = base ^ i * a.whole + base ^ j * b.whole := by
  obtain ⟨low, top, hcarry, hlen, hspec⟩ := carry_ok ha hb hal
  refine ⟨low, top, ?_, hlen, hspec⟩
  have hboth : (if a.len ≥ b.len then
        copyAndAdd 1 (a.num.take a.len) (b.num.take b.len) i j (List.replicate (N + 1) 0)
      else copyAndAdd 1 (b.num.take b.len) (a.num.take a.len) j i (List.replicate (N + 1) 0)) =
      .ok (combined 1 a b i j N) := by
    split
    · exact combine_ok ha hb hal (.inl rfl)
    · rw [combine_ok hb ha hal.symm (.inl rfl)]
      exact congrArg _ plus_one_comm
  have hsegA := hal.segA
  have hsegB := hal.segB
  have htop := hal.top
  have hlow := hal.low
  have hminMax : (if a.floatSegment > bottomOf a b then a.floatSegment else b.floatSegment) =
      bottomOf a b + (max i j : ℕ) := by
    split <;> omega
  have hcount : (topOf a b - (bottomOf a b + (max i j : ℕ)) + 1).toNat = N + 1 - max i j := by
    omega
  have hread : read (low ++ [top]) N = .ok top := read_ok (by rw [← hlen]; simp)
  unfold jia
  rw [allocate_ok hfit hal]
  dsimp only
  rw [hminMax, hsegA, hsegB, htop, Int.toNat_natCast, add_sub_cancel_left, hcount]
  have hN : (topOf a b - bottomOf a b + 1).toNat = N + 1 := by omega
  simp only [bind, Except.bind, readAll_ok ha.array, readAll_ok hb.array, hboth, hcarry, hread]
  split
  · rfl
  · rw [show ((N : ℤ) + 1).toNat = N + 1 by omega]

/-- What `jian` leaves: nothing, or a number whose top word is not zero. -/
theorem jian_ok (ha : a.WellFormed) (hb : b.WellFormed) (hfit : Fits a b)
    (hal : Aligned a b i j N) (hle : base ^ j * b.whole ≤ base ^ i * a.whole) : ∃ words m neg,
      jian a b result = .ok { result with
        num := words, isNegative := neg, floatSegment := bottomOf a b, len := m } ∧
      words.length = N + 1 ∧ m ≤ N + 1 ∧ Digits base words ∧
      radix base (words.take m) = base ^ i * a.whole - base ^ j * b.whole ∧
      (m = 0 ∧ neg = false ∨ ∃ k, m = k + 1 ∧ words[k]? ≠ some 0 ∧ neg = result.isNegative) := by
  obtain ⟨low, hborrow, hlen, hdigits, hval⟩ := borrow_ok ha hb hal hle
  have hall : Digits base (low ++ [0]) :=
    Digits.append_iff.mpr ⟨hdigits, Digits.cons_iff.mpr ⟨⟨Int.le_refl 0, base_pos⟩, .nil⟩⟩
  have hradix : radix base (low ++ [0]) = base ^ i * a.whole - base ^ j * b.whole := by
    rw [radix_concat_zero, hval]
  have hlength : (low ++ [0]).length = N + 1 := by simp [hlen]
  generalize low ++ [0] = words at hborrow hall hradix hlength
  obtain ⟨m, hm, hmax, hne, habove⟩ := resultMax_spec (show N < words.length by omega)
  have hget : words[m]? = some words[m] := List.getElem?_eq_getElem (by omega)
  have hzeros : radix base (words.take (m + 1)) = radix base words :=
    radix_take_of_zeros fun k hk hkl => habove k hk (by omega)
  have hcount : (topOf a b - b.floatSegment + 1).toNat = N + 1 - j := by
    have := hal.segB
    have := hal.top
    have := hal.fitB
    omega
  have hsize : ¬(a.len : ℤ) > mallocMax / sizeofNumWidth := by
    have := hfit.size
    have := hal.top
    have := hal.fitA
    unfold mallocMax sizeofNumWidth at *
    omega
  unfold jian
  rw [allocate_ok hfit hal]
  dsimp only
  rw [hal.segA, hal.segB, hal.top, hcount, Int.toNat_natCast]
  simp only [bind, Except.bind, if_neg hsize, readAll_ok ha.array, readAll_ok hb.array,
    combine_ok ha hb hal (.inr rfl), hborrow, hmax, read_ok hget]
  split
  next hz =>
    obtain ⟨rfl, hz⟩ := hz
    refine ⟨words, 0, false, rfl, hlength, Nat.zero_le _, hall, ?_, .inl ⟨rfl, rfl⟩⟩
    have hfirst : words.take 1 = [0] := by
      obtain ⟨w, rest, rfl⟩ := List.exists_cons_of_length_pos (show 0 < words.length by omega)
      exact congrArg (fun x => [x]) hz
    rw [← hradix, ← hzeros, hfirst]
    rfl
  next hnz =>
    refine ⟨words, m + 1, result.isNegative, rfl, hlength, by omega, hall, ?_,
      .inr ⟨m, rfl, ?_, rfl⟩⟩
    · rw [hzeros, hradix]
    · rcases hne with rfl | hne
      · intro he
        rw [hget] at he
        exact hnz ⟨rfl, Option.some.inj he⟩
      · exact hne

/-- What the scale of a sum or a difference is worth. -/
theorem scale_pos (m : ℤ) : (0 : ℚ) < 10 ^ (6 * m) := zpow_pos (by norm_num) _

/-- `jia` leaves the sum of the magnitudes. -/
theorem jia_exact (ha : a.WellFormed) (hb : b.WellFormed) (hfit : Fits a b)
    (hoa : a.floatOffset = 0) (hob : b.floatOffset = 0) (hor : result.floatOffset = 0) :
    ∃ r, jia a b result = .ok r ∧ r.WellFormed ∧ r.floatOffset = 0 ∧
      r.isNegative = result.isNegative ∧ r.num.length = topOf a b - bottomOf a b + 1 ∧
      r.magnitude = a.magnitude + b.magnitude := by
  obtain ⟨i, j, N, hal⟩ := exists_aligned a b
  have hA := a.magnitude_at hoa hal.segA
  have hB := b.magnitude_at hob hal.segB
  obtain ⟨low, top, hjia, hlen, hlow, htop, hval⟩ := jia_ok ha hb hfit hal
  have hall : Digits base (low ++ [top]) :=
    Digits.append_iff.mpr ⟨hlow, Digits.cons_iff.mpr ⟨htop, .nil⟩⟩
  have hcut : radix base ((low ++ [top]).take (if top = 0 then N else N + 1)) =
      radix base (low ++ [top]) := by
    split
    next hz => rw [hz, List.take_left' hlen, radix_concat_zero]
    next => rw [List.take_of_length_le (by simp [hlen])]
  refine ⟨_, hjia, ⟨hall.take _, ?_⟩, hor, rfl, ?_, ?_⟩
  · change (if top = 0 then N else N + 1) ≤ (low ++ [top]).length
    rw [List.length_append, hlen, List.length_singleton]
    split <;> omega
  · change ((low ++ [top]).length : ℤ) = _
    rw [hal.top, List.length_append, hlen]
    rfl
  · rw [hA, hB, ← add_mul, ← Int.cast_add, ← hval, Num.magnitude, Num.whole]
    change ((radix base _ : ℤ) : ℚ) * 10 ^ (6 * bottomOf a b + (result.floatOffset : ℤ)) = _
    rw [hcut, hor, Nat.cast_zero, add_zero]

/-- `jian` leaves the difference of the magnitudes, the larger one given first. -/
theorem jian_exact (ha : a.WellFormed) (hb : b.WellFormed) (hfit : Fits a b)
    (hoa : a.floatOffset = 0) (hob : b.floatOffset = 0) (hor : result.floatOffset = 0)
    (hle : b.magnitude ≤ a.magnitude) :
    ∃ r, jian a b result = .ok r ∧ r.WellFormed ∧
      r.floatOffset = 0 ∧ r.num.length = topOf a b - bottomOf a b + 1 ∧
      r.magnitude = a.magnitude - b.magnitude ∧
      (a.magnitude = b.magnitude → r.len = 0 ∧ r.isNegative = false) ∧
      (b.magnitude < a.magnitude → r.isNegative = result.isNegative ∧
        ∃ w, r.num[r.len - 1]? = some w ∧ w ≠ 0) := by
  obtain ⟨i, j, N, hal⟩ := exists_aligned a b
  have hscale := scale_pos (bottomOf a b)
  have hA := a.magnitude_at hoa hal.segA
  have hB := b.magnitude_at hob hal.segB
  have hle' : base ^ j * b.whole ≤ base ^ i * a.whole := by
    rw [hA, hB] at hle
    exact_mod_cast le_of_mul_le_mul_right hle hscale
  obtain ⟨words, m, neg, hjian, hlen, hm, hall, hval, hend⟩ :=
    jian_ok ha hb hfit hal hle'
  have hmag : a.magnitude - b.magnitude =
      ((base ^ i * a.whole - base ^ j * b.whole : ℤ) : ℚ) * 10 ^ (6 * bottomOf a b) := by
    rw [hA, hB, ← sub_mul, Int.cast_sub]
  refine ⟨_, hjian, ⟨hall.take _, hlen ▸ hm⟩, hor, ?_, ?_, ?_, ?_⟩
  · rw [hal.top, hlen]
    rfl
  · rw [hmag, ← hval, Num.magnitude, Num.whole]
    change ((radix base _ : ℤ) : ℚ) * 10 ^ (6 * bottomOf a b + (result.floatOffset : ℤ)) = _
    rw [hor, Nat.cast_zero, add_zero]
  · intro heq
    rcases hend with hzero | ⟨k, rfl, hk, -⟩
    · exact hzero
    · rw [heq, sub_self] at hmag
      have hz : radix base (words.take (k + 1)) = 0 := by
        rw [hval]
        exact_mod_cast (mul_eq_zero.mp hmag.symm).resolve_right hscale.ne'
      have hzeros := (hall.take (k + 1)).eq_zeros hz
      have hget : (words.take (k + 1))[k]? = some 0 := by
        rw [hzeros, List.length_take_of_le (by omega)]
        simp
      rw [List.getElem?_take_of_lt (Nat.lt_succ_self k)] at hget
      exact absurd hget hk
  · intro hlt
    rcases hend with ⟨rfl, -⟩ | ⟨k, rfl, hk, hneg⟩
    · rw [List.take_zero, radix_nil] at hval
      rw [← hval, Int.cast_zero, zero_mul] at hmag
      exact absurd hmag (sub_pos.mpr hlt).ne'
    · have hget : words[k]? = some words[k] := List.getElem?_eq_getElem (by omega)
      refine ⟨hneg, words[k], hget, fun hz => hk ?_⟩
      rw [hget, hz]

/-- `jia` leaves the sum of the magnitudes and `jian`, with the larger one first, the difference. -/
theorem sum_difference_exact (ha : a.WellFormed) (hb : b.WellFormed) (hfit : Fits a b)
    (hoa : a.floatOffset = 0) (hob : b.floatOffset = 0) (hor : result.floatOffset = 0) :
    (∃ r, jia a b result = .ok r ∧ r.WellFormed ∧ r.floatOffset = 0 ∧
      r.isNegative = result.isNegative ∧ r.num.length = topOf a b - bottomOf a b + 1 ∧
      r.magnitude = a.magnitude + b.magnitude) ∧
    (b.magnitude ≤ a.magnitude → ∃ r, jian a b result = .ok r ∧ r.WellFormed ∧
      r.floatOffset = 0 ∧ r.num.length = topOf a b - bottomOf a b + 1 ∧
      r.magnitude = a.magnitude - b.magnitude ∧
      (a.magnitude = b.magnitude → r.len = 0 ∧ r.isNegative = false) ∧
      (b.magnitude < a.magnitude → r.isNegative = result.isNegative ∧
        ∃ w, r.num[r.len - 1]? = some w ∧ w ≠ 0)) :=
  ⟨jia_exact ha hb hfit hoa hob hor, jian_exact ha hb hfit hoa hob hor⟩

/-- 2.5 and 999999000000. -/
theorem sum_difference_exact_sample :
    (∃ r, jia ⟨[500000, 2], false, -1, 0, 2⟩ ⟨[999999], false, 1, 0, 1⟩
        ⟨[], false, 0, 0, 0⟩ = .ok r ∧ r.WellFormed) ∧
      ∃ r, jian ⟨[999999], false, 1, 0, 1⟩ ⟨[500000, 2], false, -1, 0, 2⟩
        ⟨[], false, 0, 0, 0⟩ = .ok r ∧ r.WellFormed := by
  have hx : Num.WellFormed ⟨[500000, 2], false, -1, 0, 2⟩ := ⟨by decide, by decide⟩
  have hy : Num.WellFormed ⟨[999999], false, 1, 0, 1⟩ := ⟨by decide, by decide⟩
  have hz : (⟨[], false, 0, 0, 0⟩ : Num).floatOffset = 0 := rfl
  obtain ⟨⟨r, hr, hwf, -⟩, -⟩ := sum_difference_exact hx hy
    ⟨by decide, by decide, by decide⟩ rfl rfl hz
  obtain ⟨-, hjian⟩ := sum_difference_exact hy hx ⟨by decide, by decide, by decide⟩ rfl rfl hz
  obtain ⟨r', hr', hwf', -⟩ := hjian (by norm_num [Num.magnitude, Num.whole, base])
  exact ⟨⟨r, hr, hwf⟩, r', hr', hwf'⟩

end MyosIo.Calc
