import MyosIo.Calc.Quotient

/-! The quotient is exact where the dividend fits into its working copy, its first digit is one
and no estimate is off by more than one. -/
namespace MyosIo.Calc

variable {low ws : List ℤ} {k n L c : ℕ} {a b r result : Num}

/-- What `string_to_Num` leaves for `*` and `/`. -/
structure Operand (r : Num) : Prop where
  array : r.num.length = r.len
  digits : Digits base r.num
  low : ∀ w rest, r.num = w :: rest → w ≠ 0
  nonzero : r.len ≠ 0
  offset : r.floatOffset < wei
  range : 0 ≤ r.floatSegment + r.len ∧ r.floatSegment + r.len < 2 ^ 61

theorem Produced.operand (h : Produced 3 r) (hne : r.len ≠ 0) : Operand r := by
  obtain ⟨s, a, hs, hlen, hr⟩ := h
  rcases stringToNum_cases hs a 3 with ⟨hzero, -⟩ | ⟨sc, hm, hcases⟩
  · rw [hzero] at hr
    obtain rfl := Except.ok.inj hr
    exact absurd rfl hne
  · rcases hcases with ⟨pad, k, r', hr', hp, -⟩ | ⟨-, hf, -⟩
    · rw [hr'] at hr
      obtain rfl := Except.ok.inj hr
      have hle := intDigits_le s
      have hcount := hm.count
      have hscale := hp.scale
      have hoffset := hp.offset
      have hwords := hp.words
      have htop := hp.top
      exact ⟨hp.array, hp.digits, fun w rest hw => hp.low hm hw, hne, hoffset, by omega, by omega⟩
    · omega

theorem Operand.whole (h : Operand r) : r.whole = radix base r.num := by
  rw [Num.whole, List.take_of_length_le h.array.le]

theorem Operand.ne_nil (h : Operand r) : r.num ≠ [] :=
  List.ne_nil_of_length_pos (by rw [h.array]; exact Nat.pos_of_ne_zero h.nonzero)

theorem Operand.whole_pos (h : Operand r) : 0 < r.whole := by
  have hpos := low_pos h.digits h.low h.ne_nil (List.length_pos_of_ne_nil h.ne_nil)
  rwa [List.take_length, ← h.whole] at hpos

/-- The dividend's highest words, as many as the divisor has. -/
def head (a b : Num) : ℤ := a.whole * base ^ b.len / base ^ a.len

/-- The words of the working copy. -/
def copyLen (a b : Num) (cishu : ℕ) : ℕ := b.len + cishu - firstDigits b.whole (head a b)

/-- The number they hold, if the dividend fits. -/
def dividend (a b : Num) (cishu : ℕ) : ℤ := a.whole * base ^ (copyLen a b cishu - a.len)

/-- The words the first digit is found from. -/
def firstWindow (a b : Num) (cishu : ℕ) : ℤ := dividend a b cishu / base ^ (cishu - 1)

/-- The highest words of a number with zeros put below it. -/
theorem head_eq (a b : Num) (h : a.len ≤ L) (hL : b.len ≤ L) :
    a.whole * base ^ (L - a.len) / base ^ (L - b.len) = head a b := by
  have hm : (0 : ℤ) < base ^ a.len := pow_pos base_pos _
  have hk : (0 : ℤ) < base ^ (L - b.len) := pow_pos base_pos _
  unfold head
  rw [← Int.mul_ediv_mul_of_pos_left _ _ hm, ← Int.mul_ediv_mul_of_pos_left (a.whole * _) _ hk]
  congr 1
  · rw [mul_assoc, mul_assoc, ← pow_add, ← pow_add, Nat.sub_add_cancel h, Nat.add_sub_cancel' hL]
  · exact mul_comm _ _

theorem chuCopy_ok (ha : Operand a) (h : a.len ≤ L) (hL : b.len ≤ L) : ∃ low ws,
    chuCopy a L = .ok (low ++ ws) ∧ low.length = L - b.len ∧ ws.length = b.len ∧
      Digits base low ∧ Digits base ws ∧
      radix base (low ++ ws) = a.whole * base ^ (L - a.len) ∧ radix base ws = head a b := by
  have hcopy : chuCopy a L = .ok (List.replicate (L - a.len) 0 ++ a.num) := by
    unfold chuCopy
    split
    next hgt =>
      rw [readAll_ok ha.array.ge, ok_bind, List.take_of_length_le ha.array.le]
    next hle =>
      obtain rfl : L = a.len := by omega
      rw [readAll_ok ha.array.ge, List.take_of_length_le ha.array.le, Nat.sub_self]
      rfl
  have hlength : (List.replicate (L - a.len) 0 ++ a.num).length = L := by
    rw [List.length_append, List.length_replicate, ha.array]
    omega
  have hvalue : radix base (List.replicate (L - a.len) 0 ++ a.num) =
      a.whole * base ^ (L - a.len) := by
    rw [radix_append, radix_replicate_zero, List.length_replicate, zero_add, ← ha.whole, mul_comm]
  have hdigits : Digits base (List.replicate (L - a.len) 0 ++ a.num) :=
    Digits.append_iff.mpr ⟨.zeros base_pos _, ha.digits⟩
  generalize List.replicate (L - a.len) 0 ++ a.num = copy at *
  have hlow : (copy.take (L - b.len)).length = L - b.len := List.length_take_of_le (by omega)
  refine ⟨copy.take (L - b.len), copy.drop (L - b.len), by rw [hcopy, List.take_append_drop], hlow,
    by rw [List.length_drop]; omega, hdigits.take _, hdigits.drop _,
    by rw [List.take_append_drop, hvalue], ?_⟩
  have hlead := radix_leading (hdigits.take (L - b.len)) (copy.drop (L - b.len))
  rw [List.take_append_drop, hvalue, hlow, head_eq a b h hL] at hlead
  exact hlead.symm

/-- The flag says how the highest words compare with the divisor. -/
theorem chuFlag_ok (ha : Operand a) (hb : Operand b) :
    chuFlag a b = .ok (flagOf b.whole (head a b)) := by
  unfold chuFlag flagOf
  split
  next hlong =>
    have hhead := head_eq a b hlong.le le_rfl
    rw [Nat.sub_self, pow_zero, Int.ediv_one] at hhead
    have hcount : (b.num.drop (b.len - a.len)).length = a.len := by
      rw [List.length_drop, hb.array]
      omega
    obtain ⟨t, ht, -, hneg⟩ := numcmp_digits (hb.digits.drop (b.len - a.len)) ha.digits
      (by rw [hcount, ha.array])
    rw [hcount] at ht
    rw [ht, ok_bind]
    have htake : (b.num.take (b.len - a.len)).length = b.len - a.len :=
      List.length_take_of_le (by rw [hb.array]; omega)
    have hsplit := @radix_append base (b.num.take (b.len - a.len)) (b.num.drop (b.len - a.len))
    rw [List.take_append_drop, htake, ← hb.whole] at hsplit
    have hlow := low_pos hb.digits hb.low hb.ne_nil (show 0 < b.len - a.len by omega)
    have hlt := (hb.digits.take (b.len - a.len)).lt_pow
    rw [htake] at hlt
    have hpow : (0 : ℤ) ≤ base ^ (b.len - a.len) := (pow_pos base_pos _).le
    rw [← ha.whole] at hneg
    rw [← hhead, mul_comm]
    generalize radix base (b.num.drop (b.len - a.len)) = top at *
    split
    next hge =>
      have hle : a.whole ≤ top := not_lt.mp fun h => by have := hneg.mpr h; omega
      have := Int.mul_le_mul_of_nonneg_left hle hpow
      rw [if_pos (by omega)]
    next hlt' =>
      have hstep : top + 1 ≤ a.whole := hneg.mp (by omega)
      have := Int.mul_le_mul_of_nonneg_left hstep hpow
      rw [mul_add, mul_one] at this
      rw [if_neg (by omega), if_neg (by omega)]
  next hshort =>
    have hle : b.len ≤ a.len := not_lt.mp hshort
    have hhead := head_eq a b le_rfl hle
    rw [Nat.sub_self, pow_zero, mul_one, ha.whole] at hhead
    have htake : (a.num.take (a.len - b.len)).length = a.len - b.len :=
      List.length_take_of_le (by rw [ha.array]; omega)
    have hlead := radix_leading (ha.digits.take (a.len - b.len)) (a.num.drop (a.len - b.len))
    rw [List.take_append_drop, htake, hhead] at hlead
    have hcount : b.num.length = (a.num.drop (a.len - b.len)).length := by
      rw [List.length_drop, ha.array, hb.array]
      omega
    obtain ⟨t, ht, hpos, hneg⟩ := numcmp_digits hb.digits (ha.digits.drop (a.len - b.len)) hcount
    rw [hb.array] at ht
    rw [ht, ok_bind, hlead, hb.whole]
    rw [← hb.whole] at hpos hneg ⊢
    congr 1
    split_ifs <;> omega

/-- `cishu`. -/
def digitsAsked (baoliu : ℕ) : ℕ := (baoliu - 1) / wei + 2

/-- Whether the offset of the quotient is borrowed from its segment. -/
def offsetBorrow (a b : Num) : ℕ := if a.floatOffset ≥ b.floatOffset then 0 else 1

def quotientSegment (a b : Num) (cishu : ℕ) : ℤ :=
  a.len - b.len + a.floatSegment - b.floatSegment - cishu + firstDigits b.whole (head a b) -
    offsetBorrow a b

theorem firstDigits_le (b head : ℤ) : firstDigits b head ≤ 1 := by
  unfold firstDigits
  split <;> omega

theorem flagOf_zero (b head : ℤ) : flagOf b head = 0 ↔ head < b := by
  unfold flagOf
  split
  next h => exact iff_of_true rfl h
  next h =>
    refine iff_of_false ?_ h
    split <;> decide

/-- The working copy can be allocated. -/
def CopyFits (a b : Num) (cishu : ℕ) : Prop :=
  (copyLen a b cishu : ℤ) ≤ mallocMax / sizeofNumWidth

theorem chu_eq (ha : Operand a) (hb : Operand b) (baoliu : ℕ) (result : Num) :
    (¬CopyFits a b (digitsAsked baoliu) ∧ ∃ message, chu a b baoliu result =
      .error (.exit message)) ∨
    CopyFits a b (digitsAsked baoliu) ∧ chu a b baoliu result = (do
      let copy ← chuCopy a (copyLen a b (digitsAsked baoliu))
      let qs ← chuDigits b.num (digitsAsked baoliu) (flagOf b.whole (head a b)) copy
      .ok ⟨qs.reverse, a.isNegative ^^ b.isNegative, quotientSegment a b (digitsAsked baoliu),
        a.floatOffset + wei * offsetBorrow a b - b.floatOffset, digitsAsked baoliu⟩) := by
  have hflag := chuFlag_ok ha hb
  have hone := firstDigits_le b.whole (head a b)
  have hlen : (if flagOf b.whole (head a b) = 0 then b.len + digitsAsked baoliu
      else b.len + digitsAsked baoliu - 1) = copyLen a b (digitsAsked baoliu) := by
    unfold copyLen firstDigits
    rw [if_congr (flagOf_zero _ _) rfl rfl]
    split <;> rfl
  have hcopy : copyLen a b (digitsAsked baoliu) =
      b.len + digitsAsked baoliu - firstDigits b.whole (head a b) := rfl
  have htwo : 2 ≤ digitsAsked baoliu := Nat.le_add_left _ _
  have hnb := hb.nonzero
  have hmax : mallocMax / sizeofNumWidth = 2305843009213693951 := by decide
  have hlenMax : lenMax = 18446744073709551615 := by decide
  unfold CopyFits chu
  rw [if_neg (not_or.mpr ⟨ha.nonzero, hnb⟩),
    show (baoliu - 1) / wei + 2 = digitsAsked baoliu from rfl]
  dsimp only
  by_cases hasked : (digitsAsked baoliu : ℤ) > mallocMax / sizeofNumWidth
  · rw [if_pos hasked]
    exact .inl ⟨by omega, _, rfl⟩
  by_cases hsum : (b.len : ℤ) + digitsAsked baoliu > lenMax
  · rw [if_neg hasked, if_pos hsum]
    exact .inl ⟨by omega, _, rfl⟩
  rw [if_neg hasked, if_neg hsum, hflag, ok_bind, hlen]
  by_cases hsize : (copyLen a b (digitsAsked baoliu) : ℤ) > mallocMax / sizeofNumWidth
  · rw [if_pos hsize]
    exact .inl ⟨by omega, _, rfl⟩
  rw [if_neg hsize]
  refine .inr ⟨by omega, ?_⟩
  congr 1
  funext copy
  have hbounds : -2 ^ 62 - 2 ^ 61 ≤ (a.len : ℤ) - b.len + a.floatSegment - b.floatSegment -
      digitsAsked baoliu + (if flagOf b.whole (head a b) = 0 then 0 else 1) ∧
      (a.len : ℤ) - b.len + a.floatSegment - b.floatSegment -
      digitsAsked baoliu + (if flagOf b.whole (head a b) = 0 then 0 else 1) < 2 ^ 62 := by
    have hra := ha.range
    have hrb := hb.range
    split <;> omega
  have hsegment : (a.len : ℤ) - b.len + a.floatSegment - b.floatSegment -
      digitsAsked baoliu + (if flagOf b.whole (head a b) = 0 then 0 else 1) =
      quotientSegment a b (digitsAsked baoliu) + offsetBorrow a b := by
    unfold quotientSegment firstDigits
    rw [if_congr (flagOf_zero _ _) rfl rfl]
    split <;> push_cast <;> ring
  rw [hsegment] at hbounds ⊢
  rw [Int.bmod_eq_of_le (by omega) (by omega)]
  have hread : readAll b.num b.len = .ok b.num := by
    rw [readAll_ok hb.array.ge, List.take_of_length_le hb.array.le]
  have hroom : ¬(b.len ≥ 3 ∧ (b.len : ℤ) > mallocMax / sizeofNumWidth - 1) := by omega
  unfold offsetBorrow at *
  by_cases ho : a.floatOffset ≥ b.floatOffset
  · rw [if_pos ho] at hbounds ⊢
    rw [if_pos ho, Nat.cast_zero, add_zero, pure_bind]
    dsimp only
    rw [hread, ok_bind, if_neg hroom]
    rfl
  · rw [if_neg ho] at hbounds ⊢
    rw [if_neg ho, Nat.cast_one, add_sub_cancel_right, i64_ok (by omega) (by omega), ok_bind,
      pure_bind]
    dsimp only
    rw [hread, ok_bind, if_neg hroom]
    rfl

/-- The quotient cut off after `cishu` words, the first of which is not zero. -/
structure Truncated (a b : Num) (cishu : ℕ) (r : Num) : Prop where
  sign : r.isNegative = (a.isNegative ^^ b.isNegative)
  count : r.len = cishu ∧ r.num.length = r.len
  digits : Digits base r.num
  leading : ∃ w, r.num[r.len - 1]? = some w ∧ w ≠ 0
  value : r.magnitude ≤ a.magnitude / b.magnitude ∧
    a.magnitude / b.magnitude < r.magnitude + 10 ^ (6 * r.floatSegment + r.floatOffset)

def Truncates (a b : Num) (baoliu : ℕ) : Prop :=
  ∀ result, ∃ r, chu a b baoliu result = .ok r ∧ Truncated a b (digitsAsked baoliu) r

/-- The working copy can be allocated and holds the dividend, its first words hold the divisor less
than a million times, and no estimate is off by more than one. -/
structure Divisible (a b : Num) (cishu : ℕ) : Prop where
  size : CopyFits a b cishu
  holds : a.len ≤ copyLen a b cishu
  leading : b.whole ≤ firstWindow a b cishu ∧ firstWindow a b cishu < b.whole * base
  first : FirstEstimate b.whole (head a b) b.len
  estimates : Estimates b.whole (dividend a b cishu) b.len (copyLen a b cishu - b.len)

/-- The first word of the quotient comes from the first words of the dividend. -/
theorem window_iff (hb : 0 < b.whole) (hc : 2 ≤ c) :
    b.whole ≤ firstWindow a b c ∧ firstWindow a b c < b.whole * base ↔
      base ^ (c - 1) ≤ dividend a b c / b.whole ∧ dividend a b c / b.whole < base ^ c := by
  have hpow : (0 : ℤ) < base ^ (c - 1) := pow_pos base_pos _
  obtain ⟨k, rfl⟩ := Nat.exists_eq_add_of_le' (show 1 ≤ c by omega)
  unfold firstWindow
  rw [Int.le_ediv_iff_mul_le hpow, Int.ediv_lt_iff_lt_mul hpow, Int.le_ediv_iff_mul_le hb,
    Int.ediv_lt_iff_lt_mul hb, Nat.add_sub_cancel, mul_comm b.whole, pow_succ]
  have hscale : b.whole * base * base ^ k = base ^ k * base * b.whole := by ring
  rw [hscale]

/-- A top word that is not zero. -/
theorem leading_iff {qs : List ℤ} (hd : Digits base qs) (hpos : 0 < qs.length) :
    (∃ w, qs[qs.length - 1]? = some w ∧ w ≠ 0) ↔ base ^ (qs.length - 1) ≤ radix base qs := by
  obtain ⟨us, w, rfl⟩ := (List.eq_nil_or_concat' qs).resolve_left (List.ne_nil_of_length_pos hpos)
  obtain ⟨hus, hw⟩ := Digits.append_iff.mp hd
  have hword := (Digits.cons_iff.mp hw).1
  rw [List.length_append, List.length_singleton, Nat.add_sub_cancel, radix_append, radix_singleton]
  have hget : (us ++ [w])[us.length]? = some w := by simp
  have hlt := hus.lt_pow
  have hnn := hus.nonneg
  have hpow : (0 : ℤ) ≤ base ^ us.length := (pow_pos base_pos _).le
  constructor
  · rintro ⟨v, hv, hne⟩
    rw [hget] at hv
    obtain rfl := Option.some.inj hv
    have := Int.mul_le_mul_of_nonneg_left (show 1 ≤ w by omega) hpow
    omega
  · intro hle
    refine ⟨w, hget, ?_⟩
    rintro rfl
    rw [mul_zero] at hle
    omega

/-- A quotient cut off. -/
theorem floor_iff {w D b : ℤ} {u : ℚ} (hb : 0 < b) (hu : 0 < u) :
    (w : ℚ) * u ≤ D / b * u ∧ (D : ℚ) / b * u < w * u + u ↔ w = D / b := by
  have hb' : (0 : ℚ) < b := Int.cast_pos.mpr hb
  have hnext : (w : ℚ) * u + u = ((w + 1 : ℤ) : ℚ) * u := by
    push_cast
    ring
  rw [hnext, mul_le_mul_iff_left₀ hu, mul_lt_mul_iff_left₀ hu, le_div_iff₀ hb', div_lt_iff₀ hb']
  rw [← Int.cast_mul, ← Int.cast_mul, Int.cast_le, Int.cast_lt, ← Int.le_ediv_iff_mul_le hb,
    ← Int.ediv_lt_iff_lt_mul hb]
  omega

/-- The quotient in units of the last word asked for. -/
theorem quotient_value (ha : Operand a) (hb : Operand b) (hc : 2 ≤ c)
    (hholds : a.len ≤ copyLen a b c) :
    a.magnitude / b.magnitude = (dividend a b c : ℚ) / b.whole * 10 ^ (6 * quotientSegment a b c +
      ((a.floatOffset + wei * offsetBorrow a b - b.floatOffset : ℕ) : ℤ)) := by
  have hone := firstDigits_le b.whole (head a b)
  have hoa := ha.offset
  have hob := hb.offset
  have hcopy : (copyLen a b c : ℤ) = b.len + c - firstDigits b.whole (head a b) := by
    unfold copyLen
    omega
  have hexp : 6 * quotientSegment a b c +
      ((a.floatOffset + wei * offsetBorrow a b - b.floatOffset : ℕ) : ℤ) =
      6 * a.floatSegment + a.floatOffset - (6 * b.floatSegment + b.floatOffset) -
        (6 * (copyLen a b c - a.len : ℕ) : ℕ) := by
    unfold wei at *
    unfold quotientSegment offsetBorrow
    split <;> omega
  have hten : (10 : ℚ) ≠ 0 := by norm_num
  have hbase : (base : ℚ) ^ (copyLen a b c - a.len) = 10 ^ (6 * (copyLen a b c - a.len)) := by
    rw [pow_mul]
    unfold base
    norm_num
  rw [hexp, zpow_sub₀ hten, zpow_sub₀ hten, zpow_natCast, Num.magnitude, Num.magnitude, dividend,
    Int.cast_mul, Int.cast_pow, hbase]
  have hwhole : (b.whole : ℚ) ≠ 0 := Int.cast_ne_zero.mpr hb.whole_pos.ne'
  have hpow₁ := zpow_ne_zero (6 * b.floatSegment + b.floatOffset) hten
  have hpow₂ := pow_ne_zero (6 * (copyLen a b c - a.len)) hten
  field_simp

/-- What `chu` leaves, given its words. -/
def quotientNum (a b : Num) (cishu : ℕ) (qs : List ℤ) : Num :=
  ⟨qs, a.isNegative ^^ b.isNegative, quotientSegment a b cishu,
    a.floatOffset + wei * offsetBorrow a b - b.floatOffset, cishu⟩

theorem truncated_iff {qs : List ℤ} (ha : Operand a) (hb : Operand b) (hc : 2 ≤ c)
    (hholds : a.len ≤ copyLen a b c) (hd : Digits base qs) (hlen : qs.length = c) :
    Truncated a b c (quotientNum a b c qs) ↔
      radix base qs = dividend a b c / b.whole ∧ base ^ (c - 1) ≤ radix base qs := by
  have hten : (0 : ℚ) < 10 := by norm_num
  have hmag : (quotientNum a b c qs).magnitude = (radix base qs : ℚ) *
      10 ^ (6 * quotientSegment a b c +
        ((a.floatOffset + wei * offsetBorrow a b - b.floatOffset : ℕ) : ℤ)) := by
    rw [Num.magnitude, Num.whole]
    change ((radix base (qs.take c) : ℤ) : ℚ) * _ = _
    rw [List.take_of_length_le hlen.le]
    rfl
  have hfloor := floor_iff (w := radix base qs) (D := dividend a b c) hb.whole_pos
    (zpow_pos hten (6 * quotientSegment a b c +
      ((a.floatOffset + wei * offsetBorrow a b - b.floatOffset : ℕ) : ℤ)))
  rw [← quotient_value ha hb hc hholds, ← hmag] at hfloor
  have hleading := leading_iff hd (by omega)
  rw [hlen] at hleading
  constructor
  · intro h
    exact ⟨hfloor.mp h.value, hleading.mp h.leading⟩
  · rintro ⟨hval, hlead⟩
    exact ⟨rfl, ⟨rfl, hlen⟩, hd, hleading.mpr hlead, hfloor.mpr hval⟩

/-- The highest words make no more than a digit. -/
theorem head_lt {c : ℤ} (hc : 0 < c) (hlow : Digits base low)
    (h : radix base (low ++ ws) / c < base ^ (low.length + firstDigits c (radix base ws))) :
    radix base ws < c * base := by
  unfold firstDigits at h
  rcases lt_or_ge (radix base ws) c with hbelow | hge
  · exact hbelow.trans_le (le_mul_of_one_le_right hc.le (by decide))
  · rw [if_neg (not_lt.mpr hge), Int.ediv_lt_iff_lt_mul hc, radix_append] at h
    have hpow : (0 : ℤ) < base ^ low.length := pow_pos base_pos _
    refine lt_of_mul_lt_mul_left ?_ hpow.le
    calc base ^ low.length * radix base ws
        ≤ radix base low + base ^ low.length * radix base ws := by
          have := hlow.nonneg
          omega
      _ < base ^ (low.length + 1) * c := h
      _ = base ^ low.length * (c * base) := by
          rw [pow_succ]
          ring

theorem truncates_of_divisible {baoliu : ℕ} (ha : Operand a) (hb : Operand b)
    (h : Divisible a b (digitsAsked baoliu)) : Truncates a b baoliu := by
  intro result
  have htwo : 2 ≤ digitsAsked baoliu := Nat.le_add_left _ _
  have hone := firstDigits_le b.whole (head a b)
  have hcopyLen : copyLen a b (digitsAsked baoliu) =
      b.len + digitsAsked baoliu - firstDigits b.whole (head a b) := rfl
  rcases chu_eq ha hb baoliu result with ⟨hsize, -⟩ | ⟨-, hrun⟩
  · exact absurd h.size hsize
  obtain ⟨low, ws, hcopy, hlow, hws, hlowDigits, hwsDigits, hvalue, hhead⟩ :=
    chuCopy_ok (b := b) ha h.holds (by omega)
  have hestimates := h.estimates
  have hfirst := h.first
  have hleading := (window_iff hb.whole_pos htwo).mp h.leading
  unfold dividend at hestimates hleading
  rw [← hvalue, ← hlow] at hestimates
  rw [← hvalue] at hleading
  have hcount : digitsAsked baoliu = low.length + firstDigits b.whole (head a b) := by omega
  have hlt : head a b < b.whole * base := by
    rw [← hhead] at hcount ⊢
    exact head_lt hb.whole_pos hlowDigits (hcount ▸ hleading.2)
  have hbw := hb.whole_pos
  rw [hb.whole] at hcount hfirst hestimates hlt hbw hrun
  rw [← hb.array] at hfirst hestimates
  rw [← hhead] at hcount hfirst hlt hrun
  obtain ⟨qs, hqs, hqsLen, hqsDigits, hqsVal⟩ := chuDigits_ok hb.digits hb.ne_nil
    hbw hlowDigits hwsDigits (by rw [hws, hb.array]) hlt hfirst hestimates
  rw [hcopy, ok_bind, hcount, hqs, ok_bind, ← hcount] at hrun
  refine ⟨_, hrun, ?_⟩
  have hrev : Digits base qs.reverse := fun w hmem => hqsDigits w (List.mem_reverse.mp hmem)
  refine (truncated_iff ha hb htwo h.holds hrev (by rw [List.length_reverse, hqsLen, hcount])).mpr
    ⟨?_, ?_⟩
  · rw [hqsVal, hb.whole, dividend, hvalue]
  · rw [hqsVal, ← hb.whole]
    exact hleading.1

/-- A right quotient of a dividend that the working copy holds was estimated closely enough. -/
theorem divisible_of_truncates {baoliu : ℕ} (ha : Operand a) (hb : Operand b)
    (hholds : a.len ≤ copyLen a b (digitsAsked baoliu)) (h : Truncates a b baoliu) :
    Divisible a b (digitsAsked baoliu) := by
  have htwo : 2 ≤ digitsAsked baoliu := Nat.le_add_left _ _
  have hone := firstDigits_le b.whole (head a b)
  have hcopyLen : copyLen a b (digitsAsked baoliu) =
      b.len + digitsAsked baoliu - firstDigits b.whole (head a b) := rfl
  obtain ⟨r, hr, htr⟩ := h ⟨[], false, 0, 0, 0⟩
  rcases chu_eq ha hb baoliu ⟨[], false, 0, 0, 0⟩ with ⟨-, message, hrun⟩ | ⟨hsize, hrun⟩
  · rw [hrun] at hr
    cases hr
  obtain ⟨low, ws, hcopy, hlow, hws, hlowDigits, hwsDigits, hvalue, hhead⟩ :=
    chuCopy_ok (b := b) ha hholds (by omega)
  rw [hrun, hcopy, ok_bind] at hr
  obtain ⟨qs, hqs, hr⟩ := bind_ok.mp hr
  obtain rfl : quotientNum a b (digitsAsked baoliu) qs.reverse = r := Except.ok.inj hr
  have hlen : qs.reverse.length = digitsAsked baoliu := htr.count.2
  have hrev : Digits base qs.reverse := htr.digits
  have hdigits : Digits base qs := fun w hmem => hrev w (List.mem_reverse.mpr hmem)
  obtain ⟨hquot, hlead⟩ := (truncated_iff ha hb htwo hholds hrev hlen).mp htr
  have hcount : digitsAsked baoliu = low.length + firstDigits b.whole (head a b) := by omega
  have hdividend : dividend a b (digitsAsked baoliu) = radix base (low ++ ws) := hvalue.symm
  rw [List.length_reverse] at hlen
  have hupper := hrev.lt_pow
  rw [List.length_reverse, hlen, hquot] at hupper
  have hbw := hb.whole_pos
  rw [hb.whole] at hbw
  have hboth := estimates_of_chuDigits hb.digits hb.ne_nil hbw hlowDigits hwsDigits
    (by rw [hws, hb.array]) (by rw [hhead, ← hb.whole, ← hcount, hqs])
    (by rw [hhead, ← hb.whole, hlen, hcount]) hdigits (by rw [hquot, hdividend, hb.whole])
  rw [hhead, ← hb.whole, hb.array, ← hdividend, hlow] at hboth
  exact ⟨hsize, hholds, (window_iff hb.whole_pos htwo).mpr ⟨hquot ▸ hlead, hupper⟩, hboth.1,
    hboth.2⟩

/-- The division of a number with a first word by one with a first word of at least 2. -/
theorem divisible_of_full (ha : Operand a) (hb : Operand b) (hc : 2 ≤ c) (hsize : CopyFits a b c)
    (hholds : a.len ≤ copyLen a b c) (hfull : base ^ (a.len - 1) ≤ a.whole)
    (hfull' : 2 * base ^ (b.len - 1) ≤ b.whole) : Divisible a b c := by
  have hbpos := hb.whole_pos
  have hnb := hb.nonzero
  have hna := ha.nonzero
  have hbase := base_pos
  have hone := firstDigits_le b.whole (head a b)
  have hcopyLen : copyLen a b c = b.len + c - firstDigits b.whole (head a b) := rfl
  have hA := ha.digits.lt_pow
  have hA₀ := ha.digits.nonneg
  rw [ha.array, ← ha.whole] at hA
  rw [← ha.whole] at hA₀
  have hB := hb.digits.lt_pow
  rw [hb.array, ← hb.whole] at hB
  have hpow (k : ℕ) : (0 : ℤ) < base ^ k := pow_pos base_pos k
  have hhead : head a b < base ^ b.len := by
    refine Int.ediv_lt_of_lt_mul (hpow _) ?_
    rw [mul_comm]
    exact mul_lt_mul_of_pos_left hA (hpow _)
  have hhead₀ : 0 ≤ head a b := Int.ediv_nonneg (mul_nonneg hA₀ (hpow _).le) (hpow _).le
  have htop := head_eq a b hholds (by omega)
  refine ⟨hsize, hholds, ?_, fun _ => ?_, fun k _ => ?_⟩
  · unfold firstWindow dividend
    rcases lt_or_ge (head a b) b.whole with hbelow | hge
    · have hnone : firstDigits b.whole (head a b) = 0 := if_pos hbelow
      rw [hcopyLen, hnone, Nat.sub_zero] at htop hholds ⊢
      rw [Nat.add_sub_cancel_left] at htop
      constructor
      · rw [Int.le_ediv_iff_mul_le (hpow _)]
        calc b.whole * base ^ (c - 1)
            ≤ base ^ b.len * base ^ (c - 1) := mul_le_mul_of_nonneg_right hB.le (hpow _).le
          _ = base ^ (a.len - 1) * base ^ (b.len + c - a.len) := by
              rw [← pow_add, ← pow_add]
              congr 1
              omega
          _ ≤ a.whole * base ^ (b.len + c - a.len) :=
              mul_le_mul_of_nonneg_right hfull (hpow _).le
      · rw [← htop, Int.ediv_lt_iff_lt_mul (hpow _)] at hbelow
        rw [Int.ediv_lt_iff_lt_mul (hpow _), mul_assoc, ← pow_succ',
          Nat.sub_add_cancel (show 1 ≤ c by omega)]
        exact hbelow
    · have hfirst : firstDigits b.whole (head a b) = 1 := if_neg (not_lt.mpr hge)
      rw [hcopyLen, hfirst] at htop ⊢
      rw [show b.len + c - 1 - b.len = c - 1 by omega] at htop
      rw [htop]
      refine ⟨hge, hhead.trans_le ?_⟩
      calc base ^ b.len = base ^ (b.len - 1) * base := by
            rw [← pow_succ, Nat.sub_add_cancel (show 1 ≤ b.len by omega)]
        _ ≤ b.whole * base := by
            refine mul_le_mul_of_nonneg_right ?_ hbase.le
            have := hpow (b.len - 1)
            omega
  · by_cases hlen : b.len ≤ 3
    · exact .inl hlen
    · refine .inr (close_of_large hhead₀ hbpos (hpow _) ?_)
      have hV : 2 * base ^ 2 ≤ b.whole / base ^ (b.len - 3) := by
        rw [Int.le_ediv_iff_mul_le (hpow _), mul_assoc, ← pow_add]
        rwa [show 2 + (b.len - 3) = b.len - 1 by omega]
      have hT : head a b / base ^ (b.len - 3) < base ^ 3 := by
        refine Int.ediv_lt_of_lt_mul (hpow _) ?_
        rwa [← pow_add, show 3 + (b.len - 3) = b.len by omega]
      calc head a b / base ^ (b.len - 3) < base ^ 3 := hT
        _ ≤ 2 * base ^ 2 * (2 * base ^ 2) := by decide
        _ ≤ _ := mul_le_mul hV hV (by decide) (le_trans (by decide) hV)
  · by_cases hlen : b.len ≤ 2
    · exact .inl hlen
    · refine .inr (close_of_large (Int.emod_nonneg _ (mul_pos hbpos hbase).ne') hbpos (hpow _) ?_)
      have hX := Int.emod_lt_of_pos (dividend a b c / base ^ k) (mul_pos hbpos hbase)
      generalize dividend a b c / base ^ k % (b.whole * base) = X at *
      have hV : 2 * base ≤ b.whole / base ^ (b.len - 2) := by
        rw [Int.le_ediv_iff_mul_le (hpow _), mul_assoc, ← pow_succ']
        rwa [show b.len - 2 + 1 = b.len - 1 by omega]
      have hnext := Int.lt_ediv_add_one_mul_self b.whole (hpow (b.len - 2))
      generalize b.whole / base ^ (b.len - 2) = V at *
      have hT : X / base ^ (b.len - 2) < (V + 1) * base := by
        refine Int.ediv_lt_of_lt_mul (hpow _) (hX.trans ?_)
        calc b.whole * base < (V + 1) * base ^ (b.len - 2) * base :=
              mul_lt_mul_of_pos_right hnext hbase
          _ = (V + 1) * base * base ^ (b.len - 2) := by ring
      calc X / base ^ (b.len - 2) < (V + 1) * base := hT
        _ ≤ V * (2 * base) := by
          have : 1 * base ≤ V * base := mul_le_mul_of_nonneg_right (by omega) hbase.le
          linarith
        _ ≤ V * V := mul_le_mul_of_nonneg_left hV (by omega)

/-- `chu` truncates where its working copy holds the dividend, the quotient begins with the first
word and every estimate is at most one too large; with a dividend that the copy holds, only
there. -/
theorem truncates_iff {baoliu : ℕ} (ha : Produced 3 a) (hb : Produced 3 b) (hna : a.len ≠ 0)
    (hnb : b.len ≠ 0) (_hbaoliu : 1 ≤ baoliu) :
    (Divisible a b (digitsAsked baoliu) → Truncates a b baoliu) ∧
      (a.len ≤ copyLen a b (digitsAsked baoliu) → Truncates a b baoliu →
        Divisible a b (digitsAsked baoliu)) :=
  ⟨truncates_of_divisible (ha.operand hna) (hb.operand hnb),
    divisible_of_truncates (ha.operand hna) (hb.operand hnb)⟩

/-- 7 divided by 2. -/
theorem truncates_iff_sample :
    Truncates ⟨[700000], false, -1, 1, 1⟩ ⟨[200000], false, -1, 1, 1⟩ 1 := by
  have hseven : Produced 3 ⟨[700000], false, -1, 1, 1⟩ :=
    ⟨"7".toList, ⟨[], false, 0, 0, 0⟩, by decide, by decide, by decide⟩
  have htwo : Produced 3 ⟨[200000], false, -1, 1, 1⟩ :=
    ⟨"2".toList, ⟨[], false, 0, 0, 0⟩, by decide, by decide, by decide⟩
  refine (truncates_iff hseven htwo (by decide) (by decide) (le_refl 1)).1 ?_
  exact divisible_of_full (hseven.operand (by decide)) (htwo.operand (by decide)) (by decide)
    (by unfold CopyFits; decide) (by decide) (by decide) (by decide)

/-- 3.0000000000001 divided by 2 is found to be 0, and 1 divided by 0.0000000000001 divides by
zero. -/
theorem quotients_wrong :
    (∃ a b : Num, Produced 3 a ∧ Produced 3 b ∧ a.len ≠ 0 ∧ b.len ≠ 0 ∧
      (∃ r, chu a b 1 ⟨[], false, 0, 0, 0⟩ = .ok r ∧ r.num = [0, 0]) ∧ ¬Truncates a b 1) ∧
    ∃ a b : Num, Produced 3 a ∧ Produced 3 b ∧ a.len ≠ 0 ∧ b.len ≠ 0 ∧
      chu a b 1 ⟨[], false, 0, 0, 0⟩ = .error .fault ∧ ¬Truncates a b 1 := by
  constructor
  · have hrun : chu ⟨[10000, 0, 300000], false, -3, 1, 3⟩ ⟨[200000], false, -1, 1, 1⟩ 1
        ⟨[], false, 0, 0, 0⟩ = .ok ⟨[0, 0], false, -1, 0, 2⟩ := by decide
    refine ⟨_, _, ⟨"3.0000000000001".toList, ⟨[], false, 0, 0, 0⟩, by decide, by decide, by decide⟩,
      ⟨"2".toList, ⟨[], false, 0, 0, 0⟩, by decide, by decide, by decide⟩, by decide, by decide,
      ⟨_, hrun, rfl⟩, fun h => ?_⟩
    obtain ⟨r, hr, htr⟩ := h ⟨[], false, 0, 0, 0⟩
    rw [hrun] at hr
    obtain rfl := Except.ok.inj hr
    obtain ⟨w, hw, hne⟩ := htr.leading
    exact hne (Option.some.inj hw).symm
  · have hrun : chu ⟨[100000], false, -1, 1, 1⟩ ⟨[100000, 0, 0], false, -3, 0, 3⟩ 1
        ⟨[], false, 0, 0, 0⟩ = .error .fault := by decide
    refine ⟨_, _, ⟨"1".toList, ⟨[], false, 0, 0, 0⟩, by decide, by decide, by decide⟩,
      ⟨"0.0000000000001".toList, ⟨[], false, 0, 0, 0⟩, by decide, by decide, by decide⟩, by decide,
      by decide, hrun, fun h => ?_⟩
    obtain ⟨r, hr, -⟩ := h ⟨[], false, 0, 0, 0⟩
    rw [hrun] at hr
    cases hr

end MyosIo.Calc
