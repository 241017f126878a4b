import MyosIo.Calc.Numeral
import MyosIo.Calc.Sum

/-! Every layout writes the words of the number with the point where the exponent says; the zero
that has no words is read past its array. -/
namespace MyosIo.Calc

variable {cs ds : List Char} {num : List ℤ} {a : Num} {u v w : ℤ} {lo n : ℕ}

/-- Digits that denote `v`. -/
structure Writes (cs : List Char) (v : ℤ) : Prop where
  digits : AllDigits cs
  value : (decimal cs : ℤ) = v

theorem Writes.append (h : Writes cs u) (h' : Writes ds v) :
    Writes (cs ++ ds) (u * 10 ^ ds.length + v) := by
  refine ⟨AllDigits.append_iff.mpr ⟨h.digits, h'.digits⟩, ?_⟩
  rw [decimal_append, ← h.value, ← h'.value]
  push_cast
  rfl

theorem Writes.zeros (n : ℕ) : Writes (List.replicate n '0') 0 :=
  ⟨.zeros n, by rw [decimal_zeros]; rfl⟩

theorem lld_writes (h : 0 ≤ w ∧ w < base) :
    Writes (lld w) w ∧ 0 < (lld w).length ∧ (lld w).length ≤ 6 := by
  unfold lld
  rw [if_neg (by omega)]
  refine ⟨⟨.toDigits _, ?_⟩, Nat.length_toDigits_pos, ?_⟩
  · rw [decimal_toDigits, Int.toNat_of_nonneg h.1]
  · rw [Nat.length_toDigits_le_iff (by decide) (by decide)]
    unfold base at h
    omega

theorem lld6_writes (h : 0 ≤ w ∧ w < base) : Writes (lld6 w) w ∧ (lld6 w).length = 6 := by
  have hlen : (Nat.toDigits 10 w.natAbs).length ≤ 6 := by
    rw [Nat.length_toDigits_le_iff (by decide) (by decide)]
    unfold base at h
    omega
  unfold lld6 wei
  rw [if_neg (by omega), List.nil_append]
  refine ⟨⟨AllDigits.append_iff.mpr ⟨.zeros _, .toDigits _⟩, ?_⟩, ?_⟩
  · rw [decimal_zeros_append, decimal_toDigits, Int.natAbs_of_nonneg h.1]
  · rw [List.length_append, List.length_replicate]
    omega

/-- The last of the words `lo`, …, `lo + n`. -/
theorem take_drop_succ (h : num[lo + n]? = some w) :
    (num.drop lo).take (n + 1) = (num.drop lo).take n ++ [w] := by
  rw [List.take_add_one, List.getElem?_drop, h]
  rfl

theorem printWords_ok (hd : Digits base ((num.drop lo).take n)) (hn : lo + n ≤ num.length) :
    ∃ cs, printWords num lo n = .ok cs ∧ cs.length = 6 * n ∧
      Writes cs (radix base ((num.drop lo).take n)) := by
  induction n with
  | zero => exact ⟨[], rfl, rfl, .nil, rfl⟩
  | succ n ih =>
    obtain ⟨w, hw⟩ : ∃ w, num[lo + n]? = some w := ⟨_, List.getElem?_eq_getElem (by omega)⟩
    rw [take_drop_succ hw, Digits.append_iff, Digits.cons_iff] at hd
    obtain ⟨cs, hrun, hlen, hwrites⟩ := ih hd.1 (by omega)
    obtain ⟨hword, hsix⟩ := lld6_writes hd.2.1
    have hcount : ((num.drop lo).take n).length = n :=
      List.length_take_of_le (by rw [List.length_drop]; omega)
    refine ⟨lld6 w ++ cs, ?_, ?_, ?_⟩
    · have hread : read num ((lo : ℤ) + n) = .ok w := by
        rw [← Nat.cast_add]
        exact read_ok hw
      rw [printWords, hread, ok_bind, hrun, ok_bind]
    · rw [List.length_append, hsix, hlen]
      omega
    · have hall := hword.append hwrites
      have hbase : base ^ n = 10 ^ cs.length := by
        rw [hlen, pow_mul]
        rfl
      rwa [take_drop_succ hw, radix_append, radix_singleton, hcount, hbase, add_comm, mul_comm]

/-- The lowest `n` words. -/
theorem printLow_ok (ha : a.WellFormed) (hn : n ≤ a.len) :
    ∃ cs, printWords a.num 0 n = .ok cs ∧ cs.length = 6 * n ∧
      Writes cs (radix base (a.num.take n)) := by
  have hd := ha.digits.take n
  rw [List.take_take, Nat.min_eq_left hn] at hd
  exact printWords_ok hd (by have := ha.array; omega)

/-- A word of the number. -/
theorem Num.WellFormed.word (ha : a.WellFormed) (hn : n < a.len) :
    ∃ w, a.num[n]? = some w ∧ 0 ≤ w ∧ w < base := by
  have hn' : n < a.num.length := lt_of_lt_of_le hn ha.array
  refine ⟨a.num[n], List.getElem?_eq_getElem hn', ha.digits _ ?_⟩
  exact List.mem_take_iff_getElem.mpr ⟨n, by omega, rfl⟩

/-- The top word above the others. -/
theorem Num.WellFormed.whole_top (ha : a.WellFormed) (hn : a.len = n + 1)
    (hw : a.num[n]? = some w) : a.whole = radix base (a.num.take n) + base ^ n * w := by
  have hcount : (a.num.take n).length = n :=
    List.length_take_of_le (by have := ha.array; omega)
  rw [Num.whole, hn, List.take_add_one, hw]
  change radix base (a.num.take n ++ [w]) = _
  rw [radix_append, radix_singleton, hcount]

theorem sprintf_ok (h : cs.length ≤ 6) : sprintf cs = .ok cs := if_pos h

theorem base_pow_length (h : cs.length = 6 * n) : base ^ n = 10 ^ cs.length := by
  rw [h, pow_mul]
  rfl

/-- A text with a point that shows the number's digits, `f` of them after it. -/
def Pointed (a : Num) (text : List Char) (f : ℤ) : Prop :=
  ∃ ds fs, text = ds ++ '.' :: fs ∧ ds ≠ [] ∧ Writes (ds ++ fs) a.whole ∧ (fs.length : ℤ) = f

theorem printPoint_before {segment : ℕ} (ha : a.WellFormed)
    (h : segment > a.len ∨ segment = a.len ∧ a.floatOffset = 0) :
    ∃ text, printPoint a segment = .ok text ∧ Pointed a text
      ((((segment : ℤ) - a.len) * wei - a.floatOffset) % 2 ^ 64 + 6 * a.len) := by
  obtain ⟨cs, hrun, hlen, hwrites⟩ := printLow_ok ha le_rfl
  unfold printPoint
  rw [if_pos h]
  dsimp only
  rw [hrun, ok_bind]
  generalize hz : (((segment : ℤ) - a.len) * wei - a.floatOffset) % 2 ^ 64 = z
  have hz₀ : 0 ≤ z := hz ▸ Int.emod_nonneg _ (by decide)
  refine ⟨_, rfl, ['0'], List.replicate z.toNat '0' ++ cs, rfl, by simp, ?_, ?_⟩
  · have hall := ((Writes.zeros 1).append (.zeros z.toNat)).append hwrites
    rw [zero_mul, zero_add, zero_mul, zero_add] at hall
    rwa [List.append_assoc] at hall
  · rw [List.length_append, List.length_replicate, hlen]
    omega

theorem printPoint_top {segment : ℕ} (ha : a.WellFormed) (h : segment = a.len)
    (hne : a.len ≠ 0) (ho : a.floatOffset < wei) (hoff : a.floatOffset ≠ 0) :
    ∃ text, printPoint a segment = .ok text ∧ Pointed a text (6 * segment - a.floatOffset) := by
  obtain ⟨n, hn⟩ := Nat.exists_eq_succ_of_ne_zero hne
  obtain ⟨top, htop, hdigit⟩ := ha.word (n := n) (by omega)
  obtain ⟨cs, hrun, hlen, hwrites⟩ := printLow_ok (n := n) ha (by omega)
  obtain ⟨hword, hpos, hsix⟩ := lld_writes hdigit
  have hall : Writes (lld top ++ cs) a.whole := by
    rw [ha.whole_top hn htop, add_comm, mul_comm, base_pow_length hlen]
    exact hword.append hwrites
  have hread : read a.num ((a.len : ℤ) - 1) = .ok top := by
    rw [hn, Nat.cast_succ, add_sub_cancel_right]
    exact read_ok htop
  unfold wei at ho
  unfold printPoint
  rw [if_neg (by omega), hread, ok_bind, if_pos h, sprintf_ok hsix, ok_bind, hn,
    Nat.succ_sub_one, hrun, ok_bind]
  unfold wei
  split
  next hshort =>
    refine ⟨_, rfl, ['0'],
      List.replicate (6 - a.floatOffset - (lld top).length) '0' ++ lld top ++ cs,
      rfl, by simp, ?_, ?_⟩
    · have hzeros := (Writes.zeros (1 + (6 - a.floatOffset - (lld top).length))).append hall
      rw [zero_mul, zero_add, List.replicate_add, List.append_assoc] at hzeros
      rw [List.append_assoc]
      exact hzeros
    · rw [List.length_append, List.length_append, List.length_replicate, hlen]
      omega
  next hlong =>
    dsimp only
    generalize hcut : (lld top).length + a.floatOffset - 6 = cut
    refine ⟨_, rfl, (lld top).take cut, (lld top).drop cut ++ cs, rfl, ?_, ?_, ?_⟩
    · exact List.ne_nil_of_length_pos (by rw [List.length_take]; omega)
    · rwa [← List.append_assoc, List.take_append_drop]
    · rw [List.length_append, List.length_drop, hlen]
      omega

theorem printPoint_inside {segment : ℕ} (ha : a.WellFormed) (h : segment < a.len)
    (hpos : 0 < segment) (ho : a.floatOffset < wei) :
    ∃ text, printPoint a segment = .ok text ∧ Pointed a text (6 * segment - a.floatOffset) := by
  obtain ⟨m, rfl⟩ := Nat.exists_eq_succ_of_ne_zero hpos.ne'
  obtain ⟨k, hk⟩ : ∃ k, a.len = m + 1 + k + 1 := ⟨a.len - m - 2, by omega⟩
  obtain ⟨top, htop, hdigit⟩ := ha.word (n := m + 1 + k) (by omega)
  obtain ⟨split, hsplit, hdigit'⟩ := ha.word (n := m) (by omega)
  obtain ⟨low, hlow, hlowLen, hlowWrites⟩ := printLow_ok (n := m) ha (by omega)
  have harray := ha.array
  have hd : Digits base ((a.num.drop (m + 1)).take k) := by
    have hall := (ha.digits.take (m + 1 + k)).drop (m + 1)
    rwa [List.take_take, Nat.min_eq_left (by omega), List.drop_take,
      Nat.add_sub_cancel_left] at hall
  obtain ⟨high, hhigh, hhighLen, hhighWrites⟩ := printWords_ok hd (by omega)
  obtain ⟨hword, hposTop, -⟩ := lld_writes hdigit
  obtain ⟨hword', hsix⟩ := lld6_writes hdigit'
  have hall : Writes (lld top ++ high ++ lld6 split ++ low) a.whole := by
    have hlower := (hword.append hhighWrites).append hword' |>.append hlowWrites
    have hvalue : a.whole = ((top * 10 ^ high.length + radix base ((a.num.drop (m + 1)).take k)) *
        10 ^ (lld6 split).length + split) * 10 ^ low.length + radix base (a.num.take m) := by
      have hcount : (a.num.take (m + 1)).length = m + 1 := List.length_take_of_le (by omega)
      have hcount' : (a.num.take m).length = m := List.length_take_of_le (by omega)
      rw [ha.whole_top hk htop, List.take_add, radix_append, hcount, List.take_add_one, hsplit,
        Option.toList_some, radix_append, radix_singleton, hcount', hsix,
        ← base_pow_length hhighLen, ← base_pow_length hlowLen]
      have hbase : (10 : ℤ) ^ 6 = base := rfl
      rw [hbase, pow_add, pow_add]
      ring
    rwa [hvalue]
  have hread : read a.num ((a.len : ℤ) - 1) = .ok top := by
    rw [hk, Nat.cast_succ, add_sub_cancel_right]
    exact read_ok htop
  have hread' : read a.num (((m + 1 : ℕ) : ℤ) - 1) = .ok split := by
    rw [Nat.cast_succ, add_sub_cancel_right]
    exact read_ok hsplit
  unfold wei at ho
  unfold printPoint
  rw [if_neg (by omega), hread, ok_bind, if_neg (by omega), hk, Nat.add_sub_cancel,
    Nat.add_sub_cancel_left, hhigh, ok_bind, hread', ok_bind, sprintf_ok hsix.le, ok_bind,
    Nat.succ_sub_one, hlow, ok_bind]
  refine ⟨_, rfl, lld top ++ high ++ (lld6 split).take a.floatOffset,
    (lld6 split).drop a.floatOffset ++ low, rfl, ?_, ?_, ?_⟩
  · exact List.ne_nil_of_length_pos (by rw [List.length_append, List.length_append]; omega)
  · rwa [List.append_assoc _ _ (_ ++ low), ← List.append_assoc _ _ low, List.take_append_drop,
      ← List.append_assoc]
  · rw [List.length_append, List.length_drop, hsix, hlowLen]
    push_cast
    omega

/-- The digits `printPoint` writes after the point. -/
def fractionWidth (a : Num) (segment : ℕ) : ℤ :=
  if segment ≤ a.len then 6 * segment - a.floatOffset
  else (((segment : ℤ) - a.len) * wei - a.floatOffset) % 2 ^ 64 + 6 * a.len

theorem printPoint_ok (segment : ℕ) (ha : a.WellFormed) (hpos : 0 < segment)
    (ho : a.floatOffset < wei) :
    ∃ text, printPoint a segment = .ok text ∧ Pointed a text (fractionWidth a segment) := by
  unfold fractionWidth
  rcases lt_trichotomy segment a.len with hlt | heq | hgt
  · rw [if_pos hlt.le]
    exact printPoint_inside ha hlt hpos ho
  · rw [if_pos heq.le]
    by_cases hoff : a.floatOffset = 0
    · obtain ⟨text, hrun, htext⟩ := printPoint_before ha (.inr ⟨heq, hoff⟩)
      rw [heq, hoff, sub_self, zero_mul, Nat.cast_zero, sub_zero, Int.zero_emod, zero_add] at htext
      rw [heq, hoff, Nat.cast_zero, sub_zero]
      exact ⟨text, heq ▸ hrun, htext⟩
    · exact printPoint_top ha heq (by omega) ho hoff
  · rw [if_neg (by omega)]
    exact printPoint_before ha (.inl hgt)

/-- Without a point: the words and the zeros of the exponent. -/
theorem print_whole (ha : a.WellFormed) (hne : a.len ≠ 0) (hfs : 0 ≤ a.floatSegment) :
    ∃ text, print a = .ok ((if a.isNegative then ['-'] else []) ++ text) ∧ text ≠ [] ∧
      Writes text (a.whole * 10 ^ (a.floatSegment.toNat * 6 + a.floatOffset)) := by
  obtain ⟨n, hn⟩ := Nat.exists_eq_succ_of_ne_zero hne
  obtain ⟨top, htop, hdigit⟩ := ha.word (n := n) (by omega)
  obtain ⟨cs, hrun, hlen, hwrites⟩ := printLow_ok (n := n) ha (by omega)
  obtain ⟨hword, hpos, -⟩ := lld_writes hdigit
  have hall : Writes (lld top ++ cs) a.whole := by
    rw [ha.whole_top hn htop, add_comm, mul_comm, base_pow_length hlen]
    exact hword.append hwrites
  have hread : read a.num ((a.len : ℤ) - 1) = .ok top := by
    rw [hn, Nat.cast_succ, add_sub_cancel_right]
    exact read_ok htop
  unfold print
  rw [if_neg (by omega), if_neg (not_lt.mpr hfs), hread, ok_bind, hn, Nat.succ_sub_one, hrun,
    ok_bind]
  dsimp only
  rw [ok_bind]
  refine ⟨_, rfl, ?_, ?_⟩
  · exact List.ne_nil_of_length_pos (by simp only [List.length_append]; omega)
  · have hzeros := hall.append (.zeros (a.floatSegment.toNat * wei + a.floatOffset))
    rw [List.length_replicate, add_zero, List.replicate_add] at hzeros
    rw [List.append_assoc]
    exact hzeros

/-- With a point. -/
theorem print_pointed (ha : a.WellFormed) (ho : a.floatOffset < wei)
    (hmark : ¬(a.len = 0 ∧ a.isNegative)) (hfs : a.floatSegment < 0)
    (hmin : -2 ^ 63 < a.floatSegment) :
    ∃ text, print a = .ok ((if a.isNegative then ['-'] else []) ++ text) ∧
      Pointed a text (fractionWidth a (-a.floatSegment).toNat) := by
  obtain ⟨text, hrun, htext⟩ := printPoint_ok (-a.floatSegment).toNat ha (by omega) ho
  refine ⟨text, ?_, htext⟩
  unfold print
  rw [if_neg hmark, if_pos hfs, i64_ok (by omega) (by omega), ok_bind, hrun, ok_bind]

theorem read_cut {len : ℕ} {i : ℤ} (h : i < len) : read (num.take len) i = read num i := by
  unfold read
  split
  next h₀ => rw [List.getElem?_take_of_lt (by omega)]
  next => rfl

theorem printWords_cut {len : ℕ} (h : lo + n ≤ len) :
    printWords (num.take len) lo n = printWords num lo n := by
  induction n with
  | zero => rfl
  | succ n ih => rw [printWords, printWords, read_cut (by omega), ih (by omega)]

theorem printPoint_cut (a : Num) (segment : ℕ) :
    printPoint { a with num := a.num.take a.len } segment = printPoint a segment := by
  unfold printPoint
  dsimp only
  split
  next => rw [printWords_cut (by omega)]
  next hin =>
    rw [read_cut (by omega)]
    congr 1
    funext top
    split
    next => rw [printWords_cut (by omega)]
    next hne =>
      rw [printWords_cut (by omega), read_cut (by omega), printWords_cut (by omega)]

/-- What lies in the array from `len` on makes no difference. -/
theorem print_cut (a : Num) :
    print { a with num := a.num.take a.len } = print a := by
  unfold print
  dsimp only
  by_cases hfs : a.floatSegment < 0
  · rw [if_pos hfs, if_pos hfs]
    cases hseg : i64 (-a.floatSegment) with
    | error e => rfl
    | ok segment =>
      rw [ok_bind, ok_bind, printPoint_cut]
  · rw [if_neg hfs, if_neg hfs, read_cut (by omega), printWords_cut (by omega)]

/-- A numeral for the magnitude after the sign, or the error of a division by zero; nothing is
read outside the number's words. -/
def Prints (a : Num) : Prop :=
  if a.len = 0 ∧ a.isNegative then print a = .error (.exit "error\n")
  else print { a with num := a.num.take a.len } = print a ∧
    ∃ text, print a = .ok ((if a.isNegative then ['-'] else []) ++ text) ∧ Numeral text ∧
      denoted text = a.magnitude

/-- What `print` gets right: a number with words or with a point, and a point that is not too far
away to be counted in an `int64_t` and, unless the number is zero, in a `uint64_t`. -/
def Printable (a : Num) : Prop :=
  a.len = 0 ∧ a.isNegative = true ∨
    (a.len ≠ 0 ∨ a.floatSegment < 0) ∧ (a.floatSegment < 0 → -2 ^ 63 < a.floatSegment ∧
      (6 * (-a.floatSegment - a.len) - a.floatOffset < 2 ^ 64 ∨ a.whole = 0))

theorem Pointed.denotes {text : List Char} {f : ℤ} (h : Pointed a text f) :
    Numeral text ∧ denoted text = a.whole * 10 ^ (-f) := by
  obtain ⟨ds, fs, rfl, hne, hwrites, rfl⟩ := h
  have hdigits := AllDigits.append_iff.mp hwrites.digits
  refine ⟨.point hne hdigits.1 hdigits.2, ?_⟩
  rw [hdigits.1.denoted_point hdigits.2, zpow_neg, zpow_natCast, ← div_eq_mul_inv,
    ← hwrites.value, Int.cast_natCast]

/-- The point stands where the exponent says, or the number is zero. -/
theorem Pointed.denoted_eq_iff {text : List Char} {f : ℤ} (h : Pointed a text f) :
    denoted text = a.magnitude ↔ f = -(6 * a.floatSegment + a.floatOffset) ∨ a.whole = 0 := by
  rw [h.denotes.2, Num.magnitude, mul_eq_mul_left_iff, zpow_right_inj₀ (by norm_num) (by norm_num),
    Int.cast_eq_zero, neg_eq_iff_eq_neg]

theorem fractionWidth_eq_iff (hfs : a.floatSegment < 0) (ho : a.floatOffset < wei) :
    fractionWidth a (-a.floatSegment).toNat = -(6 * a.floatSegment + a.floatOffset) ↔
      6 * (-a.floatSegment - a.len) - a.floatOffset < 2 ^ 64 := by
  unfold wei at ho
  have hseg : ((-a.floatSegment).toNat : ℤ) = -a.floatSegment := Int.toNat_of_nonneg (by omega)
  unfold fractionWidth wei
  rw [hseg]
  split
  next hle => exact iff_of_true (by omega) (by omega)
  next hgt =>
    have hpos : 0 ≤ (-a.floatSegment - a.len) * 6 - a.floatOffset := by omega
    have hmod : ((-a.floatSegment - a.len) * 6 - a.floatOffset) % 2 ^ 64 < 2 ^ 64 :=
      Int.emod_lt_of_pos _ (by decide)
    constructor
    · intro heq
      omega
    · intro hlt
      rw [Nat.cast_ofNat, Int.emod_eq_of_lt hpos (by omega)]
      omega

/-- The digits of a number and the zeros of its exponent. -/
theorem Num.magnitude_of_nonneg (hfs : 0 ≤ a.floatSegment) :
    a.magnitude = ((a.whole * 10 ^ (a.floatSegment.toNat * 6 + a.floatOffset) : ℤ) : ℚ) := by
  have hexp : 6 * a.floatSegment + a.floatOffset =
      ((a.floatSegment.toNat * 6 + a.floatOffset : ℕ) : ℤ) := by
    push_cast
    omega
  rw [Num.magnitude, hexp, zpow_natCast]
  push_cast
  rfl

/-- Without a word and without a point `print` reads before its array. -/
theorem print_fault (hlen : a.len = 0) (hneg : a.isNegative = false) (hfs : 0 ≤ a.floatSegment) :
    print a = .error .fault := by
  have hread : read a.num ((a.len : ℤ) - 1) = .error .fault := by
    rw [hlen]
    rfl
  unfold print
  rw [if_neg (by rw [hneg]; exact fun h => nomatch h.2), if_neg (not_lt.mpr hfs), hread]
  rfl

/-- The exponent whose negation is no `int64_t`. -/
theorem print_min (hmark : ¬(a.len = 0 ∧ a.isNegative)) (hfs : a.floatSegment ≤ -2 ^ 63) :
    print a = .error .fault := by
  have hover : i64 (-a.floatSegment) = .error .fault := if_neg (by omega)
  unfold print
  rw [if_neg hmark, if_pos (show a.floatSegment < 0 by omega), hover]
  rfl

/-- `print` writes the number just where it can count the digits after the point and there is
something to write. -/
theorem prints_iff (ha : a.WellFormed) (ho : a.floatOffset < wei) : Prints a ↔ Printable a := by
  unfold Prints Printable
  by_cases hmark : a.len = 0 ∧ a.isNegative = true
  · rw [if_pos hmark]
    refine iff_of_true ?_ (.inl hmark)
    unfold print
    rw [if_pos hmark, if_pos hmark.2]
  rw [if_neg hmark, or_iff_right hmark]
  rcases le_or_gt 0 a.floatSegment with hfs | hfs
  · by_cases hlen : a.len = 0
    · have hneg : a.isNegative = false := by simpa [hlen] using hmark
      refine iff_of_false ?_ (by omega)
      rintro ⟨-, text, htext, -⟩
      rw [print_fault hlen hneg hfs] at htext
      cases htext
    · obtain ⟨text, hrun, hne, hwrites⟩ := print_whole ha hlen hfs
      refine iff_of_true ⟨print_cut a, text, hrun, .whole hne hwrites.digits, ?_⟩
        ⟨.inl hlen, fun h => by omega⟩
      rw [hwrites.digits.denoted, Num.magnitude_of_nonneg hfs, ← hwrites.value, Int.cast_natCast]
  · rcases le_or_gt a.floatSegment (-2 ^ 63) with hmin | hmin
    · refine iff_of_false ?_ ?_
      · rintro ⟨-, text, htext, -⟩
        rw [print_min hmark hmin] at htext
        cases htext
      · rintro ⟨-, hin⟩
        exact absurd (hin hfs).1 (not_lt.mpr hmin)
    · obtain ⟨text, hrun, htext⟩ := print_pointed ha ho hmark hfs hmin
      have hdenoted := htext.denoted_eq_iff
      rw [fractionWidth_eq_iff hfs ho] at hdenoted
      constructor
      · rintro ⟨-, text', htext', -, hval⟩
        rw [hrun] at htext'
        obtain rfl := List.append_cancel_left (Except.ok.inj htext')
        exact ⟨.inr hfs, fun _ => ⟨hmin, hdenoted.mp hval⟩⟩
      · rintro ⟨-, hin⟩
        exact ⟨print_cut a, text, hrun, htext.denotes.1, hdenoted.mpr (hin hfs).2⟩

/-- 12.3456 with a third of its words after the point. -/
theorem prints_iff_sample : Prints ⟨[345600, 12], false, -1, 0, 2⟩ := by
  refine (prints_iff ⟨by decide, by decide⟩ (by decide)).mpr (.inr ⟨.inl (by decide), fun _ => ?_⟩)
  decide

/-- The zero that `+` and `-` leave is not printed. -/
theorem zero_not_printed :
    (∃ a, calcBaoliu 1 ⟨[1], false, 0, 0, 1⟩ ⟨[1], false, 0, 0, 1⟩ ⟨[], false, 0, 0, 0⟩ 0 = .ok a ∧
      a.len = 0 ∧ a.isNegative = false ∧ a.WellFormed ∧ a.floatOffset < wei ∧
      print a = .error .fault ∧ ¬Prints a) := by
  refine ⟨⟨[], false, 0, 0, 0⟩, by decide, rfl, rfl, ⟨.nil, le_rfl⟩, by decide,
    print_fault rfl rfl le_rfl, ?_⟩
  rintro ⟨-, text, htext, -⟩
  rw [print_fault rfl rfl le_rfl] at htext
  cases htext

end MyosIo.Calc
