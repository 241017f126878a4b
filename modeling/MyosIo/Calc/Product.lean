import MyosIo.Calc.Sum

/-! The rows of a block are added up without carrying; the words above `mark` stay small enough,
and are carried when the block is full and once more at the end. -/
namespace MyosIo.Calc

variable {xs ys ws done low mid rest : List ℤ} {c M : ℤ} {t : ℕ} {a b result : Num}

/-- The result between two rows: digits below `low.length`, where `mark` points, and then words
that `t` rows were added to since. -/
structure Rows (xs done low mid : List ℤ) (t : ℕ) : Prop where
  carried : Digits base low
  small : ∀ w ∈ mid, 0 ≤ w ∧ w ≤ base + t * base ^ 2
  reach : mid.length = xs.length + t
  position : done.length = low.length + t
  value : radix base (low ++ mid) = radix base xs * radix base done

/-- Words added to as many others; what follows stays. -/
theorem addScaled_append (rest : List ℤ) (hl : xs.length = ys.length)
    (hp : ∀ x ∈ xs, -2 ^ 63 ≤ x * c ∧ x * c < 2 ^ 63)
    (hs : ∀ y ∈ ys, ∀ x ∈ xs, -2 ^ 63 ≤ y + x * c ∧ y + x * c < 2 ^ 63) :
    addScaled c xs (ys ++ rest) = .ok (plus c ys xs ++ rest) := by
  induction xs generalizing ys with
  | nil =>
    obtain rfl := List.eq_nil_of_length_eq_zero hl.symm
    rfl
  | cons x xs ih =>
    cases ys with
    | nil => cases hl
    | cons y ys =>
      have hx := hp x List.mem_cons_self
      have hy := hs y List.mem_cons_self x List.mem_cons_self
      have hrest := @ih ys (Nat.succ.inj hl) (fun z hz => hp z (List.mem_cons_of_mem _ hz))
        (fun z hz w hw => hs z (List.mem_cons_of_mem _ hz) w (List.mem_cons_of_mem _ hw))
      rw [List.cons_append, addScaled, i64_ok hx.1 hx.2]
      simp only [bind, Except.bind, i64_ok hy.1 hy.2, hrest]
      rfl

/-- A product of two digits. -/
theorem digit_mul {x : ℤ} (hx : 0 ≤ x ∧ x < base) (hc : 0 ≤ c ∧ c < base) :
    0 ≤ x * c ∧ x * c ≤ base ^ 2 := by
  refine ⟨Int.mul_nonneg hx.1 hc.1, ?_⟩
  rw [sq]
  exact Int.mul_le_mul hx.2.le hc.2.le hc.1 base_pos.le

/-- One row. -/
theorem Rows.row (h : Rows xs done low mid t) (ht : t < base.toNat) (hx : Digits base xs)
    (hc : 0 ≤ c ∧ c < base) : ∃ mid',
      atOffset done.length (addScaled c xs) (low ++ mid ++ 0 :: rest) = .ok (low ++ mid' ++ rest) ∧
      Rows xs (done ++ [c]) low mid' (t + 1) := by
  obtain ⟨head, tail, rfl, hhead⟩ : ∃ head tail, mid = head ++ tail ∧ head.length = t :=
    ⟨mid.take t, mid.drop t, (List.take_append_drop t mid).symm,
      List.length_take_of_le (by rw [h.reach]; omega)⟩
  have hreach := h.reach
  rw [List.length_append, hhead] at hreach
  have hposition := h.position
  have hvalue := h.value
  have hbase : base = 1000000 := rfl
  have hbound : (t : ℤ) * base ^ 2 ≤ 999999 * base ^ 2 :=
    Int.mul_le_mul_of_nonneg_right (by rw [hbase] at ht; omega) (by decide)
  have hnext : ((t + 1 : ℕ) : ℤ) * base ^ 2 = t * base ^ 2 + base ^ 2 := by
    push_cast
    ring
  have hsum : ∀ y ∈ tail, ∀ x ∈ xs, 0 ≤ y + x * c ∧ y + x * c ≤ base + (t + 1 : ℕ) * base ^ 2 := by
    intro y hy x hmem
    have hsmall := h.small y (List.mem_append_right _ hy)
    have hprod := digit_mul (hx x hmem) hc
    omega
  have hadd := addScaled_append (0 :: rest) (c := c) (show xs.length = tail.length by omega)
    (fun x hmem => by
      have hprod := digit_mul (hx x hmem) hc
      rw [hbase] at hprod
      omega)
    (fun y hy x hmem => by
      have hprod := hsum y hy x hmem
      rw [hnext] at hprod
      rw [hbase] at hprod hbound
      omega)
  have hplus : (plus c tail xs).length = xs.length := by
    rw [length_plus]
    omega
  refine ⟨head ++ plus c tail xs ++ [0], ?_, h.carried, ?_, ?_, ?_, ?_⟩
  · have hoff : (low ++ head).length = done.length := by
      rw [List.length_append, hhead, hposition]
    have hsplit : low ++ (head ++ tail) ++ 0 :: rest = low ++ head ++ (tail ++ 0 :: rest) := by
      simp
    rw [hsplit, atOffset_append hoff, hadd]
    simp [Except.map]
  · intro w hw
    rw [List.append_assoc, List.mem_append, List.mem_append, List.mem_singleton] at hw
    rcases hw with hw | hw | rfl
    · have hsmall := h.small w (List.mem_append_left _ hw)
      have : 0 ≤ base ^ 2 := by decide
      omega
    · obtain ⟨y, hy, x, hmem, rfl⟩ := mem_plus hw
      exact hsum y hy x hmem
    · exact ⟨le_refl 0, add_nonneg (by decide) (mul_nonneg (Int.natCast_nonneg _) (by decide))⟩
  · rw [List.length_append, List.length_append, hplus, hhead, List.length_singleton]
    omega
  · rw [List.length_append, List.length_singleton, hposition]
    omega
  · have htail := radix_plus (B := base) c (show tail.length = xs.length by omega)
    rw [← List.append_assoc, radix_concat_zero, @radix_append _ done, radix_singleton, mul_add,
      ← hvalue]
    simp only [radix_append]
    rw [htail, hposition, hhead, pow_add]
    ring

/-- The carries of a block stay within it. -/
theorem Rows.carry (h : Rows xs done low mid t) (ht : t ≤ base.toNat) (hne : xs ≠ [])
    (hx : Digits base xs) (hd : Digits base done) : ∃ mid',
      jinweiZhengxiang mid.length (mid ++ rest) = .ok (mid' ++ rest) ∧
      mid'.length = mid.length ∧ Digits base mid' ∧ radix base mid' = radix base mid := by
  have hreach := h.reach
  have hposition := h.position
  have hvalue := h.value
  have hcarried := h.carried
  have hbase : base = 1000000 := rfl
  have hbound : (t : ℤ) * base ^ 2 ≤ 1000000 * base ^ 2 :=
    Int.mul_le_mul_of_nonneg_right (by rw [hbase] at ht; omega) (by decide)
  have hxs : 0 < xs.length := List.length_pos_of_ne_nil hne
  obtain ⟨body, top, hrun, hlen, hbody, htop, hsame⟩ := jinweiZhengxiang_spec _
    (List.ne_nil_of_length_pos (show 0 < mid.length by omega)) (by
      rw [hbase] at hbound ⊢
      omega) h.small
  refine ⟨body ++ [top], ?_, ?_, ?_, hsame⟩
  · rw [hrun]
    simp
  · rw [List.length_append, List.length_singleton, hlen]
  · refine Digits.append_iff.mpr ⟨hbody, Digits.cons_iff.mpr ⟨⟨htop, ?_⟩, .nil⟩⟩
    have hall := Digits.append_iff.mpr ⟨hcarried, hbody⟩
    have hquot := radix_top (x := top) hall base_pos
    have htotal : radix base (low ++ body ++ [top]) = radix base xs * radix base done := by
      rw [List.append_assoc, radix_append, hsame, ← radix_append, hvalue]
    rw [← hquot, htotal]
    refine Int.ediv_lt_of_lt_mul (pow_pos base_pos _) ?_
    rw [← pow_succ', List.length_append]
    calc radix base xs * radix base done
        < base ^ xs.length * base ^ done.length :=
          mul_lt_mul'' hx.lt_pow hd.lt_pow hx.nonneg hd.nonneg
      _ = base ^ (low.length + body.length + 1) := by
          rw [← pow_add]
          congr 1
          omega

/-- With the carries passed on a new block begins. -/
theorem Rows.begin (h : Rows xs done low mid t) {mid' : List ℤ} (hlen : mid'.length = mid.length)
    (hdigits : Digits base mid') (hsame : radix base mid' = radix base mid) :
    Rows xs done (low ++ mid'.take t) (mid'.drop t) 0 := by
  have hreach := h.reach
  have hposition := h.position
  have hvalue := h.value
  refine ⟨Digits.append_iff.mpr ⟨h.carried, hdigits.take t⟩, ?_, ?_, ?_, ?_⟩
  · intro w hw
    have := hdigits.drop t w hw
    rw [Nat.cast_zero, zero_mul]
    omega
  · rw [List.length_drop]
    omega
  · rw [List.length_append, List.length_take_of_le (by omega)]
    omega
  · rw [List.append_assoc, List.take_append_drop, radix_append, hsame, ← radix_append, hvalue]

/-- All the rows: `cs` are the words of the multiplier that are left. -/
theorem chengLoop_ok {cs : List ℤ} (hne : xs ≠ []) (hx : Digits base xs) (hd : Digits base done)
    (hc : Digits base cs) (h : Rows xs done low mid t) (ht : t < base.toNat) : ∃ low' mid' t',
      chengLoop xs cs (low ++ mid ++ List.replicate cs.length 0) done.length low.length
        (base.toNat - 1 - t) = .ok (low' ++ mid', low'.length, base.toNat - 1 - t') ∧
      Rows xs (done ++ cs) low' mid' t' ∧ t' < base.toNat := by
  induction cs generalizing done low mid t with
  | nil =>
    rw [List.length_nil, List.replicate_zero, List.append_nil, List.append_nil]
    exact ⟨low, mid, t, rfl, h, ht⟩
  | cons c cs ih =>
    obtain ⟨hc, hcs⟩ := Digits.cons_iff.mp hc
    obtain ⟨next, hrow, hnext⟩ := h.row ht hx hc
    have hdone : Digits base (done ++ [c]) :=
      Digits.append_iff.mpr ⟨hd, Digits.cons_iff.mpr ⟨hc, .nil⟩⟩
    have hpos : (done ++ [c]).length = done.length + 1 := by
      rw [List.length_append, List.length_singleton]
    have hall : done ++ c :: cs = done ++ [c] ++ cs := (List.append_cons done c cs)
    rw [hall, List.length_cons, List.replicate_succ, chengLoop, hrow]
    simp only [bind, Except.bind]
    split
    next hmore =>
      have hrun := ih hdone hcs hnext (by omega)
      rwa [hpos, show base.toNat - 1 - (t + 1) = base.toNat - 1 - t - 1 by omega] at hrun
    next hfull =>
      obtain ⟨mid', hcarry, hlen, hdigits, hsame⟩ :=
        hnext.carry (by omega) hne hx hdone
      have hbegin := hnext.begin hlen hdigits hsame
      have hreach := hnext.reach
      have hposition := hnext.position
      have hcount : xs.length + base.toNat = next.length := by omega
      have hmark : (low ++ mid'.take (t + 1)).length = done.length + 1 := by
        rw [← hpos, hposition, List.length_append, List.length_take_of_le (by omega)]
      have hrun := ih hdone hcs hbegin (by decide)
      rw [hmark, hpos, List.append_assoc low, List.take_append_drop] at hrun
      rw [hcount, List.append_assoc, atOffset_append rfl, hcarry]
      simp only [Except.map]
      rw [← List.append_assoc]
      exact hrun

/-- Before the first row. -/
theorem Rows.zero (xs : List ℤ) : Rows xs [] [] (List.replicate xs.length 0) 0 := by
  refine ⟨.nil, ?_, ?_, rfl, ?_⟩
  · intro w hw
    rw [List.eq_of_mem_replicate hw]
    decide
  · rw [List.length_replicate, Nat.add_zero]
  · rw [List.nil_append, radix_replicate_zero, radix_nil, mul_zero]

/-- The words of the product, the top one last. -/
theorem product_words (ha : a.WellFormed) (hb : b.WellFormed) (hla : a.len ≠ 0) :
    ∃ words mark jishu,
    chengLoop (a.num.take a.len) (b.num.take b.len) (List.replicate (a.len + b.len) 0) 0 0
      (base.toNat - 1) = .ok (words, mark, jishu) ∧
    ∃ lower top,
      atOffset mark (jinweiZhengxiang (a.len + base.toNat - 1 - jishu)) words =
        .ok (lower ++ [top]) ∧
      read (lower ++ [top]) (mark + (a.len + base - 2 - jishu)) = .ok top ∧
      lower.length + 1 = a.len + b.len ∧ Digits base (lower ++ [top]) ∧
      radix base (lower ++ [top]) = a.whole * b.whole := by
  have hxs : (a.num.take a.len).length = a.len := List.length_take_of_le ha.array
  have hys : (b.num.take b.len).length = b.len := List.length_take_of_le hb.array
  have hne : a.num.take a.len ≠ [] := List.ne_nil_of_length_pos (by omega)
  obtain ⟨low, mid, t, hrun, hrows, ht⟩ :=
    chengLoop_ok hne ha.digits .nil hb.digits (.zero _) (by decide)
  rw [List.nil_append, hxs, hys, List.replicate_append_replicate] at hrun
  obtain ⟨mid', hcarry, hlen, hdigits, hsame⟩ :=
    hrows.carry ht.le hne ha.digits hb.digits
  rw [List.append_nil, List.append_nil] at hcarry
  have hreach := hrows.reach
  have hposition := hrows.position
  have hvalue := hrows.value
  have hbase : base = 1000000 := rfl
  rw [List.nil_append] at hposition hvalue
  have hcount : a.len + base.toNat - 1 - (base.toNat - 1 - t) = mid.length := by omega
  obtain ⟨body, top, rfl⟩ := (List.eq_nil_or_concat' mid').resolve_left
    (List.ne_nil_of_length_pos (by omega))
  rw [List.length_append, List.length_singleton] at hlen
  refine ⟨_, _, _, hrun, low ++ body, top, ?_, ?_, ?_, ?_, ?_⟩
  · rw [hcount, atOffset_append rfl, hcarry, List.append_assoc]
    rfl
  · have hlast : (low.length : ℤ) + (a.len + base - 2 - (base.toNat - 1 - t : ℕ)) =
        ((low ++ body).length : ℕ) := by
      rw [List.length_append]
      omega
    rw [hlast]
    exact read_ok (by simp)
  · rw [List.length_append]
    omega
  · rw [List.append_assoc]
    exact Digits.append_iff.mpr ⟨hrows.carried, hdigits⟩
  · rw [List.append_assoc, radix_append, hsame, ← radix_append, hvalue]
    rfl

/-- The sizes pass the checks `cheng` begins with. -/
def Passes (a b : Num) : Prop := (a.len : ℤ) + b.len ≤ mallocMax / sizeofNumWidth

/-- What the offsets carry into the segment. -/
def offsetCarry (a b : Num) : ℕ := if a.floatOffset + b.floatOffset ≥ wei then 1 else 0

/-- The exponent of the product is an `int64_t`. -/
def SegmentFits (a b : Num) : Prop :=
  a.len ≠ 0 → b.len ≠ 0 → -2 ^ 63 ≤ a.floatSegment + b.floatSegment ∧
    a.floatSegment + b.floatSegment + offsetCarry a b < 2 ^ 63

theorem cheng_zero (h : a.len = 0 ∨ b.len = 0) (result : Num) :
    cheng a b result = .ok { result with len := 0, isNegative := false } := if_pos h

theorem cheng_ok (ha : a.WellFormed) (hb : b.WellFormed) (hla : a.len ≠ 0) (hlb : b.len ≠ 0)
    (hpass : Passes a b) (result : Num) : ∃ (lower : List ℤ) (top : ℤ),
    cheng a b result = (if -2 ^ 63 ≤ a.floatSegment + b.floatSegment ∧
        a.floatSegment + b.floatSegment + offsetCarry a b < 2 ^ 63 then
      .ok ⟨lower ++ [top], a.isNegative ^^ b.isNegative,
        a.floatSegment + b.floatSegment + offsetCarry a b,
        a.floatOffset + b.floatOffset - wei * offsetCarry a b,
        if top = 0 then a.len + b.len - 1 else a.len + b.len⟩
    else .error .fault) ∧
      lower.length + 1 = a.len + b.len ∧ Digits base (lower ++ [top]) ∧
      radix base (lower ++ [top]) = a.whole * b.whole := by
  obtain ⟨words, mark, jishu, hloop, lower, top, hcarry, hread, hspec⟩ := product_words ha hb hla
  refine ⟨lower, top, ?_, hspec⟩
  unfold Passes mallocMax sizeofNumWidth at hpass
  have halloc : calloc ((a.len : ℤ) + b.len) = some (List.replicate (a.len + b.len) 0) := by
    unfold calloc sizeofNumWidth mallocMax
    rw [if_pos (by omega), ← Nat.cast_add, Int.toNat_natCast]
  unfold cheng
  rw [if_neg (not_or.mpr ⟨hla, hlb⟩), if_neg (by unfold lenMax; omega),
    if_neg (by unfold mallocMax sizeofNumWidth; omega), halloc]
  dsimp only
  have hlen : ¬(a.len : ℤ) + base > lenMax := by
    unfold lenMax base
    omega
  unfold offsetCarry
  by_cases hs : -2 ^ 63 ≤ a.floatSegment + b.floatSegment ∧ a.floatSegment + b.floatSegment < 2 ^ 63
  · rw [i64_ok hs.1 hs.2, ok_bind]
    by_cases ho : a.floatOffset + b.floatOffset ≥ wei
    · rw [if_pos ho, if_pos ho, Nat.cast_one, mul_one]
      by_cases hup : -2 ^ 63 ≤ a.floatSegment + b.floatSegment + 1 ∧
          a.floatSegment + b.floatSegment + 1 < 2 ^ 63
      · have hfit : -2 ^ 63 ≤ a.floatSegment + b.floatSegment ∧
            a.floatSegment + b.floatSegment + 1 < 2 ^ 63 := ⟨hs.1, hup.2⟩
        rw [i64_ok hup.1 hup.2, ok_bind, pure_bind]
        dsimp only
        rw [if_neg hlen, readAll_ok ha.array, ok_bind, readAll_ok hb.array, ok_bind, hloop, ok_bind]
        dsimp only
        rw [hcarry, ok_bind, hread, ok_bind, if_pos hfit]
      · have hfit : ¬(-2 ^ 63 ≤ a.floatSegment + b.floatSegment ∧
            a.floatSegment + b.floatSegment + 1 < 2 ^ 63) := by omega
        have hfault : i64 (a.floatSegment + b.floatSegment + 1) = .error .fault := if_neg hup
        rw [hfault, error_bind, if_neg hfit]
    · rw [if_neg ho, if_neg ho, Nat.cast_zero, mul_zero, add_zero, Nat.sub_zero, pure_bind]
      dsimp only
      rw [if_neg hlen, readAll_ok ha.array, ok_bind, readAll_ok hb.array, ok_bind, hloop, ok_bind]
      dsimp only
      rw [hcarry, ok_bind, hread, ok_bind, if_pos hs]
  · have hfault : i64 (a.floatSegment + b.floatSegment) = .error .fault := if_neg hs
    have hfit : ¬(-2 ^ 63 ≤ a.floatSegment + b.floatSegment ∧ a.floatSegment + b.floatSegment +
        ((if a.floatOffset + b.floatOffset ≥ wei then 1 else 0 : ℕ) : ℤ) < 2 ^ 63) := by
      omega
    rw [hfault, error_bind, if_neg hfit]

/-- `cheng` is exact: the words of the result are digits, its offset is below six and its value is
the product. -/
def Multiplies (a b result : Num) : Prop :=
  ∃ r, cheng a b result = .ok r ∧ r.WellFormed ∧ r.floatOffset < wei ∧
    r.value = a.value * b.value ∧
    (a.len ≠ 0 → b.len ≠ 0 → Digits base r.num ∧ r.num.length = a.len + b.len)

theorem signed_mul (neg neg' : Bool) (p q : ℚ) :
    signed (neg ^^ neg') (p * q) = signed neg p * signed neg' q := by
  cases neg <;> cases neg' <;> simp [signed]

/-- A number without words is zero. -/
theorem Num.value_zero (h : a.len = 0) : a.value = 0 := by
  rw [Num.value, Num.magnitude, Num.whole, h, List.take_zero, radix_nil, Int.cast_zero, zero_mul]
  cases a.isNegative <;> rfl

/-- The exponents add up. -/
theorem exponent_add (a b : Num) :
    6 * (a.floatSegment + b.floatSegment + offsetCarry a b) +
      ((a.floatOffset + b.floatOffset - wei * offsetCarry a b : ℕ) : ℤ) =
    6 * a.floatSegment + a.floatOffset + (6 * b.floatSegment + b.floatOffset) := by
  unfold offsetCarry wei
  split <;> omega

/-- `cheng` multiplies exactly and without an overflow, but for the exponent. -/
theorem multiplies_iff (ha : a.WellFormed) (hb : b.WellFormed) (hoa : a.floatOffset < wei)
    (hob : b.floatOffset < wei) (hor : result.floatOffset < wei) (hpass : Passes a b) :
    Multiplies a b result ↔ SegmentFits a b := by
  by_cases hzero : a.len = 0 ∨ b.len = 0
  · refine iff_of_true ⟨_, cheng_zero hzero result, ⟨by simp, Nat.zero_le _⟩, hor, ?_, ?_⟩ ?_
    · rw [Num.value_zero (a := { result with len := 0, isNegative := false }) rfl, eq_comm,
        mul_eq_zero]
      exact hzero.imp Num.value_zero Num.value_zero
    · exact fun hla hlb => absurd hzero (not_or.mpr ⟨hla, hlb⟩)
    · exact fun hla hlb => absurd hzero (not_or.mpr ⟨hla, hlb⟩)
  · obtain ⟨hla, hlb⟩ := not_or.mp hzero
    obtain ⟨lower, top, hrun, hlen, hdigits, hval⟩ := cheng_ok ha hb hla hlb hpass result
    constructor
    · rintro ⟨r, hr, -⟩ - -
      by_contra hs
      rw [hrun, if_neg hs] at hr
      cases hr
    · intro hfit
      rw [if_pos (hfit hla hlb)] at hrun
      have hlength : (lower ++ [top]).length = a.len + b.len := by
        rw [List.length_append, List.length_singleton, hlen]
      refine ⟨_, hrun, ⟨hdigits.take _, ?_⟩, ?_, ?_, fun _ _ => ⟨hdigits, hlength⟩⟩
      · change (if top = 0 then a.len + b.len - 1 else a.len + b.len) ≤ (lower ++ [top]).length
        split <;> omega
      · change a.floatOffset + b.floatOffset - wei * offsetCarry a b < wei
        unfold offsetCarry wei at *
        split <;> omega
      · have hcut : radix base ((lower ++ [top]).take
            (if top = 0 then a.len + b.len - 1 else a.len + b.len)) =
            radix base (lower ++ [top]) := by
          split
          next hz =>
            rw [hz, List.take_left' (by omega), radix_concat_zero]
          next => rw [List.take_of_length_le hlength.le]
        rw [Num.value, Num.magnitude, Num.whole]
        dsimp only
        rw [hcut, hval, exponent_add, zpow_add₀ (by norm_num), Int.cast_mul, mul_mul_mul_comm]
        exact signed_mul _ _ _ _

/-- 999999.9 times -0.9: the offsets carry. -/
theorem multiplies_iff_sample :
    Multiplies ⟨[999999], false, 0, 5, 1⟩ ⟨[9], true, -1, 5, 1⟩ ⟨[], false, 0, 0, 0⟩ := by
  refine (multiplies_iff ⟨by decide, by decide⟩ ⟨by decide, by decide⟩ (by decide) (by decide)
    (by decide) (by unfold Passes; decide)).mpr ?_
  intro _ _
  decide

/-- The exponents of two numbers overflow. -/
theorem exponent_overflows : ∃ a b : Num, a.WellFormed ∧ b.WellFormed ∧ a.floatOffset < wei ∧
    b.floatOffset < wei ∧ Passes a b ∧
    cheng a b ⟨[], false, 0, 0, 0⟩ = .error .fault ∧ ¬Multiplies a b ⟨[], false, 0, 0, 0⟩ := by
  have ha : Num.WellFormed ⟨[1], false, 2 ^ 62, 0, 1⟩ := ⟨by decide, by decide⟩
  have hfault : cheng ⟨[1], false, 2 ^ 62, 0, 1⟩ ⟨[1], false, 2 ^ 62, 0, 1⟩
      ⟨[], false, 0, 0, 0⟩ = .error .fault := by
    obtain ⟨lower, top, hrun, -⟩ := cheng_ok ha ha (by decide) (by decide)
      (by unfold Passes; decide) ⟨[], false, 0, 0, 0⟩
    rw [hrun]
    exact if_neg (by decide)
  refine ⟨_, _, ha, ha, by decide, by decide, by unfold Passes; decide, hfault, ?_⟩
  rintro ⟨r, hr, -⟩
  rw [hfault] at hr
  cases hr

end MyosIo.Calc
