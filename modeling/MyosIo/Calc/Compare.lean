import MyosIo.Calc.Pack

/-! `Num_compare_jueduizhi` is right unless two numbers reach equally high and the longer one is
the smaller one. -/
namespace MyosIo.Calc

variable {us vs rest rest' : List ℤ} {x y : ℤ} {a b r : Num} {s : List Char} {sc : Scanned}
  {k : ℕ}

/-- The sign of `numcmp` is the order of the numbers the words denote. -/
theorem numcmp_spec (hu : Digits base us) (hv : Digits base vs) (hl : us.length = vs.length)
    (x y : ℤ) (rest rest' : List ℤ) :
    ∃ t, numcmp (us ++ x :: rest) (vs ++ y :: rest') (us.length + 1) = .ok t ∧
      (0 < t ↔ radix base (vs ++ [y]) < radix base (us ++ [x])) ∧
      (t < 0 ↔ radix base (us ++ [x]) < radix base (vs ++ [y])) := by
  induction us using List.reverseRecOn generalizing vs x y rest rest' with
  | nil =>
    obtain rfl := List.eq_nil_of_length_eq_zero hl.symm
    refine ⟨x - y, rfl, ?_, ?_⟩ <;>
      simp only [List.nil_append, radix_singleton] <;> omega
  | append_singleton us x' ih =>
    have hreadx : read (us ++ [x'] ++ x :: rest) ((us ++ [x']).length : ℕ) = .ok x :=
      read_ok (by simp)
    have hready : read (vs ++ y :: rest') ((us ++ [x']).length : ℕ) = .ok y :=
      read_ok (by rw [hl]; simp)
    have hne : (us ++ [x']).length ≠ 0 := by simp
    rw [numcmp, hreadx, hready]
    simp only [bind, Except.bind]
    split
    next heq =>
      obtain ⟨-, rfl⟩ := heq
      rcases List.eq_nil_or_concat' vs with rfl | ⟨vs, y', rfl⟩
      · simp at hl
      have hl' : us.length = vs.length := by simpa using hl
      obtain ⟨t, ht, hpos, hneg⟩ := ih (Digits.append_iff.mp hu).1 (Digits.append_iff.mp hv).1 hl'
        x' y' (x :: rest) (x :: rest')
      refine ⟨t, ?_, ?_, ?_⟩
      · rw [List.length_append, List.length_singleton, List.append_assoc, List.append_assoc]
        exact ht
      · rw [hpos, @radix_append _ (us ++ [x']), @radix_append _ (vs ++ [y']), hl]
        omega
      · rw [hneg, @radix_append _ (us ++ [x']), @radix_append _ (vs ++ [y']), hl]
        omega
    next hdiff =>
      refine ⟨x - y, rfl, ?_⟩
      rcases lt_trichotomy x y with hlt | heq | hgt
      · have := radix_append_lt hu hv hl base_pos [x] [y]
          (by simpa only [radix_singleton] using hlt)
        omega
      · exact absurd ⟨hne, heq⟩ hdiff
      · have := radix_append_lt hv hu hl.symm base_pos [y] [x]
          (by simpa only [radix_singleton] using hgt)
        omega

/-- The same for two arrays of digits. -/
theorem numcmp_digits {xs ys : List ℤ} (hx : Digits base xs) (hy : Digits base ys)
    (hl : xs.length = ys.length) : ∃ t, numcmp xs ys xs.length = .ok t ∧
      (0 < t ↔ radix base ys < radix base xs) ∧ (t < 0 ↔ radix base xs < radix base ys) := by
  rcases List.eq_nil_or_concat' xs with rfl | ⟨us, x, rfl⟩
  · obtain rfl := List.eq_nil_of_length_eq_zero hl.symm
    exact ⟨0, rfl, by simp, by simp⟩
  rcases List.eq_nil_or_concat' ys with rfl | ⟨vs, y, rfl⟩
  · simp at hl
  have := numcmp_spec (Digits.append_iff.mp hx).1 (Digits.append_iff.mp hy).1 (by simpa using hl)
    x y [] []
  rwa [List.length_append, List.length_singleton]

/-- What `string_to_Num` produces for `fuhao` from a string that fits in memory. -/
def Produced (fuhao : ℕ) (r : Num) : Prop :=
  ∃ s a, check s = true ∧ s.length < 2 ^ 63 ∧ stringToNum s a fuhao = .ok r

/-- Whole segments, nothing superfluous below, and nothing superfluous above the point. -/
structure Shape (r : Num) : Prop where
  array : r.num.length = r.len
  digits : Digits base r.num
  offset : r.floatOffset = 0
  range : 0 ≤ r.floatSegment + r.len ∧ r.floatSegment + r.len < 2 ^ 64
  sign : r.isNegative = true → r.num ≠ []
  low : ∀ w rest, r.num = w :: rest → w ≠ 0
  high : 0 < r.floatSegment + r.len → 0 < r.len ∧ base ^ (r.len - 1) ≤ radix base r.num

theorem intDigits_le (s : List Char) : intDigits s ≤ s.length :=
  (List.dropWhile_sublist _).length_le.trans (List.takeWhile_sublist _).length_le

/-- The lowest word of a mantissa is not zero. -/
theorem Packed.low {pad : ℕ} (h : Packed sc pad k r) (hm : Mantissa s sc) {w : ℤ}
    (hr : r.num = w :: rest) : w ≠ 0 := by
  rintro rfl
  obtain ⟨u, c, hu, hc⟩ := hm.last
  have hd := hm.digits
  rw [hu] at hd
  have hval := h.value
  rw [hu, hr, radix_cons, zero_add] at hval
  have hpad := h.padding
  obtain ⟨q, hq⟩ : ∃ q, pad + (q + 1) = 6 := ⟨5 - pad, by omega⟩
  have hbase : base = 10 ^ pad * (10 * 10 ^ q) := by
    rw [← pow_succ', ← pow_add, hq]
    rfl
  generalize radix base rest = R at hval
  rw [hbase, mul_comm (decimal _ : ℤ), mul_assoc] at hval
  have hcancel := mul_left_cancel₀ (pow_ne_zero pad (by decide)) hval
  refine hd.not_ten_dvd hc (Int.natCast_dvd_natCast.mp ⟨10 ^ q * R, ?_⟩)
  rw [← hcancel]
  push_cast
  ring

theorem Packed.shape {pad : ℕ} (h : Packed sc pad k r) (hm : Mantissa s sc)
    (hk : intDigits s % 6 = k % 6) (hs : s.length < 2 ^ 63) : Shape r := by
  have hle := intDigits_le s
  have hscale := h.scale
  have hoffset := h.offset
  have hwords := h.words
  have htop := h.top
  have hcount := hm.count
  have hpos := h.len_pos hm
  have hzero : r.floatOffset = 0 := by omega
  refine ⟨h.array, h.digits, hzero, by omega, ?_, fun w rest hr => h.low hm hr,
    fun hreach => ⟨hpos, ?_⟩⟩
  · rintro - hnil
    have harray := h.array
    rw [hnil, List.length_nil] at harray
    omega
  rcases hm.front with hD | ⟨c, v, hv, hc⟩
  · omega
  · have hd := hm.digits
    rw [hv] at hd
    have hpow := hd.pow_le_decimal hc
    have hlen := congrArg List.length hv
    rw [List.length_take_of_le hm.fits, List.length_cons] at hlen
    rw [h.value, hv, base_pow]
    have hexp : 10 ^ (6 * (r.len - 1)) ≤ 10 ^ (v.length + pad) :=
      Nat.pow_le_pow_right (by decide) (by omega)
    have hmul := Nat.mul_le_mul_right (10 ^ pad) hpow
    rw [← pow_add] at hmul
    exact_mod_cast hexp.trans hmul

theorem shortcut_shape {temp : ℕ} (hm : Mantissa s sc) (ht : temp < 6) (hle : sc.len ≤ temp)
    (a : Num) : Shape (shortcut sc temp a) := by
  have hpos : (0 : ℤ) < decimal (sc.string.take sc.len) * 10 ^ (temp - sc.len) :=
    mul_pos (by exact_mod_cast hm.pos.2) (by positivity)
  refine ⟨rfl, (shortcut_wellFormed hm ht hle a).digits, rfl, by simp [shortcut],
    fun _ => List.cons_ne_nil _ _, ?_, ?_⟩
  · intro w rest hr
    obtain ⟨rfl, -⟩ := List.cons.inj hr
    exact hpos.ne'
  · intro _
    refine ⟨Nat.one_pos, ?_⟩
    change base ^ 0 ≤ radix base [_]
    rw [radix_singleton, pow_zero]
    exact hpos

theorem Produced.shape {fuhao : ℕ} (hf : fuhao ≤ 1) (h : Produced fuhao r) : Shape r := by
  obtain ⟨s, a, hs, hlen, hr⟩ := h
  rcases stringToNum_cases hs a fuhao with ⟨hzero, -⟩ | ⟨sc, hm, hcases⟩
  · rw [hzero] at hr
    obtain rfl := Except.ok.inj hr
    exact ⟨rfl, .nil, rfl, by simp, by simp, by simp, by simp⟩
  · rcases hcases with ⟨pad, k, r', hr', hp, -, hk, -⟩ | ⟨hr', -, -, hle⟩
    · rw [hr'] at hr
      obtain rfl := Except.ok.inj hr
      exact hp.shape hm (hk hf) hlen
    · rw [hr'] at hr
      obtain rfl := Except.ok.inj hr
      exact shortcut_shape hm (Nat.mod_lt _ (by decide)) hle a

theorem Shape.whole (h : Shape a) : a.whole = radix base a.num := by
  rw [Num.whole, List.take_of_length_le h.array.le]

theorem Shape.wellFormed (h : Shape a) : a.WellFormed :=
  ⟨h.digits.take _, h.array.ge⟩

/-- Magnitudes compare as the numbers do that are counted in units of the lower segment. -/
theorem magnitude_lt_iff {i j N : ℕ} (ha : Shape a) (hb : Shape b) (hal : Aligned a b i j N) :
    b.magnitude < a.magnitude ↔ base ^ j * radix base b.num < base ^ i * radix base a.num := by
  rw [a.magnitude_at ha.offset hal.segA, b.magnitude_at hb.offset hal.segB, ha.whole, hb.whole,
    mul_lt_mul_iff_left₀ (scale_pos _), Int.cast_lt]

theorem Shape.higher (ha : Shape a) (hb : Shape b)
    (h : b.floatSegment + b.len < a.floatSegment + a.len) : b.magnitude < a.magnitude := by
  obtain ⟨i, j, N, hal⟩ := exists_aligned a b
  rw [magnitude_lt_iff ha hb hal]
  have hsegA := hal.segA
  have hsegB := hal.segB
  have hrange := hb.range
  obtain ⟨hlen, hhigh⟩ := ha.high (by omega)
  have hlt := hb.digits.lt_pow
  rw [hb.array] at hlt
  calc base ^ j * radix base b.num
      < base ^ j * base ^ b.len := mul_lt_mul_of_pos_left hlt (pow_pos base_pos _)
    _ = base ^ (j + b.len) := (pow_add _ _ _).symm
    _ ≤ base ^ (i + (a.len - 1)) := pow_le_pow_right₀ (by decide) (by omega)
    _ = base ^ i * base ^ (a.len - 1) := pow_add _ _ _
    _ ≤ base ^ i * radix base a.num := mul_le_mul_of_nonneg_left hhigh (pow_pos base_pos _).le

/-- Words of which the first is not zero. -/
theorem low_pos {ws : List ℤ} (hd : Digits base ws) (hlow : ∀ w rest, ws = w :: rest → w ≠ 0)
    (hne : ws ≠ []) (hk : 0 < k) : 0 < radix base (ws.take k) := by
  refine lt_of_le_of_ne (hd.take k).nonneg fun hz => ?_
  have hzeros := (hd.take k).eq_zeros hz.symm
  obtain ⟨w, rest, rfl⟩ := List.exists_cons_of_ne_nil hne
  obtain ⟨n, rfl⟩ := Nat.exists_eq_succ_of_ne_zero hk.ne'
  rw [List.take_succ_cons, List.length_cons, List.replicate_succ] at hzeros
  exact hlow w rest rfl (List.cons.inj hzeros).1

/-- Where both reach equally high the longer number has words of its own below the other. -/
theorem Shape.longer (ha : Shape a) (hb : Shape b)
    (htop : a.floatSegment + a.len = b.floatSegment + b.len) (hlen : b.len < a.len) :
    b.magnitude < a.magnitude ↔
      radix base b.num ≤ radix base (a.num.drop (a.len - b.len)) := by
  obtain ⟨i, j, N, hal⟩ := exists_aligned a b
  rw [magnitude_lt_iff ha hb hal]
  have hsegA := hal.segA
  have hsegB := hal.segB
  have hlow := hal.low
  obtain rfl : i = 0 := by omega
  obtain rfl : j = a.len - b.len := by omega
  have harray := ha.array
  have hcount : (a.num.take (a.len - b.len)).length = a.len - b.len :=
    List.length_take_of_le (by omega)
  have hsplit := @radix_append base (a.num.take (a.len - b.len)) (a.num.drop (a.len - b.len))
  rw [List.take_append_drop, hcount] at hsplit
  have hlt := (ha.digits.take (a.len - b.len)).lt_pow
  rw [hcount] at hlt
  have hpos : 0 < radix base (a.num.take (a.len - b.len)) :=
    low_pos ha.digits ha.low (List.ne_nil_of_length_pos (by omega)) (by omega)
  have hscale : 0 < base ^ (a.len - b.len) := pow_pos base_pos _
  rw [pow_zero, one_mul, hsplit]
  constructor
  · intro h
    by_contra hle
    have hstep : radix base (a.num.drop (a.len - b.len)) + 1 ≤ radix base b.num := by omega
    have := mul_le_mul_of_nonneg_left hstep hscale.le
    rw [mul_add, mul_one] at this
    omega
  · intro h
    have := mul_le_mul_of_nonneg_left h hscale.le
    omega

theorem Shape.level (ha : Shape a) (hb : Shape b)
    (htop : a.floatSegment + a.len = b.floatSegment + b.len) (hlen : a.len = b.len) :
    b.magnitude < a.magnitude ↔ radix base b.num < radix base a.num := by
  obtain ⟨i, j, N, hal⟩ := exists_aligned a b
  rw [magnitude_lt_iff ha hb hal]
  have hsegA := hal.segA
  have hsegB := hal.segB
  obtain rfl : i = j := by omega
  exact mul_lt_mul_iff_right₀ (pow_pos base_pos _)

/-- Of two numbers that reach equally high the longer one is not the smaller one in the words
they share. -/
def Leads (a b : Num) : Prop :=
  a.floatSegment + a.len = b.floatSegment + b.len → b.len < a.len →
    radix base b.num ≤ radix base (a.num.drop (a.len - b.len))

/-- The comparison says how the magnitudes are ordered. -/
def Compared (a b : Num) : Prop :=
  ∃ t, numCompareJueduizhi a b = .ok t ∧ (0 < t ↔ b.magnitude < a.magnitude) ∧
    (t < 0 ↔ a.magnitude < b.magnitude)

theorem compared_of {t : ℤ} (h : numCompareJueduizhi a b = .ok t) :
    Compared a b ↔ (0 < t ↔ b.magnitude < a.magnitude) ∧ (t < 0 ↔ a.magnitude < b.magnitude) := by
  constructor
  · rintro ⟨t', ht', hpos, hneg⟩
    obtain rfl := Except.ok.inj (h.symm.trans ht')
    exact ⟨hpos, hneg⟩
  · rintro ⟨hpos, hneg⟩
    exact ⟨t, h, hpos, hneg⟩

theorem compared_iff (ha : Shape a) (hb : Shape b) : Compared a b ↔ Leads a b ∧ Leads b a := by
  have hra := ha.range
  have hrb := hb.range
  have hma : (a.floatSegment + a.len) % 2 ^ 64 = a.floatSegment + a.len :=
    Int.emod_eq_of_lt hra.1 hra.2
  have hmb : (b.floatSegment + b.len) % 2 ^ 64 = b.floatSegment + b.len :=
    Int.emod_eq_of_lt hrb.1 hrb.2
  have hcmp : numCompareJueduizhi a b = numCompareJueduizhi a b := rfl
  conv_rhs at hcmp =>
    unfold numCompareJueduizhi
    rw [hma, hmb]
  rcases lt_trichotomy (a.floatSegment + a.len) (b.floatSegment + b.len) with hlt | heq | hgt
  · rw [if_neg (by omega), if_pos hlt] at hcmp
    have hless := hb.higher ha hlt
    rw [compared_of hcmp]
    refine iff_of_true ⟨iff_of_false (by omega) (lt_asymm hless), iff_of_true (by omega) hless⟩
      ⟨fun h => by omega, fun h => by omega⟩
  · rw [if_neg (by omega), if_neg (by omega)] at hcmp
    rcases lt_trichotomy a.len b.len with hshort | hlevel | hlong
    · rw [if_neg (by omega), if_pos hshort] at hcmp
      rw [compared_of hcmp]
      have hlead : Leads b a ↔ a.magnitude < b.magnitude := by
        rw [hb.longer ha heq.symm hshort]
        exact ⟨fun h => h heq.symm hshort, fun h _ _ => h⟩
      rw [hlead]
      constructor
      · rintro ⟨-, hneg⟩
        exact ⟨fun _ h => by omega, hneg.mp (by omega)⟩
      · rintro ⟨-, hless⟩
        exact ⟨iff_of_false (by omega) (lt_asymm hless), iff_of_true (by omega) hless⟩
    · rw [if_neg (by omega), if_neg (by omega)] at hcmp
      have harrays : a.num.length = b.num.length := by
        rw [ha.array, hb.array, hlevel]
      obtain ⟨t, ht, hpos, hneg⟩ := numcmp_digits ha.digits hb.digits harrays
      rw [ha.array] at ht
      rw [ht] at hcmp
      simp only [bind, Except.bind, ← apply_ite Except.ok] at hcmp
      rw [compared_of hcmp, ha.level hb heq hlevel, hb.level ha heq.symm hlevel.symm, ← hpos,
        ← hneg]
      refine iff_of_true ?_ ⟨fun _ h => by omega, fun _ h => by omega⟩
      split_ifs <;> omega
    · rw [if_pos hlong] at hcmp
      rw [compared_of hcmp]
      have hlead : Leads a b ↔ b.magnitude < a.magnitude := by
        rw [ha.longer hb heq hlong]
        exact ⟨fun h => h heq hlong, fun h _ _ => h⟩
      rw [hlead]
      constructor
      · rintro ⟨hpos, -⟩
        exact ⟨hpos.mp (by omega), fun _ h => by omega⟩
      · rintro ⟨hless, -⟩
        exact ⟨iff_of_true (by omega) hless, iff_of_false (by omega) (lt_asymm hless)⟩
  · rw [if_pos hgt] at hcmp
    have hless := ha.higher hb hgt
    rw [compared_of hcmp]
    exact iff_of_true ⟨iff_of_true (by omega) hless, iff_of_false (by omega) (lt_asymm hless)⟩
      ⟨fun h => by omega, fun h => by omega⟩

/-- What `fuhao` asks for: 0 is `+` and 1 is `-`. -/
def asked (fuhao : ℕ) (a b : Num) : ℚ :=
  if fuhao = 1 then a.value - b.value else a.value + b.value

/-- The larger magnitude comes first and the sign is that of the exact result. -/
def Plan.Right (fuhao : ℕ) (a b : Num) : Plan → Prop
  | .jia neg =>
    asked fuhao a b = signed neg (a.magnitude + b.magnitude) ∧
      (neg = true → 0 < a.magnitude + b.magnitude)
  | .jian neg false =>
    b.magnitude < a.magnitude ∧ asked fuhao a b = signed neg (a.magnitude - b.magnitude)
  | .jian neg true =>
    a.magnitude < b.magnitude ∧ asked fuhao a b = signed neg (b.magnitude - a.magnitude)
  | .zero => asked fuhao a b = 0

/-- A computation that ends with a message or with `q`, negative only where `q` is. -/
def Computes (o : Outcome Num) (q : ℚ) : Prop :=
  (∃ message, o = .error (.exit message)) ∨
    ∃ r, o = .ok r ∧ r.value = q ∧ (r.isNegative = true ↔ q < 0)

/-- The comparison is right, and `+` and `-` make the right thing of it. -/
def Ordered (fuhao : ℕ) (a b : Num) : Prop :=
  Compared a b ∧ (∃ p, plan fuhao a b = .ok p ∧ p.Right fuhao a b) ∧
    ∀ result baoliu, Computes (calcBaoliu fuhao a b result baoliu) (asked fuhao a b)

/-- With the second sign turned for `-` every result is a sum. -/
theorem asked_eq {fuhao : ℕ} (hf : fuhao ≤ 1) (a b : Num) :
    asked fuhao a b =
      signed a.isNegative a.magnitude + signed ((fuhao == 1) ^^ b.isNegative) b.magnitude := by
  unfold asked Num.value
  rcases Nat.le_one_iff_eq_zero_or_eq_one.mp hf with rfl | rfl
  · cases b.isNegative <;> rfl
  · rw [if_pos rfl]
    cases b.isNegative
    · exact sub_eq_add_neg _ _
    · exact sub_neg_eq_add _ _

theorem signed_neg_iff {neg : Bool} {q : ℚ} (hq : 0 ≤ q) (hpos : neg = true → 0 < q) :
    neg = true ↔ signed neg q < 0 := by
  cases neg
  · exact iff_of_false Bool.false_ne_true (not_lt.mpr hq)
  · exact iff_of_true rfl (neg_lt_zero.mpr (hpos rfl))

theorem signed_add (neg : Bool) (p q : ℚ) : signed neg p + signed neg q = signed neg (p + q) := by
  cases neg
  · rfl
  · exact (neg_add p q).symm

theorem signed_add_not (neg : Bool) (p q : ℚ) :
    signed neg p + signed (!neg) q = signed neg (p - q) := by
  cases neg
  · exact (sub_eq_add_neg p q).symm
  · change -p + q = -(p - q)
    ring

theorem Shape.magnitude_nonneg (h : Shape a) : 0 ≤ a.magnitude := by
  rw [Num.magnitude, h.whole]
  exact mul_nonneg (Int.cast_nonneg h.digits.nonneg) (zpow_nonneg (by norm_num) _)

/-- Zero is not negative. -/
theorem Shape.magnitude_pos (h : Shape a) (hneg : a.isNegative = true) : 0 < a.magnitude := by
  have hpos := low_pos h.digits h.low (h.sign hneg) (List.length_pos_of_ne_nil (h.sign hneg))
  rw [List.take_length] at hpos
  rw [Num.magnitude, h.whole]
  exact mul_pos (Int.cast_pos.mpr hpos) (zpow_pos (by norm_num) _)

theorem plan_right {fuhao : ℕ} (hf : fuhao ≤ 1) (ha : Shape a) (hb : Shape b)
    (h : Compared a b) : ∃ p, plan fuhao a b = .ok p ∧ p.Right fuhao a b := by
  obtain ⟨t, ht, hpos, hneg⟩ := h
  have hasked := asked_eq hf a b
  unfold plan
  dsimp only
  generalize ((fuhao == 1) ^^ b.isNegative) = s at *
  split
  next hsame =>
    rw [← hsame, signed_add] at hasked
    exact ⟨_, rfl, hasked, fun hneg => add_pos_of_pos_of_nonneg (ha.magnitude_pos hneg)
      hb.magnitude_nonneg⟩
  next hother =>
    have hs : s = !a.isNegative := by
      cases hn : a.isNegative <;> cases s <;> simp_all
    rw [ht]
    simp only [bind, Except.bind]
    rcases lt_trichotomy t 0 with hlt | rfl | hgt
    · rw [if_neg (by omega), if_pos hlt]
      refine ⟨_, rfl, hneg.mp hlt, ?_⟩
      rw [hasked, add_comm, ← signed_add_not, hs, Bool.not_not]
    · rw [if_neg (by omega), if_neg (by omega)]
      refine ⟨_, rfl, ?_⟩
      have hequal : a.magnitude = b.magnitude :=
        le_antisymm (not_lt.mp fun hlt => by have := hpos.mpr hlt; omega)
          (not_lt.mp fun hlt => by have := hneg.mpr hlt; omega)
      change asked fuhao a b = 0
      rw [hasked, hs, signed_add_not, hequal, sub_self]
      cases a.isNegative <;> rfl
    · rw [if_pos hgt]
      refine ⟨_, rfl, hpos.mp hgt, ?_⟩
      rw [hasked, hs, signed_add_not]

/-- `allocate` gives up with a message or the operands fit. -/
theorem allocate_cases (a b : Num) (message : String) :
    (∃ m, allocate a b message = .error (.exit m)) ∨ Fits a b := by
  unfold allocate calloc
  split_ifs with htop hsize halloc
  · exact .inl ⟨_, rfl⟩
  · exact .inl ⟨_, rfl⟩
  · exact .inr ⟨by omega, by omega, halloc⟩
  · exact .inl ⟨_, rfl⟩

theorem jia_computes (ha : Shape a) (hb : Shape b) (hor : r.floatOffset = 0) {q : ℚ}
    (hq : q = signed r.isNegative (a.magnitude + b.magnitude))
    (hneg : r.isNegative = true → 0 < a.magnitude + b.magnitude) : Computes (jia a b r) q := by
  rcases allocate_cases a b "Out of memory!\n" with ⟨m, hm⟩ | hfit
  · refine .inl ⟨m, ?_⟩
    rw [jia, hm]
    rfl
  · obtain ⟨r', hr', -, -, hsign, -, hmag⟩ :=
      jia_exact ha.wellFormed hb.wellFormed hfit ha.offset hb.offset hor
    refine .inr ⟨r', hr', ?_, ?_⟩
    · rw [hq, Num.value, hsign, hmag]
    · rw [hsign, hq]
      exact signed_neg_iff (add_nonneg ha.magnitude_nonneg hb.magnitude_nonneg) hneg

theorem jian_computes (ha : Shape a) (hb : Shape b) (hor : r.floatOffset = 0) {q : ℚ}
    (hlt : b.magnitude < a.magnitude)
    (hq : q = signed r.isNegative (a.magnitude - b.magnitude)) : Computes (jian a b r) q := by
  rcases allocate_cases a b "malloc failed!\n" with ⟨m, hm⟩ | hfit
  · refine .inl ⟨m, ?_⟩
    rw [jian, hm]
    rfl
  · obtain ⟨r', hr', -, -, -, hmag, -, hpos⟩ :=
      jian_exact ha.wellFormed hb.wellFormed hfit ha.offset hb.offset hor hlt.le
    obtain ⟨hsign, -⟩ := hpos hlt
    refine .inr ⟨r', hr', ?_, ?_⟩
    · rw [hq, Num.value, hsign, hmag]
    · rw [hsign, hq]
      have hpos := sub_pos.mpr hlt
      exact signed_neg_iff hpos.le fun _ => hpos

theorem calcBaoliu_computes {fuhao : ℕ} (hf : fuhao ≤ 1) (ha : Shape a) (hb : Shape b) {p : Plan}
    (hp : plan fuhao a b = .ok p) (hright : p.Right fuhao a b) (result : Num) (baoliu : ℕ) :
    Computes (calcBaoliu fuhao a b result baoliu) (asked fuhao a b) := by
  unfold calcBaoliu
  rw [if_neg (by omega), if_neg (by omega), if_pos (by omega), hp]
  simp only [bind, Except.bind]
  match p, hright with
  | .jia neg, ⟨hq, hneg⟩ => exact jia_computes ha hb rfl hq hneg
  | .jian neg false, ⟨hlt, hq⟩ => exact jian_computes ha hb rfl hlt hq
  | .jian neg true, ⟨hlt, hq⟩ => exact jian_computes hb ha rfl hlt hq
  | .zero, hq =>
    refine .inr ⟨_, rfl, ?_, ?_⟩
    · rw [show asked fuhao a b = 0 from hq, Num.value, Num.magnitude, Num.whole, List.take_zero,
        radix_nil, Int.cast_zero, zero_mul]
      rfl
    · rw [show asked fuhao a b = 0 from hq]
      exact iff_of_false Bool.false_ne_true (lt_irrefl 0)

/-- The comparison, and with it the sign of a sum or a difference, is right just where the longer
of two numbers that reach equally high is not the smaller one in the words they share. -/
theorem ordered_iff {fuhao : ℕ} (hf : fuhao ≤ 1) (ha : Produced fuhao a) (hb : Produced fuhao b) :
    Ordered fuhao a b ↔ Leads a b ∧ Leads b a := by
  have hsa := ha.shape hf
  have hsb := hb.shape hf
  rw [← compared_iff hsa hsb]
  constructor
  · rintro ⟨hcmp, -⟩
    exact hcmp
  · intro hcmp
    obtain ⟨p, hp, hright⟩ := plan_right hf hsa hsb hcmp
    exact ⟨hcmp, ⟨p, hp, hright⟩, calcBaoliu_computes hf hsa hsb hp hright⟩

/-- 2.5 and 1. -/
theorem ordered_iff_sample :
    Ordered 1 ⟨[500000, 2], false, -1, 0, 2⟩ ⟨[1], false, 0, 0, 1⟩ := by
  have ha : Produced 1 ⟨[500000, 2], false, -1, 0, 2⟩ :=
    ⟨"2.5".toList, ⟨[], false, 0, 0, 0⟩, by decide, by decide, by decide⟩
  have hb : Produced 1 ⟨[1], false, 0, 0, 1⟩ :=
    ⟨"1".toList, ⟨[], false, 0, 0, 0⟩, by decide, by decide, by decide⟩
  refine (ordered_iff (le_refl 1) ha hb).mpr ⟨fun _ _ => by decide, fun _ h => ?_⟩
  exact absurd h (by decide)

/-- 1.5 is found larger than 2. -/
theorem longer_taken_for_larger : ∃ a b : Num, Produced 1 a ∧ Produced 1 b ∧
    numCompareJueduizhi a b = .ok 1 ∧ a.magnitude < b.magnitude ∧
    plan 1 a b = .ok (.jian false false) ∧ asked 1 a b < 0 ∧ ¬Ordered 1 a b := by
  have hcmp : numCompareJueduizhi ⟨[500000, 1], false, -1, 0, 2⟩ ⟨[2], false, 0, 0, 1⟩ = .ok 1 :=
    rfl
  have hless : (⟨[500000, 1], false, -1, 0, 2⟩ : Num).magnitude <
      (⟨[2], false, 0, 0, 1⟩ : Num).magnitude := by
    norm_num [Num.magnitude, Num.whole, base]
  refine ⟨⟨[500000, 1], false, -1, 0, 2⟩, ⟨[2], false, 0, 0, 1⟩,
    ⟨"1.5".toList, ⟨[], false, 0, 0, 0⟩, by decide, by decide, by decide⟩,
    ⟨"2".toList, ⟨[], false, 0, 0, 0⟩, by decide, by decide, by decide⟩, hcmp, hless, rfl, ?_, ?_⟩
  · simpa [asked, Num.value, signed] using hless
  · rintro ⟨hright, -⟩
    exact lt_asymm hless (((compared_of hcmp).mp hright).1.mp one_pos)

end MyosIo.Calc
