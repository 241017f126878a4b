import MyosIo.Calc.Parse

/-! The words that `string_to_Num` packs denote the text, but for short mantissas. -/
namespace MyosIo.Calc

variable {s : List Char} {n k w : ℕ} {sc : Scanned} {a r : Num} {fuhao : ℕ}

theorem base_pow (k : ℕ) : base ^ k = (10 : ℤ) ^ (6 * k) := by
  rw [pow_mul]
  rfl

theorem sscanf_ok (h : AllDigits (s.take w)) : sscanf w s = decimal (s.take w) := by
  rw [sscanf, h.takeWhile]

theorem sscanf_digit (h : AllDigits (s.take wei)) : 0 ≤ sscanf wei s ∧ sscanf wei s < base := by
  rw [sscanf_ok h]
  have hlt := h.decimal_lt
  have hle : 10 ^ (s.take wei).length ≤ 10 ^ 6 :=
    Nat.pow_le_pow_right (by decide) (List.length_take_le _ _)
  unfold base
  omega

/-- The whole words: each is worth six digits. -/
theorem scanWords_spec (h : AllDigits (s.take (6 * k))) (hk : 6 * k ≤ s.length) :
    (scanWords k s).1.length = k ∧ (scanWords k s).2 = s.drop (6 * k) ∧
      Digits base (scanWords k s).1 ∧
      radix base (scanWords k s).1.reverse = decimal (s.take (6 * k)) := by
  induction k generalizing s with
  | zero => simp [scanWords]
  | succ k ih =>
    have hsplit : s.take (6 * (k + 1)) = s.take 6 ++ (s.drop 6).take (6 * k) := by
      rw [← List.take_add]
      congr 1
      omega
    rw [hsplit, AllDigits.append_iff] at h
    obtain ⟨hlen, hrest, hdigits, hval⟩ := ih h.2 (by rw [List.length_drop]; omega)
    have hword : 0 ≤ sscanf wei s ∧ sscanf wei s < base := sscanf_digit h.1
    have hread : sscanf wei s = decimal (s.take 6) := sscanf_ok h.1
    change ((sscanf wei s) :: (scanWords k (s.drop 6)).1).length = _ ∧
      (scanWords k (s.drop 6)).2 = _ ∧ Digits base (sscanf wei s :: (scanWords k (s.drop 6)).1) ∧
      radix base (sscanf wei s :: (scanWords k (s.drop 6)).1).reverse = _
    have hcount : ((s.drop 6).take (6 * k)).length = 6 * k :=
      List.length_take_of_le (by rw [List.length_drop]; omega)
    refine ⟨by rw [List.length_cons, hlen], ?_, Digits.cons_iff.mpr ⟨hword, hdigits⟩, ?_⟩
    · rw [hrest, List.drop_drop]
      congr 1
      omega
    · rw [List.reverse_cons, radix_append, hval, radix_singleton, List.length_reverse, hlen,
        hread, hsplit, decimal_append, hcount, base_pow]
      push_cast
      ring

/-- All the words of a mantissa: the digits are filled up with `pad` zeros. -/
theorem restWords_spec (sc : Scanned) (hd : AllDigits (sc.string.take sc.len))
    (hl : sc.len ≤ sc.string.length) :
    ∃ pad ≤ 5, 6 * (restWords sc).1.length = sc.len + pad ∧
      (restWords sc).2 = sc.float - pad ∧ Digits base (restWords sc).1 ∧
      radix base (restWords sc).1.reverse = decimal (sc.string.take sc.len) * 10 ^ pad := by
  have hsplit : sc.string.take sc.len = sc.string.take (6 * (sc.len / 6)) ++
      (sc.string.drop (6 * (sc.len / 6))).take (sc.len % 6) := by
    rw [← List.take_add]
    congr 1
    omega
  have hd' := hd
  rw [hsplit, AllDigits.append_iff] at hd'
  obtain ⟨hlen, hrest, hdigits, hval⟩ := scanWords_spec (k := sc.len / 6) hd'.1 (by omega)
  have hwei : wei = 6 := rfl
  unfold restWords
  rw [hwei]
  dsimp only
  split
  next hne =>
    have htail : (sc.string.drop (6 * (sc.len / 6))).take (sc.len % 6) ++
        List.replicate (6 - sc.len % 6) '0' =
        ((sc.string.drop (6 * (sc.len / 6))).take (sc.len % 6) ++
        List.replicate (6 - sc.len % 6) '0').take 6 := by
      refine (List.take_of_length_le ?_).symm
      rw [List.length_append, List.length_take, List.length_replicate]
      omega
    have hall : AllDigits (((sc.string.drop (6 * (sc.len / 6))).take (sc.len % 6) ++
        List.replicate (6 - sc.len % 6) '0').take 6) := by
      rw [← htail]
      exact AllDigits.append_iff.mpr ⟨hd'.2, .zeros _⟩
    have hmod : ((sc.string.drop (6 * (sc.len / 6))).take (sc.len % 6)).length = sc.len % 6 :=
      List.length_take_of_le (by rw [List.length_drop]; omega)
    refine ⟨6 - sc.len % 6, by omega, ?_, rfl, ?_, ?_⟩
    · rw [List.length_append, hlen, List.length_singleton]
      omega
    · rw [hrest, Digits.append_iff, Digits.cons_iff]
      exact ⟨hdigits, sscanf_digit hall, .nil⟩
    · rw [List.reverse_append, List.reverse_singleton, List.singleton_append, radix_cons, hval,
        hrest, sscanf_ok hall, ← htail, decimal_append_zeros, hsplit, decimal_append, hmod]
      have hpow : (10 : ℤ) ^ (sc.len % 6) * 10 ^ (6 - sc.len % 6) = base := by
        rw [← pow_add, show sc.len % 6 + (6 - sc.len % 6) = 6 by omega]
        rfl
      rw [← hpow]
      push_cast
      ring
  next hz =>
    refine ⟨0, by omega, by rw [hlen]; omega, by simp, hdigits, ?_⟩
    have hzero : sc.len % 6 = 0 := by omega
    rw [hval, hsplit, hzero, List.take_zero, List.append_nil, pow_zero, mul_one]

/-- The power of ten is split by flooring division. -/
theorem offset_segment (f : ℤ) :
    (if f.tmod wei ≠ 0 then
      if f.tmod wei < 0 then ((wei : ℤ) + f.tmod wei, f.tdiv wei - 1) else (f.tmod wei, f.tdiv wei)
    else (0, f.tdiv wei)) = (f % 6, f / 6) := by
  have hwei : (wei : ℤ) = 6 := rfl
  rw [hwei]
  rcases Int.le_total 0 f with h | h
  · rw [Int.tmod_eq_emod_of_nonneg h, Int.tdiv_eq_ediv_of_nonneg h]
    split
    · rw [if_neg (by omega)]
    · exact Prod.ext (by dsimp only; omega) rfl
  · obtain ⟨g, rfl⟩ : ∃ g, f = -g := ⟨-f, by omega⟩
    rw [Int.neg_tmod, Int.neg_tdiv, Int.tmod_eq_emod_of_nonneg (by omega),
      Int.tdiv_eq_ediv_of_nonneg (by omega)]
    split
    · rw [if_pos (by omega)]
      exact Prod.ext (by dsimp only; omega) (by dsimp only; omega)
    · exact Prod.ext (by dsimp only; omega) (by dsimp only; omega)

/-- A number whose words hold the mantissa, `h` digits of it in the top word. -/
structure Packed (sc : Scanned) (pad h : ℕ) (r : Num) : Prop where
  array : r.num.length = r.len
  digits : Digits base r.num
  value : radix base r.num = decimal (sc.string.take sc.len) * 10 ^ pad
  padding : pad ≤ 5
  scale : 6 * r.floatSegment + r.floatOffset = sc.float - pad
  offset : r.floatOffset < 6
  words : 6 * r.len + h = sc.len + pad + 6
  top : 1 ≤ h ∧ h ≤ 6

theorem wordsNum_ok {first : List ℤ} {len : ℕ}
    (hlen : (first ++ (restWords sc).1).length = len) (a : Num) : wordsNum first sc len a =
      .ok ⟨(first ++ (restWords sc).1).reverse, a.isNegative, (restWords sc).2 / 6,
        ((restWords sc).2 % 6).toNat, len⟩ := by
  have hsplit := offset_segment (restWords sc).2
  unfold wordsNum
  generalize restWords sc = p at *
  obtain ⟨words, f⟩ := p
  dsimp only at hlen hsplit ⊢
  rw [hsplit, if_pos hlen]

/-- Six digits in every word. -/
theorem packed_plain (h : Mantissa s sc) (a : Num) : ∃ pad r,
    wordsNum [] sc (if sc.len % wei = 0 then sc.len / wei else sc.len / wei + 1) a = .ok r ∧
      Packed sc pad 6 r ∧ r.isNegative = a.isNegative := by
  obtain ⟨pad, hpad, hlen, hfloat, hdigits, hval⟩ := restWords_spec _ h.digits h.fits
  have hcount : ([] ++ (restWords sc).1).length =
      if sc.len % wei = 0 then sc.len / wei else sc.len / wei + 1 := by
    have hwei : wei = 6 := rfl
    rw [List.nil_append, hwei]
    split <;> omega
  refine ⟨pad, _, wordsNum_ok hcount a, ?_, rfl⟩
  rw [← hcount, hfloat]
  constructor
  · rw [List.length_reverse]
  · intro w hw
    exact hdigits w (by simpa using hw)
  · exact hval
  · exact hpad
  · dsimp only
    omega
  · dsimp only
    omega
  · rw [List.nil_append]
    dsimp only
    omega
  · omega

/-- The top word holds only `temp` digits. -/
theorem packed_first {temp : ℕ} (h : Mantissa s sc) (ht : 0 < temp ∧ temp < 6)
    (hlt : temp < sc.len) (a : Num) : ∃ pad r,
    wordsNum [sscanf temp sc.string] ⟨sc.string.drop temp, sc.len - temp, sc.float⟩
        (if (sc.len - temp) % wei = 0 then (sc.len - temp) / wei + 1
          else (sc.len - temp) / wei + 2) a = .ok r ∧
      Packed sc pad temp r ∧ r.isNegative = a.isNegative := by
  have hfits := h.fits
  have hsplit : sc.string.take sc.len =
      sc.string.take temp ++ (sc.string.drop temp).take (sc.len - temp) := by
    rw [← List.take_add]
    congr 1
    omega
  have hd := h.digits
  rw [hsplit, AllDigits.append_iff] at hd
  obtain ⟨pad, hpad, hlen, hfloat, hdigits, hval⟩ :=
    restWords_spec ⟨sc.string.drop temp, sc.len - temp, sc.float⟩ hd.2
      (by rw [List.length_drop]; dsimp only; omega)
  dsimp only at hlen hfloat hval
  generalize hrest : Scanned.mk (sc.string.drop temp) (sc.len - temp) sc.float = rest at *
  have hcount : ([sscanf temp sc.string] ++ (restWords rest).1).length =
      if (sc.len - temp) % wei = 0 then (sc.len - temp) / wei + 1
        else (sc.len - temp) / wei + 2 := by
    have hwei : wei = 6 := rfl
    rw [List.length_append, List.length_singleton, hwei]
    split <;> omega
  have hfirst : 0 ≤ sscanf temp sc.string ∧ sscanf temp sc.string < base := by
    rw [sscanf_ok hd.1]
    have hlt := hd.1.decimal_lt
    have hle : 10 ^ (sc.string.take temp).length ≤ 10 ^ 6 :=
      Nat.pow_le_pow_right (by decide) ((List.length_take_le _ _).trans ht.2.le)
    unfold base
    omega
  have htail : ((sc.string.drop temp).take (sc.len - temp)).length = sc.len - temp :=
    List.length_take_of_le (by rw [List.length_drop]; omega)
  refine ⟨pad, _, wordsNum_ok hcount a, ?_, rfl⟩
  rw [← hcount, hfloat]
  constructor
  · rw [List.length_reverse]
  · intro w hw
    rcases List.mem_cons.mp (List.mem_reverse.mp hw) with rfl | hw
    · exact hfirst
    · exact hdigits w hw
  · dsimp only
    rw [List.reverse_append, List.reverse_singleton, radix_append, hval, radix_singleton,
      List.length_reverse, base_pow, hlen, sscanf_ok hd.1, hsplit, decimal_append, htail]
    push_cast
    rw [pow_add]
    ring
  · exact hpad
  · dsimp only
    omega
  · dsimp only
    omega
  · rw [List.length_append, List.length_singleton]
    dsimp only
    omega
  · omega

/-- The shortcut: the digits and zeros up to a multiple of six digits before the point are read as
one word. -/
def shortcut (sc : Scanned) (temp : ℕ) (a : Num) : Num :=
  ⟨[decimal (sc.string.take sc.len) * 10 ^ (temp - sc.len)], a.isNegative, 0, 0, 1⟩

/-- What `string_to_Num` leaves for an accepted text. -/
theorem stringToNum_cases (h : check s = true) (a : Num) (fuhao : ℕ) :
    stringToNum s a fuhao = .ok ⟨[], false, 0, 0, 0⟩ ∧ denoted s = 0 ∧ intDigits s = 0 ∨
    ∃ sc, Mantissa s sc ∧
      ((∃ pad k r, stringToNum s a fuhao = .ok r ∧ Packed sc pad k r ∧
          r.isNegative = a.isNegative ∧ (fuhao ≤ 1 → intDigits s % 6 = k % 6) ∧
          (fuhao ≤ 1 → intDigits s % 6 ≠ 0 → intDigits s % 6 < sc.len)) ∨
        stringToNum s a fuhao = .ok (shortcut sc (intDigits s % 6) a) ∧ fuhao ≤ 1 ∧
          intDigits s % 6 ≠ 0 ∧ sc.len ≤ intDigits s % 6) := by
  rcases scanned_spec h with ⟨hnone, hz⟩ | ⟨sc, hsome, hm⟩
  · refine .inl ⟨?_, hz⟩
    rw [stringToNum, hnone]
    rfl
  · refine .inr ⟨sc, hm, ?_⟩
    have hcount := hm.count
    have htemp : ((sc.len + sc.float) % wei).toNat = intDigits s % 6 := by
      rw [hcount]
      rfl
    unfold stringToNum
    rw [hsome]
    simp only [bind, Except.bind, htemp]
    generalize hD : intDigits s % 6 = temp at *
    split
    next hfirst =>
      split
      next hge =>
        refine .inr ⟨?_, hfirst.1, hfirst.2, hge⟩
        have hfloat : sc.float ≥ 0 := by omega
        have hread : (sc.string.take sc.len ++ List.replicate (temp - sc.len) '0').take temp =
            sc.string.take sc.len ++ List.replicate (temp - sc.len) '0' := by
          refine List.take_of_length_le ?_
          rw [List.length_append, List.length_take_of_le hm.fits, List.length_replicate]
          omega
        have hall : AllDigits
            ((sc.string.take sc.len ++ List.replicate (temp - sc.len) '0').take temp) := by
          rw [hread]
          exact AllDigits.append_iff.mpr ⟨hm.digits, .zeros _⟩
        rw [if_pos hfloat, sscanf_ok hall, hread, decimal_append_zeros, shortcut]
        push_cast
        rfl
      next hlt =>
        obtain ⟨pad, r, hr, hp, hneg⟩ := packed_first hm (by omega) (Nat.not_le.mp hlt) a
        exact .inl ⟨pad, temp, r, hr, hp, hneg, fun _ => by omega, fun _ _ => Nat.not_le.mp hlt⟩
    next hplain =>
      obtain ⟨pad, r, hr, hp, hneg⟩ := packed_plain hm a
      exact .inl ⟨pad, 6, r, hr, hp, hneg, fun hf => by by_contra hne; exact hplain ⟨hf, hne⟩,
        fun hf hne => absurd ⟨hf, hne⟩ hplain⟩

theorem Mantissa.pos (h : Mantissa s sc) : 0 < sc.len ∧ 0 < decimal (sc.string.take sc.len) := by
  obtain ⟨u, c, hu, hc⟩ := h.last
  have hd := h.digits
  rw [hu] at hd
  refine ⟨?_, by rw [hu]; exact hd.decimal_pos hc⟩
  by_contra hz
  rw [Nat.eq_zero_of_not_pos hz, List.take_zero] at hu
  simp at hu

theorem Mantissa.denoted_pos (h : Mantissa s sc) : 0 < denoted s := by
  rw [h.value]
  exact mul_pos (Nat.cast_pos.mpr h.pos.2) (zpow_pos (by norm_num) _)

theorem Packed.magnitude {pad : ℕ} (h : Packed sc pad k r) (hm : Mantissa s sc) :
    r.magnitude = denoted s := by
  rw [Num.magnitude, Num.whole, List.take_of_length_le h.array.le, h.value, h.scale, hm.value,
    zpow_sub₀ (by norm_num), zpow_natCast]
  push_cast
  field_simp

theorem Packed.wellFormed {pad : ℕ} (h : Packed sc pad k r) : r.WellFormed where
  digits := h.digits.take _
  array := h.array.ge

theorem Packed.len_pos {pad : ℕ} (h : Packed sc pad k r) (hm : Mantissa s sc) : 0 < r.len := by
  have := h.words
  have := h.top
  have := hm.pos
  omega

theorem shortcut_wellFormed {temp : ℕ} (hm : Mantissa s sc) (ht : temp < 6) (hle : sc.len ≤ temp)
    (a : Num) : (shortcut sc temp a).WellFormed := by
  have hlt := hm.digits.decimal_lt
  rw [List.length_take_of_le hm.fits] at hlt
  have hpow : 10 ^ sc.len * 10 ^ (temp - sc.len) ≤ 10 ^ 6 := by
    rw [← pow_add]
    exact Nat.pow_le_pow_right (by decide) (by omega)
  have hmul := Nat.mul_lt_mul_of_pos_right hlt (show 0 < 10 ^ (temp - sc.len) by positivity)
  refine ⟨?_, Nat.le_refl 1⟩
  change Digits base [(decimal (sc.string.take sc.len) : ℤ) * 10 ^ (temp - sc.len)]
  rw [Digits.cons_iff]
  refine ⟨⟨by positivity, ?_⟩, .nil⟩
  have : decimal (sc.string.take sc.len) * 10 ^ (temp - sc.len) < 10 ^ 6 := hmul.trans_le hpow
  unfold base
  exact_mod_cast this

/-- The shortcut forgets the words below the one it reads. -/
theorem shortcut_magnitude (hm : Mantissa s sc)
    (hle : sc.len ≤ intDigits s % 6) (a : Num) :
    (shortcut sc (intDigits s % 6) a).magnitude = denoted s ↔ intDigits s < 6 := by
  obtain ⟨-, hpos⟩ := hm.pos
  have hcount := hm.count
  have hten : (10 : ℚ) ≠ 0 := by norm_num
  have hmag : (shortcut sc (intDigits s % 6) a).magnitude =
      decimal (sc.string.take sc.len) * 10 ^ ((intDigits s % 6 - sc.len : ℕ) : ℤ) := by
    change ((radix base [(decimal (sc.string.take sc.len) : ℤ) *
      10 ^ (intDigits s % 6 - sc.len)] : ℤ) : ℚ) * 10 ^ (6 * (0 : ℤ) + (0 : ℕ)) = _
    rw [radix_singleton, zpow_natCast]
    simp
  rw [hmag, hm.value]
  constructor
  · intro heq
    have hpow := mul_left_cancel₀ (by exact_mod_cast hpos.ne') heq
    have := zpow_right_injective₀ (by norm_num : (0 : ℚ) < 10) (by norm_num) hpow
    omega
  · intro hlt
    congr 2
    omega

/-- The number read is the one denoted, in words that are digits. -/
def Exact (s : List Char) (fuhao : ℕ) : Prop :=
  ∀ a, ∃ r, stringToNum s a fuhao = .ok r ∧ r.WellFormed ∧ r.floatOffset < 6 ∧
    (fuhao ≤ 1 → r.floatOffset = 0) ∧ r.magnitude = denoted s ∧ (r.len = 0 ↔ denoted s = 0)

/-- Six or more digits before the point, and no more significant digits than belong to an
incomplete top word. -/
def ShortMantissa (s : List Char) (fuhao : ℕ) : Prop :=
  fuhao ≤ 1 ∧ 6 ≤ intDigits s ∧ intDigits s % 6 ≠ 0 ∧ significant s ≤ intDigits s % 6

theorem Packed.exact {pad : ℕ} (h : Packed sc pad k r) (hm : Mantissa s sc)
    (hk : fuhao ≤ 1 → intDigits s % 6 = k % 6) : r.WellFormed ∧ r.floatOffset < 6 ∧
    (fuhao ≤ 1 → r.floatOffset = 0) ∧ r.magnitude = denoted s ∧ (r.len = 0 ↔ denoted s = 0) := by
  refine ⟨h.wellFormed, h.offset, fun hf => ?_, h.magnitude hm, ?_⟩
  · have := hk hf
    have := h.scale
    have := h.words
    have := h.offset
    have := hm.count
    omega
  · exact iff_of_false (h.len_pos hm).ne' hm.denoted_pos.ne'

/-- `string_to_Num` reads every accepted text exactly, unless it has a short mantissa. -/
theorem exact_iff (h : check s = true) (fuhao : ℕ) : Exact s fuhao ↔ ¬ShortMantissa s fuhao := by
  constructor
  · rintro hex ⟨hf, hD, hmod, hle⟩
    obtain ⟨r, hr, -, -, -, hmag, -⟩ := hex ⟨[], false, 0, 0, 0⟩
    rcases stringToNum_cases h ⟨[], false, 0, 0, 0⟩ fuhao with ⟨-, -, hint⟩ | ⟨sc, hm, hcases⟩
    · omega
    · have hlen := hm.significant (by omega)
      rcases hcases with ⟨-, -, -, -, -, -, -, hlt⟩ | ⟨hshort, -, -, hle'⟩
      · have := hlt hf hmod
        omega
      · rw [hshort] at hr
        obtain rfl := Except.ok.inj hr
        have := (shortcut_magnitude hm hle' _).mp hmag
        omega
  · intro hshort a
    rcases stringToNum_cases h a fuhao with ⟨hzero, hz, -⟩ | ⟨sc, hm, hcases⟩
    · exact ⟨_, hzero, ⟨by simp, Nat.le_refl 0⟩, by simp, fun _ => rfl,
        by rw [hz]; simp [Num.magnitude, Num.whole], by simp [hz]⟩
    · rcases hcases with ⟨pad, k, r, hr, hp, -, hk, -⟩ | ⟨hr, hf, hmod, hle⟩
      · exact ⟨r, hr, hp.exact hm hk⟩
      · have hlen := hm.significant (by omega)
        have hsmall : intDigits s < 6 := by
          by_contra hge
          exact hshort ⟨hf, by omega, hmod, by omega⟩
        refine ⟨_, hr, shortcut_wellFormed hm (by omega) hle a, by simp [shortcut],
          fun _ => rfl, (shortcut_magnitude hm hle a).mpr hsmall, ?_⟩
        exact iff_of_false Nat.one_ne_zero hm.denoted_pos.ne'

/-- 1.5. -/
theorem exact_iff_sample : Exact ['1', '.', '5'] 0 := by
  refine (exact_iff (by decide) 0).mpr ?_
  rintro ⟨-, hD, -⟩
  exact absurd hD (by decide)

/-- A million before `+` is read as one. -/
theorem million_read_as_one : check ['1', '0', '0', '0', '0', '0', '0'] = true ∧
    stringToNum ['1', '0', '0', '0', '0', '0', '0'] ⟨[], false, 0, 0, 0⟩ 0 =
      .ok ⟨[1], false, 0, 0, 1⟩ ∧
    denoted ['1', '0', '0', '0', '0', '0', '0'] = 1000000 ∧
    ¬Exact ['1', '0', '0', '0', '0', '0', '0'] 0 := by
  have hread : stringToNum ['1', '0', '0', '0', '0', '0', '0'] ⟨[], false, 0, 0, 0⟩ 0 =
      .ok ⟨[1], false, 0, 0, 1⟩ := rfl
  have hden : denoted ['1', '0', '0', '0', '0', '0', '0'] = 1000000 := by
    have hdigits : AllDigits ['1', '0', '0', '0', '0', '0', '0'] := by simp [AllDigits]
    have hval : decimal ['1', '0', '0', '0', '0', '0', '0'] = 1000000 := rfl
    rw [hdigits.denoted, hval]
    norm_num
  refine ⟨by decide, hread, hden, fun hex => ?_⟩
  obtain ⟨r, hr, -, -, -, hmag, -⟩ := hex ⟨[], false, 0, 0, 0⟩
  rw [hread] at hr
  obtain rfl := Except.ok.inj hr
  rw [hden] at hmag
  norm_num [Num.magnitude, Num.whole, radix] at hmag

end MyosIo.Calc
