import MyosIo.Calc.Compare
import MyosIo.Calc.Product
import MyosIo.Lib.Division

/-! `nextDigit` and `firstDigit` find the digit from the leading words just where their estimate
is at most one too large; `takeOff` leaves the remainder. -/
namespace MyosIo.Calc

variable {cs ws low above xs ys : List ℤ} {x y z c q r T V X : ℤ} {n : ℕ}

theorem divide_ok (hx : 0 ≤ x ∧ x < 2 ^ 63) (hy : 0 < y) : divide x y = .ok (x / y) := by
  have hle : x / y ≤ x := Int.ediv_le_self _ hx.1
  have hnn : 0 ≤ x / y := Int.ediv_nonneg hx.1 hy.le
  unfold divide
  rw [if_neg hy.ne', Int.tdiv_eq_ediv_of_nonneg hx.1, i64_ok (by omega) (by omega)]

theorem divide_zero (x : ℤ) : divide x 0 = .error .fault := if_pos rfl

theorem twoWords_ok (hx : 0 ≤ x ∧ x < base) (hy : 0 ≤ y ∧ y < base) :
    twoWords x y = .ok (radix base [y, x]) := by
  have hbase : base = 1000000 := rfl
  unfold twoWords
  rw [hbase] at hx hy ⊢
  rw [i64_ok (by omega) (by omega), ok_bind, i64_ok (by omega) (by omega)]
  simp only [radix_cons, radix_nil]
  congr 1
  ring

theorem threeWords_ok (hx : 0 ≤ x ∧ x < base) (hy : 0 ≤ y ∧ y < base) (hz : 0 ≤ z ∧ z < base) :
    threeWords x y z = .ok (radix base [z, y, x]) := by
  have hbase : base = 1000000 := rfl
  unfold threeWords
  rw [hbase] at hx hy hz ⊢
  rw [i64_ok (by omega) (by omega), ok_bind, i64_ok (by omega) (by omega), ok_bind,
    i64_ok (by omega) (by omega), ok_bind, i64_ok (by omega) (by omega)]
  simp only [radix_cons, radix_nil]
  congr 1
  ring

theorem read_at {i : ℤ} (h : i = low.length) : read (low ++ x :: above) i = .ok x := by
  rw [h]
  exact read_ok (by simp)

/-- The highest words are the number without its lowest digits. -/
theorem radix_leading (h : Digits base xs) (ys : List ℤ) :
    radix base (xs ++ ys) / base ^ xs.length =
    radix base ys := by
  rw [radix_append, Int.add_mul_ediv_left _ _ (pow_pos base_pos _).ne',
    Int.ediv_eq_zero_of_lt h.nonneg h.lt_pow, Int.zero_add]

theorem correct_result {lo off : ℤ} {top : List ℤ} (h : correct lo q cs top off ws = .ok r) :
    r = q ∨ r = q - 1 := by
  unfold correct at h
  split at h
  · obtain ⟨p, -, h⟩ := bind_ok.mp h
    obtain ⟨p', -, h⟩ := bind_ok.mp h
    split at h
    · obtain ⟨t, -, h⟩ := bind_ok.mp h
      split at h
      · exact .inr (i64_eq_ok.mp h).2.symm
      · exact .inl (Except.ok.inj h).symm
    · cases h
  · exact .inl (Except.ok.inj h).symm

theorem scale_ok (hq : 0 ≤ q ∧ q ≤ base) (hc : Digits base cs) :
    scale q cs = .ok (cs.map (· * q)) ∧ radix base (cs.map (· * q)) = q * radix base cs ∧
      ∀ w ∈ cs.map (· * q), 0 ≤ w ∧ w ≤ base ^ 2 := by
  induction cs with
  | nil => simp [scale]
  | cons x cs ih =>
    obtain ⟨hx, hcs⟩ := Digits.cons_iff.mp hc
    obtain ⟨hrun, hval, hbound⟩ := ih hcs
    have hnn : 0 ≤ x * q := Int.mul_nonneg hx.1 hq.1
    have hle : x * q ≤ base ^ 2 := by
      rw [sq]
      exact Int.mul_le_mul hx.2.le hq.2 hq.1 base_pos.le
    refine ⟨?_, ?_, ?_⟩
    · have hbase : base ^ 2 < 2 ^ 63 := by decide
      rw [scale, i64_ok (by omega) (by omega), ok_bind, hrun, ok_bind]
      rfl
    · rw [List.map_cons, radix_cons, hval, radix_cons]
      ring
    · intro w hw
      rcases List.mem_cons.mp hw with rfl | hw
      · exact ⟨hnn, hle⟩
      · exact hbound w hw

/-- An estimate that is at most one too large is corrected. -/
theorem correct_ok {t : ℕ} {lo off : ℤ} (hc : Digits base cs) (hne : cs ≠ [])
    (hw : Digits base ws) (hlen : ws.length = cs.length + t) (hb : 0 < radix base cs)
    (hoff : off = low.length) (hlo : lo ≤ radix base ws / radix base cs)
    (hle : radix base ws / radix base cs ≤ q) (hq : q ≤ radix base ws / radix base cs + 1)
    (hmax : q ≤ base) :
    correct lo q cs (List.replicate t 0) off (low ++ ws ++ above) =
      .ok (radix base ws / radix base cs) := by
  have hnn : 0 ≤ radix base ws / radix base cs := Int.ediv_nonneg hw.nonneg hb.le
  unfold correct
  split
  next hdiff =>
    obtain ⟨hscale, hval, hbound⟩ := scale_ok ⟨hnn.trans hle, hmax⟩ hc
    obtain ⟨body, top, hrun, hbody, hdigits, htop, hsame⟩ := jinweiZhengxiang_spec
      (cs.map (· * q) ++ List.replicate t 0) (M := base ^ 2)
      (by simpa using fun h => absurd h hne) (by decide) (by
        intro w hmem
        rcases List.mem_append.mp hmem with hmem | hmem
        · exact hbound w hmem
        · rw [List.eq_of_mem_replicate hmem]
          decide)
    rw [List.append_nil, ← hbody] at hrun
    obtain ⟨vs, v, rfl⟩ := (List.eq_nil_or_concat' ws).resolve_left (by
      rintro rfl
      have := List.length_pos_of_ne_nil hne
      rw [List.length_nil] at hlen
      omega)
    rw [List.length_append, List.length_map] at hbody
    rw [List.length_append, List.length_singleton] at hlen
    rw [List.length_replicate] at hbody
    obtain ⟨s, hs, hpos, -⟩ := numcmp_spec hdigits (Digits.append_iff.mp hw).1
      (show body.length = vs.length by omega) top v [] above
    have hdrop : (low ++ (vs ++ [v]) ++ above).drop off.toNat = vs ++ v :: above := by
      rw [hoff, Int.toNat_natCast, List.append_assoc, List.drop_left, List.append_assoc]
      rfl
    rw [hscale, ok_bind, List.length_replicate, ← hbody, hrun, ok_bind, if_pos (by omega), hdrop,
      hs, ok_bind]
    have hzeros : radix base (cs.map (· * q) ++ List.replicate t 0) = q * radix base cs := by
      rw [radix_append, radix_replicate_zero, mul_zero, add_zero, hval]
    rw [hsame, hzeros] at hpos
    -- the product is larger than the dividend just where the estimate is too large
    have hfits : q * radix base cs ≤ radix base (vs ++ [v]) ↔
        q ≤ radix base (vs ++ [v]) / radix base cs := (Int.le_ediv_iff_mul_le hb).symm
    have hsmall : base < 2 ^ 63 := by decide
    split
    next hgt =>
      rw [i64_ok (by omega) (by omega)]
      have := hpos.mp hgt
      congr 1
      omega
    next hle' =>
      have : ¬radix base (vs ++ [v]) < q * radix base cs := fun h => hle' (hpos.mpr h)
      congr 1
      omega
  next heq =>
    have hq : lo = q := not_not.mp heq
    rw [show q = radix base ws / radix base cs by omega]

/-- Three words are an `int64_t`. -/
theorem three_lt (hw : Digits base [z, y, x]) : radix base [z, y, x] + 1 < 2 ^ 63 := by
  have hlt : radix base [z, y, x] < base ^ 3 := hw.lt_pow
  have hpow : base ^ 3 + 1 < 2 ^ 63 := by decide
  omega

/-- The digit is estimated from the leading words `T` of the partial dividend and `V` of the
divisor, and corrected. -/
def estimated (T V : ℤ) (cs top : List ℤ) (off : ℤ) (ws : List ℤ) : Outcome ℤ := do
  let lo ← divide T (V + 1)
  let q ← divide (T + 1) V
  correct lo q cs top off ws

theorem estimated_ok {t : ℕ} {vs : List ℤ} (low above : List ℤ) (hc : Digits base (ys ++ vs))
    (hne : ys ++ vs ≠ []) (hw : Digits base (xs ++ [z, y, x])) (hxs : xs.length = ys.length)
    (ht : vs.length + t = 3) (hb : 0 < radix base (ys ++ vs))
    (hlt : radix base (xs ++ [z, y, x]) < radix base (ys ++ vs) * base)
    (hclose : Close (radix base (ys ++ vs)) (radix base (xs ++ [z, y, x])) (base ^ ys.length)) :
    estimated (radix base [z, y, x]) (radix base vs) (ys ++ vs) (List.replicate t 0) low.length
        (low ++ (xs ++ [z, y, x]) ++ above) =
      .ok (radix base (xs ++ [z, y, x]) / radix base (ys ++ vs)) := by
  obtain ⟨hxd, hxt⟩ := Digits.append_iff.mp hw
  obtain ⟨hyd, hyt⟩ := Digits.append_iff.mp hc
  obtain ⟨hV, hest⟩ := hclose
  have hs : (0 : ℤ) < base ^ ys.length := pow_pos base_pos _
  have hlow := estimate_le hw.nonneg hb hs
  have hhigh := le_estimate hw.nonneg hb hs
  have hT : radix base (xs ++ [z, y, x]) / base ^ ys.length = radix base [z, y, x] := by
    rw [← hxs]
    exact radix_leading hxd _
  rw [hT, radix_leading hyd] at hlow hhigh hest
  rw [radix_leading hyd] at hV
  have hVpos : 0 < radix base vs := lt_of_le_of_ne hyt.nonneg hV.symm
  have hthree := three_lt hxt
  have hnn := hxt.nonneg
  have hquot : radix base (xs ++ [z, y, x]) / radix base (ys ++ vs) < base :=
    Int.ediv_lt_of_lt_mul hb (by rwa [mul_comm])
  have hlen : (xs ++ [z, y, x]).length = (ys ++ vs).length + t := by
    rw [List.length_append, List.length_append, hxs, Nat.add_assoc, ht]
    rfl
  rw [estimated, divide_ok ⟨hnn, by omega⟩ (by omega), ok_bind,
    divide_ok ⟨by omega, hthree⟩ hVpos, ok_bind]
  exact correct_ok hc hne hw hlen hb rfl hlow (hhigh hVpos) hest (by omega)

/-- Where the digit is the right one the estimate was at most one too large. -/
theorem close_of_estimated {vs top : List ℤ} {off : ℤ} (hc : Digits base (ys ++ vs))
    (hw : Digits base (xs ++ [z, y, x])) (hxs : xs.length = ys.length)
    (h : estimated (radix base [z, y, x]) (radix base vs) cs top off ws =
      .ok (radix base (xs ++ [z, y, x]) / radix base (ys ++ vs))) :
    Close (radix base (ys ++ vs)) (radix base (xs ++ [z, y, x])) (base ^ ys.length) := by
  obtain ⟨hxd, hxt⟩ := Digits.append_iff.mp hw
  obtain ⟨hyd, hyt⟩ := Digits.append_iff.mp hc
  have hT : radix base (xs ++ [z, y, x]) / base ^ ys.length = radix base [z, y, x] := by
    rw [← hxs]
    exact radix_leading hxd _
  have hthree := three_lt hxt
  have hnn := hxt.nonneg
  obtain ⟨lo, -, h⟩ := bind_ok.mp h
  obtain ⟨q, hq, h⟩ := bind_ok.mp h
  have hV : radix base vs ≠ 0 := by
    intro hz
    rw [hz, divide_zero] at hq
    cases hq
  rw [divide_ok ⟨by omega, hthree⟩ (lt_of_le_of_ne hyt.nonneg hV.symm)] at hq
  obtain rfl := Except.ok.inj hq
  unfold Close
  rw [hT, radix_leading hyd]
  refine ⟨hV, ?_⟩
  rcases correct_result h with he | he <;> omega

/-- What `nextDigit` does with a divisor of three or more words. -/
theorem nextDigit_long {c₀ c₁ : ℤ} (hy : ys ≠ []) (hlen : xs.length = ys.length)
    (hc : Digits base [c₀, c₁]) (hw : Digits base [z, y, x]) :
    nextDigit (ys ++ [c₀, c₁]) (low ++ (xs ++ [z, y, x]) ++ above)
        (low.length + (ys ++ [c₀, c₁]).length) =
      estimated (radix base [z, y, x]) (radix base [c₀, c₁]) (ys ++ [c₀, c₁]) [0] low.length
        (low ++ (xs ++ [z, y, x]) ++ above) := by
  simp only [Digits.cons_iff] at hc hw
  obtain ⟨hc₀, hc₁, -⟩ := hc
  obtain ⟨hz, hy', hx, -⟩ := hw
  have hpos := List.length_pos_of_ne_nil hy
  have hcount : (ys ++ [c₀, c₁]).length = ys.length + 2 := by simp
  have hsplit : low ++ (xs ++ [z, y, x]) ++ above = low ++ xs ++ z :: y :: x :: above := by simp
  have hx₀ : read (low ++ xs ++ z :: y :: x :: above) (low.length + (ys.length + 2 : ℕ)) =
      .ok x := by
    rw [show low ++ xs ++ z :: y :: x :: above = (low ++ xs ++ [z, y]) ++ x :: above by simp]
    exact read_at (by simp only [List.length_append, List.length_cons, List.length_nil]; omega)
  have hy₀ : read (low ++ xs ++ z :: y :: x :: above) (low.length + (ys.length + 2 : ℕ) - 1) =
      .ok y := by
    rw [show low ++ xs ++ z :: y :: x :: above = (low ++ xs ++ [z]) ++ y :: x :: above by simp]
    exact read_at (by simp only [List.length_append, List.length_cons, List.length_nil]; omega)
  have hz₀ : read (low ++ xs ++ z :: y :: x :: above) (low.length + (ys.length + 2 : ℕ) - 2) =
      .ok z :=
    read_at (by simp only [List.length_append]; omega)
  have hc₁' : read (ys ++ [c₀, c₁]) (((ys.length + 2 : ℕ) : ℤ) - 1) = .ok c₁ := by
    rw [show ys ++ [c₀, c₁] = (ys ++ [c₀]) ++ [c₁] by simp]
    exact read_at (by simp only [List.length_append, List.length_cons, List.length_nil]; omega)
  have hc₀' : read (ys ++ [c₀, c₁]) (((ys.length + 2 : ℕ) : ℤ) - 2) = .ok c₀ :=
    read_at (by omega)
  have hoff : (low.length : ℤ) + (ys.length + 2 : ℕ) - (ys.length + 2 : ℕ) = low.length := by omega
  unfold nextDigit
  dsimp only
  rw [hsplit, hcount, hx₀, ok_bind, hy₀, ok_bind, if_neg (by omega), hz₀, ok_bind,
    threeWords_ok hx hy' hz, ok_bind, hc₁', ok_bind, hc₀', ok_bind, twoWords_ok hc₁ hc₀, ok_bind,
    if_neg (by omega), hoff]
  rfl

theorem nextDigit_one (hw : Digits base [y, x]) :
    nextDigit [c] (low ++ [y, x] ++ above) (low.length + 1) = divide (radix base [y, x]) c := by
  simp only [Digits.cons_iff] at hw
  obtain ⟨hy, hx, -⟩ := hw
  have hx₀ : read (low ++ [y, x] ++ above) (low.length + 1) = .ok x := by
    rw [show low ++ [y, x] ++ above = (low ++ [y]) ++ x :: above by simp]
    exact read_at (by simp)
  have hy₀ : read (low ++ [y, x] ++ above) (low.length + 1 - 1) = .ok y := by
    rw [show low ++ [y, x] ++ above = low ++ y :: x :: above by simp]
    exact read_at (by omega)
  unfold nextDigit
  dsimp only
  rw [hx₀, ok_bind, hy₀, ok_bind, if_pos (show [c].length = 1 from rfl), twoWords_ok hx hy, ok_bind]
  rfl

theorem nextDigit_two {c₀ c₁ : ℤ} (hc : Digits base [c₀, c₁]) (hw : Digits base [z, y, x]) :
    nextDigit [c₀, c₁] (low ++ [z, y, x] ++ above) (low.length + 2) =
      divide (radix base [z, y, x]) (radix base [c₀, c₁]) := by
  simp only [Digits.cons_iff] at hc hw
  obtain ⟨hc₀, hc₁, -⟩ := hc
  obtain ⟨hz, hy, hx, -⟩ := hw
  have hx₀ : read (low ++ [z, y, x] ++ above) (low.length + 2) = .ok x := by
    rw [show low ++ [z, y, x] ++ above = (low ++ [z, y]) ++ x :: above by simp]
    exact read_at (by simp)
  have hy₀ : read (low ++ [z, y, x] ++ above) (low.length + 2 - 1) = .ok y := by
    rw [show low ++ [z, y, x] ++ above = (low ++ [z]) ++ y :: x :: above by simp]
    exact read_at (by simp only [List.length_append, List.length_singleton]; omega)
  have hz₀ : read (low ++ [z, y, x] ++ above) (low.length + 2 - 2) = .ok z := by
    rw [show low ++ [z, y, x] ++ above = low ++ z :: y :: x :: above by simp]
    exact read_at (by omega)
  have hc₁' : read [c₀, c₁] ((([c₀, c₁] : List ℤ).length : ℤ) - 1) = .ok c₁ := rfl
  have hc₀' : read [c₀, c₁] ((([c₀, c₁] : List ℤ).length : ℤ) - 2) = .ok c₀ := rfl
  unfold nextDigit
  dsimp only
  rw [hx₀, ok_bind, hy₀, ok_bind, if_neg (by simp), hz₀, ok_bind, threeWords_ok hx hy hz, ok_bind,
    hc₁', ok_bind, hc₀', ok_bind, twoWords_ok hc₁ hc₀, ok_bind,
    if_pos (show [c₀, c₁].length = 2 from rfl)]

theorem split_three (h : ws.length = n + 3) :
    ∃ (us : List ℤ) (z y x : ℤ), ws = us ++ [z, y, x] ∧ us.length = n := by
  have hlen : (ws.drop n).length = 3 := by
    rw [List.length_drop]
    omega
  obtain ⟨z, y, x, hzyx⟩ := List.length_eq_three.mp hlen
  exact ⟨ws.take n, z, y, x, by rw [← hzyx, List.take_append_drop],
    List.length_take_of_le (by omega)⟩

/-- A divisor of one word, of two, or of more. -/
theorem divisor_cases (hne : cs ≠ []) : (∃ c, cs = [c]) ∨ (∃ c₀ c₁, cs = [c₀, c₁]) ∨
    ∃ ys c₀ c₁ c₂, cs = ys ++ [c₀, c₁, c₂] := by
  match cs, hne with
  | [c], _ => exact .inl ⟨c, rfl⟩
  | [c₀, c₁], _ => exact .inr (.inl ⟨c₀, c₁, rfl⟩)
  | c :: c' :: c'' :: rest, _ =>
    obtain ⟨us, c₀, c₁, c₂, hcs, -⟩ := split_three (n := rest.length)
      (show (c :: c' :: c'' :: rest).length = _ by simp)
    exact .inr (.inr ⟨us, c₀, c₁, c₂, hcs⟩)

/-- A digit is found where the estimate, if there is one, is at most one too large. -/
theorem nextDigit_ok (low above : List ℤ) (hc : Digits base cs) (hne : cs ≠ [])
    (hb : 0 < radix base cs)
    (hw : Digits base ws) (hlen : ws.length = cs.length + 1)
    (hlt : radix base ws < radix base cs * base)
    (hclose : cs.length ≤ 2 ∨ Close (radix base cs) (radix base ws) (base ^ (cs.length - 2))) :
    nextDigit cs (low ++ ws ++ above) (low.length + cs.length) =
      .ok (radix base ws / radix base cs) := by
  rcases divisor_cases hne with ⟨c, rfl⟩ | ⟨c₀, c₁, rfl⟩ | ⟨us, u, c₀, c₁, hcs⟩
  · obtain ⟨y, x, rfl⟩ := List.length_eq_two.mp hlen
    have hlt : radix base [y, x] < base ^ 2 := hw.lt_pow
    have hpow : base ^ 2 < 2 ^ 63 := by decide
    rw [radix_singleton] at hb ⊢
    rw [← divide_ok ⟨hw.nonneg, by omega⟩ hb]
    exact nextDigit_one hw
  · obtain ⟨z, y, x, rfl⟩ := List.length_eq_three.mp hlen
    have hthree := three_lt hw
    rw [← divide_ok ⟨hw.nonneg, by omega⟩ hb]
    exact nextDigit_two hc hw
  · obtain ⟨ys, rfl, hys⟩ : ∃ ys, cs = ys ++ [c₀, c₁] ∧ ys ≠ [] :=
      ⟨us ++ [u], by simp [hcs], by simp⟩
    rw [List.length_append] at hlen hclose
    obtain ⟨xs, z, y, x, rfl, hxs⟩ := split_three (n := ys.length) hlen
    rw [nextDigit_long hys hxs (Digits.append_iff.mp hc).2 (Digits.append_iff.mp hw).2]
    exact estimated_ok (t := 1) low above hc hne hw hxs rfl hb hlt
      (hclose.resolve_left (by simpa using hys))

/-- Where the digit is the right one the estimate was at most one too large. -/
theorem close_of_nextDigit (hc : Digits base cs) (hne : cs ≠ [])
    (hw : Digits base ws) (hlen : ws.length = cs.length + 1)
    (h : nextDigit cs (low ++ ws ++ above) (low.length + cs.length) =
      .ok (radix base ws / radix base cs)) :
    cs.length ≤ 2 ∨ Close (radix base cs) (radix base ws) (base ^ (cs.length - 2)) := by
  rcases divisor_cases hne with ⟨c, rfl⟩ | ⟨c₀, c₁, rfl⟩ | ⟨us, u, c₀, c₁, hcs⟩
  · exact .inl (by simp)
  · exact .inl (by simp)
  · obtain ⟨ys, rfl, hys⟩ : ∃ ys, cs = ys ++ [c₀, c₁] ∧ ys ≠ [] :=
      ⟨us ++ [u], by simp [hcs], by simp⟩
    rw [List.length_append] at hlen ⊢
    obtain ⟨xs, z, y, x, rfl, hxs⟩ := split_three (n := ys.length) hlen
    rw [nextDigit_long hys hxs (Digits.append_iff.mp hc).2 (Digits.append_iff.mp hw).2] at h
    exact .inr (close_of_estimated hc hw hxs h)

theorem twoWords_top {c₀ c₁ c₂ : ℤ} (hc : Digits base [c₀, c₁, c₂]) :
    twoWords (radix base [c₁, c₂]) c₀ = .ok (radix base [c₀, c₁, c₂]) := by
  have hlt : radix base [c₁, c₂] < base ^ 2 := (Digits.cons_iff.mp hc).2.lt_pow
  have hnn := (Digits.cons_iff.mp hc).2.nonneg
  have hc₀ := (Digits.cons_iff.mp hc).1
  have hbase : base = 1000000 := rfl
  have hval : radix base [c₀, c₁, c₂] = c₀ + base * radix base [c₁, c₂] := rfl
  unfold twoWords
  rw [hval]
  generalize radix base [c₁, c₂] = v at *
  rw [hbase] at hlt hc₀ ⊢
  rw [i64_ok (by omega) (by omega), ok_bind, i64_ok (by omega) (by omega)]
  congr 1
  omega

/-- The words `firstDigit` looks at when the divisor has three or more. -/
theorem firstDigit_words {c₀ c₁ c₂ : ℤ} (hlen : xs.length = ys.length)
    (hc : Digits base [c₀, c₁, c₂]) (hw : Digits base [z, y, x]) :
    firstDigit (ys ++ [c₀, c₁, c₂]) (low ++ (xs ++ [z, y, x]) ++ above)
        (low.length + (ys ++ [c₀, c₁, c₂]).length - 1) =
      if ys = [] then divide (radix base [z, y, x]) (radix base [c₀, c₁, c₂])
      else estimated (radix base [z, y, x]) (radix base [c₀, c₁, c₂]) (ys ++ [c₀, c₁, c₂]) []
        low.length (low ++ (xs ++ [z, y, x]) ++ above) := by
  have htop := twoWords_top hc
  simp only [Digits.cons_iff] at hc hw
  obtain ⟨hc₀, hc₁, hc₂, -⟩ := hc
  obtain ⟨hz, hy, hx, -⟩ := hw
  have hcount : (ys ++ [c₀, c₁, c₂]).length = ys.length + 3 := by simp
  have hsplit : low ++ (xs ++ [z, y, x]) ++ above = low ++ xs ++ z :: y :: x :: above := by simp
  have hx₀ : read (low ++ xs ++ z :: y :: x :: above) (low.length + (ys.length + 3 : ℕ) - 1) =
      .ok x := by
    rw [show low ++ xs ++ z :: y :: x :: above = (low ++ xs ++ [z, y]) ++ x :: above by simp]
    exact read_at (by simp only [List.length_append, List.length_cons, List.length_nil]; omega)
  have hy₀ : read (low ++ xs ++ z :: y :: x :: above)
      (low.length + (ys.length + 3 : ℕ) - 1 - 1) = .ok y := by
    rw [show low ++ xs ++ z :: y :: x :: above = (low ++ xs ++ [z]) ++ y :: x :: above by simp]
    exact read_at (by simp only [List.length_append, List.length_cons, List.length_nil]; omega)
  have hz₀ : read (low ++ xs ++ z :: y :: x :: above)
      (low.length + (ys.length + 3 : ℕ) - 1 - 2) = .ok z :=
    read_at (by simp only [List.length_append]; omega)
  have hc₂' : read (ys ++ [c₀, c₁, c₂]) (((ys.length + 3 : ℕ) : ℤ) - 1) = .ok c₂ := by
    rw [show ys ++ [c₀, c₁, c₂] = (ys ++ [c₀, c₁]) ++ [c₂] by simp]
    exact read_at (by simp only [List.length_append, List.length_cons, List.length_nil]; omega)
  have hc₁' : read (ys ++ [c₀, c₁, c₂]) (((ys.length + 3 : ℕ) : ℤ) - 2) = .ok c₁ := by
    rw [show ys ++ [c₀, c₁, c₂] = (ys ++ [c₀]) ++ c₁ :: [c₂] by simp]
    exact read_at (by simp only [List.length_append, List.length_cons, List.length_nil]; omega)
  have hc₀' : read (ys ++ [c₀, c₁, c₂]) (((ys.length + 3 : ℕ) : ℤ) - 3) = .ok c₀ :=
    read_at (by omega)
  have hoff : (low.length : ℤ) + (ys.length + 3 : ℕ) - 1 - (ys.length + 3 : ℕ) + 1 =
      low.length := by omega
  unfold firstDigit
  dsimp only
  rw [hsplit, hcount, hx₀, ok_bind, if_neg (by omega), if_neg (by omega), hy₀, ok_bind, hz₀,
    ok_bind, threeWords_ok hx hy hz, ok_bind, hc₂', ok_bind, hc₁', ok_bind, twoWords_ok hc₂ hc₁,
    ok_bind, hc₀', ok_bind, htop, ok_bind, hoff]
  refine if_congr ?_ rfl rfl
  rw [← List.length_eq_zero_iff]
  omega

theorem firstDigit_one :
    firstDigit [c] (low ++ [x] ++ above) (low.length + 1 - 1) = divide x c := by
  have hx₀ : read (low ++ [x] ++ above) (low.length + 1 - 1) = .ok x := by
    rw [show low ++ [x] ++ above = low ++ x :: above by simp]
    exact read_at (by omega)
  unfold firstDigit
  dsimp only
  rw [hx₀, ok_bind, if_pos (show [c].length = 1 from rfl)]
  rfl

theorem firstDigit_two {c₀ c₁ : ℤ} (hc : Digits base [c₀, c₁]) (hw : Digits base [y, x]) :
    firstDigit [c₀, c₁] (low ++ [y, x] ++ above) (low.length + 2 - 1) =
      divide (radix base [y, x]) (radix base [c₀, c₁]) := by
  simp only [Digits.cons_iff] at hc hw
  obtain ⟨hc₀, hc₁, -⟩ := hc
  obtain ⟨hy, hx, -⟩ := hw
  have hx₀ : read (low ++ [y, x] ++ above) (low.length + 2 - 1) = .ok x := by
    rw [show low ++ [y, x] ++ above = (low ++ [y]) ++ x :: above by simp]
    exact read_at (by simp only [List.length_append, List.length_singleton]; omega)
  have hy₀ : read (low ++ [y, x] ++ above) (low.length + 2 - 1 - 1) = .ok y := by
    rw [show low ++ [y, x] ++ above = low ++ y :: x :: above by simp]
    exact read_at (by omega)
  have hc₁' : read [c₀, c₁] 1 = .ok c₁ := rfl
  have hc₀' : read [c₀, c₁] 0 = .ok c₀ := rfl
  unfold firstDigit
  dsimp only
  rw [hx₀, ok_bind, if_neg (show ¬[c₀, c₁].length = 1 by simp),
    if_pos (show [c₀, c₁].length = 2 from rfl), hc₁', ok_bind, hc₀', ok_bind, twoWords_ok hc₁ hc₀,
    ok_bind, hy₀, ok_bind, twoWords_ok hx hy, ok_bind]

/-- The first digit is found where it is a digit and the estimate is at most one too large. -/
theorem firstDigit_ok (low above : List ℤ) (hc : Digits base cs) (hne : cs ≠ [])
    (hb : 0 < radix base cs)
    (hw : Digits base ws) (hlen : ws.length = cs.length)
    (hlt : radix base ws < radix base cs * base)
    (hclose : cs.length ≤ 3 ∨ Close (radix base cs) (radix base ws) (base ^ (cs.length - 3))) :
    firstDigit cs (low ++ ws ++ above) (low.length + cs.length - 1) =
      .ok (radix base ws / radix base cs) := by
  rcases divisor_cases hne with ⟨c, rfl⟩ | ⟨c₀, c₁, rfl⟩ | ⟨ys, c₀, c₁, c₂, rfl⟩
  · obtain ⟨x, rfl⟩ := List.length_eq_one_iff.mp hlen
    have hx := (Digits.cons_iff.mp hw).1
    have hsmall : base < 2 ^ 63 := by decide
    rw [radix_singleton] at hb
    rw [radix_singleton, radix_singleton, ← divide_ok ⟨hx.1, by omega⟩ hb]
    exact firstDigit_one
  · obtain ⟨y, x, rfl⟩ := List.length_eq_two.mp hlen
    have hlt : radix base [y, x] < base ^ 2 := hw.lt_pow
    have hpow : base ^ 2 < 2 ^ 63 := by decide
    rw [← divide_ok ⟨hw.nonneg, by omega⟩ hb]
    exact firstDigit_two hc hw
  · rw [List.length_append] at hlen hclose
    obtain ⟨xs, z, y, x, rfl, hxs⟩ := split_three (n := ys.length) hlen
    have hxt := (Digits.append_iff.mp hw).2
    rw [firstDigit_words hxs (Digits.append_iff.mp hc).2 hxt]
    split
    next hys =>
      subst hys
      obtain rfl := List.eq_nil_of_length_eq_zero hxs
      have hthree := three_lt hxt
      exact divide_ok ⟨hxt.nonneg, by omega⟩ hb
    next hys =>
      exact estimated_ok (t := 0) low above hc hne hw hxs rfl hb hlt
        (hclose.resolve_left (by simpa using hys))

theorem close_of_firstDigit (hc : Digits base cs) (hne : cs ≠ [])
    (hw : Digits base ws) (hlen : ws.length = cs.length)
    (h : firstDigit cs (low ++ ws ++ above) (low.length + cs.length - 1) =
      .ok (radix base ws / radix base cs)) :
    cs.length ≤ 3 ∨ Close (radix base cs) (radix base ws) (base ^ (cs.length - 3)) := by
  rcases divisor_cases hne with ⟨c, rfl⟩ | ⟨c₀, c₁, rfl⟩ | ⟨ys, c₀, c₁, c₂, rfl⟩
  · exact .inl (by simp)
  · exact .inl (by simp)
  · rw [List.length_append] at hlen ⊢
    obtain ⟨xs, z, y, x, rfl, hxs⟩ := split_three (n := ys.length) hlen
    rw [firstDigit_words hxs (Digits.append_iff.mp hc).2 (Digits.append_iff.mp hw).2] at h
    split at h
    next hys => exact .inl (by rw [hys]; simp)
    next hys => exact .inr (close_of_estimated hc hw hxs h)

/-- The words of the partial dividend become those of the remainder. -/
theorem takeOff_ok {t : ℕ} (low : List ℤ) (hc : Digits base cs) (hne : cs ≠ [])
    (hb : 0 < radix base cs)
    (hw : Digits base ws) (hlen : ws.length = cs.length + t)
    (hlt : radix base ws < radix base cs * base) : ∃ rs,
    takeOff (radix base ws / radix base cs) cs low.length ws.length (low ++ ws ++ above) =
      .ok (low ++ rs ++ above) ∧ rs.length = ws.length ∧ Digits base rs ∧
      radix base rs = radix base ws % radix base cs := by
  have hq₀ : 0 ≤ radix base ws / radix base cs := Int.ediv_nonneg hw.nonneg hb.le
  have hq : radix base ws / radix base cs < base := Int.ediv_lt_of_lt_mul hb (by rwa [mul_comm])
  have hrem₀ : 0 ≤ radix base ws % radix base cs := Int.emod_nonneg _ hb.ne'
  have hrem : radix base ws - radix base ws / radix base cs * radix base cs =
      radix base ws % radix base cs := by
    rw [Int.emod_def, mul_comm]
  generalize radix base ws / radix base cs = q at *
  obtain ⟨head, tail, rfl, hhead⟩ : ∃ head tail, ws = head ++ tail ∧ head.length = cs.length :=
    ⟨ws.take cs.length, ws.drop cs.length, (List.take_append_drop _ _).symm,
      List.length_take_of_le (by omega)⟩
  obtain ⟨hheadDigits, htailDigits⟩ := Digits.append_iff.mp hw
  have hpos := List.length_pos_of_ne_nil hne
  have hbound : base ^ 2 + base < 2 ^ 62 := by decide
  have hprod : ∀ x ∈ cs, -base ^ 2 ≤ x * -q ∧ x * -q ≤ 0 := by
    intro x hx
    have := digit_mul (hc x hx) ⟨hq₀, hq⟩
    rw [mul_neg]
    omega
  have hadd := addScaled_append (tail ++ above) (c := -q) hhead.symm
    (fun x hx => by
      have := hprod x hx
      omega)
    (fun y hy x hx => by
      have := hprod x hx
      have := hheadDigits y hy
      omega)
  have hplus : (plus (-q) head cs).length = cs.length := by
    rw [length_plus]
    omega
  have hbase := base_pos
  obtain ⟨body, top, hrun, hbody, hdigits, htop, hsame⟩ := jinweiFanxiang_spec
    (plus (-q) head cs ++ tail) (M := base ^ 2)
    (List.ne_nil_of_length_pos (by rw [List.length_append]; omega)) (by decide) (by decide) (by
      intro w hmem
      rcases List.mem_append.mp hmem with hmem | hmem
      · obtain ⟨y, hy, x, hx, rfl⟩ := mem_plus hmem
        have := hprod x hx
        have := hheadDigits y hy
        omega
      · have := htailDigits w hmem
        have : 0 < base ^ 2 := by decide
        omega)
  have hlength : (plus (-q) head cs ++ tail).length = (head ++ tail).length := by
    rw [List.length_append, List.length_append, hplus, hhead]
  have hvalue : radix base (body ++ [top]) = radix base (head ++ tail) % radix base cs := by
    rw [hsame, ← hrem, radix_append, radix_append, hplus, hhead,
      radix_plus (-q) (show head.length = cs.length from hhead)]
    ring
  refine ⟨body ++ [top], ?_, ?_, ?_, hvalue⟩
  · rw [hlength] at hrun
    unfold takeOff
    rw [List.append_assoc, List.append_assoc, atOffset_append rfl, hadd]
    change (atOffset _ _ (low ++ (plus (-q) head cs ++ (tail ++ above)))) = _
    rw [atOffset_append rfl, ← List.append_assoc, hrun]
    simp [Except.map]
  · rw [List.length_append, List.length_singleton, ← hlength, hbody]
  · refine Digits.append_iff.mpr ⟨hdigits, Digits.cons_iff.mpr ⟨⟨?_, htop⟩, .nil⟩⟩
    have hquot := radix_top (x := top) hdigits base_pos
    rw [← hquot, hvalue]
    exact Int.ediv_nonneg hrem₀ (pow_pos base_pos _).le

end MyosIo.Calc
