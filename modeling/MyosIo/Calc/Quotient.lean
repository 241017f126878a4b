import MyosIo.Calc.Digit

/-! `chuDigits` is a long division of its working copy of the dividend just as long as every
estimate is at most one too large. -/
namespace MyosIo.Calc

variable {cs ws low rem above qs : List ℤ} {d : ℤ} {k n : ℕ} {a b r result : Num}

/-- A remainder and one more word are a partial dividend. -/
theorem partial_lt {c : ℤ} (hd : 0 ≤ d ∧ d < base) (hlt : radix base rem < c) :
    radix base (d :: rem) < c * base := by
  have hstep : radix base rem + 1 ≤ c := hlt
  have := Int.mul_le_mul_of_nonneg_left hstep base_pos.le
  rw [radix_cons, mul_comm c]
  rw [mul_add, mul_one] at this
  omega

/-- One digit, and what is left. -/
theorem chuLoop_step (hc : Digits base cs) (hne : cs ≠ []) (hb : 0 < radix base cs)
    (hw : Digits base (d :: rem)) (hlen : rem.length = cs.length)
    (hlt : radix base rem < radix base cs)
    (hnext : nextDigit cs (low ++ (d :: rem) ++ above) (low.length + cs.length) =
      .ok (radix base (d :: rem) / radix base cs)) : ∃ rs,
    chuLoop cs (low.length + 1) ((low.length + 1 : ℕ) + cs.length - 1)
        (low ++ [d] ++ rem ++ above) = (do
      let qs ← chuLoop cs low.length (low.length + cs.length - 1) (low ++ rs ++ 0 :: above)
      .ok (radix base (d :: rem) / radix base cs :: qs)) ∧
    rs.length = cs.length ∧ Digits base rs ∧
      radix base rs = radix base (d :: rem) % radix base cs := by
  obtain ⟨ts, htake, hts, htsDigits, htsVal⟩ := takeOff_ok (t := 1) low
    hc hne hb hw (by rw [List.length_cons, hlen]) (partial_lt (Digits.cons_iff.mp hw).1 hlt)
  obtain ⟨rs, top, rfl⟩ := (List.eq_nil_or_concat' ts).resolve_left
    (List.ne_nil_of_length_pos (by rw [hts, List.length_cons]; omega))
  rw [List.length_append, List.length_singleton, List.length_cons] at hts
  obtain ⟨hrs, htop⟩ := Digits.append_iff.mp htsDigits
  -- the remainder is below the divisor and so leaves the top word empty
  have hzero : top = 0 := by
    have hquot := radix_top (x := top) hrs base_pos
    rw [← hquot, htsVal]
    refine Int.ediv_eq_zero_of_lt (Int.emod_nonneg _ hb.ne') ?_
    have hpow := hc.lt_pow
    rw [show rs.length = cs.length by omega]
    exact (Int.emod_lt_of_pos _ hb).trans hpow
  subst hzero
  refine ⟨rs, ?_, by omega, hrs, by rwa [radix_concat_zero] at htsVal⟩
  have hhigh : ((low.length + 1 : ℕ) : ℤ) + cs.length - 1 = low.length + cs.length := by
    push_cast
    ring
  have hshape : low ++ [d] ++ rem ++ above = low ++ (d :: rem) ++ above := by simp
  have hoff : (low.length : ℤ) + cs.length - cs.length = low.length := by ring
  rw [List.length_cons, hlen] at htake
  rw [hhigh, hshape, chuLoop, hnext, ok_bind, hoff, htake, ok_bind]
  simp

/-- The estimates of the digits after the first: the partial dividends are windows of the
dividend. -/
def Estimates (b D : ℤ) (len digits : ℕ) : Prop :=
  ∀ k < digits, len ≤ 2 ∨ Close b (D / base ^ k % (b * base)) (base ^ (len - 2))

/-- The dividend is its lower words and the partial dividend. -/
theorem radix_window (low rem : List ℤ) (d : ℤ) : radix base (low ++ [d] ++ rem) =
    radix base low + base ^ low.length * radix base (d :: rem) := by
  rw [List.append_assoc, radix_append]
  rfl

theorem chuLoop_ok (hc : Digits base cs) (hne : cs ≠ []) (hb : 0 < radix base cs)
    (hlow : Digits base low) (hrem : Digits base rem) (hlen : rem.length = cs.length)
    (hlt : radix base rem < radix base cs)
    (hclose : Estimates (radix base cs) (radix base (low ++ rem)) cs.length low.length) : ∃ qs,
    chuLoop cs low.length (low.length + cs.length - 1) (low ++ rem ++ above) = .ok qs ∧
      qs.length = low.length ∧ Digits base qs ∧
      radix base qs.reverse = radix base (low ++ rem) / radix base cs := by
  induction low using List.reverseRecOn generalizing rem above with
  | nil =>
    refine ⟨[], rfl, rfl, .nil, ?_⟩
    rw [List.nil_append, Int.ediv_eq_zero_of_lt hrem.nonneg hlt]
    rfl
  | append_singleton low d ih =>
    obtain ⟨hlow, hd⟩ := Digits.append_iff.mp hlow
    have hd := (Digits.cons_iff.mp hd).1
    have hw : Digits base (d :: rem) := Digits.cons_iff.mpr ⟨hd, hrem⟩
    have hdividend := radix_window low rem d
    have hlowBounds : 0 ≤ radix base low ∧ radix base low < base ^ low.length :=
      ⟨hlow.nonneg, hlow.lt_pow⟩
    rw [List.length_append, List.length_singleton] at hclose ⊢
    rw [hdividend] at hclose ⊢
    have hwindow := window_eq hlowBounds
      ⟨hw.nonneg, partial_lt hd hlt⟩
    have hfirst := hclose low.length (Nat.lt_succ_self _)
    rw [hwindow] at hfirst
    have hnext := nextDigit_ok low above hc hne hb hw
      (by rw [List.length_cons, hlen]) (partial_lt hd hlt) hfirst
    obtain ⟨rs, hstep, hrsLen, hrs, hrsVal⟩ := chuLoop_step hc hne hb hw hlen hlt hnext
    have hrest : radix base (low ++ rs) = radix base low +
        base ^ low.length * (radix base (d :: rem) % radix base cs) := by
      rw [radix_append, hrsVal]
    obtain ⟨qs, hrun, hqsLen, hqs, hqsVal⟩ := ih hlow hrs hrsLen
      (by rw [hrsVal]; exact Int.emod_lt_of_pos _ hb) (by
        intro k hk
        have := hclose k (by omega)
        rwa [hrest, ← window_lower base_pos hk])
    refine ⟨radix base (d :: rem) / radix base cs :: qs, ?_, ?_, ?_, ?_⟩
    · rw [hstep, hrun, ok_bind]
    · rw [List.length_cons, hqsLen]
    · exact Digits.cons_iff.mpr ⟨⟨Int.ediv_nonneg hw.nonneg hb.le,
        Int.ediv_lt_of_lt_mul hb (by rw [mul_comm]; exact partial_lt hd hlt)⟩, hqs⟩
    · rw [List.reverse_cons, radix_append, radix_singleton, List.length_reverse, hqsLen, hqsVal,
        hrest, division_step (X := radix base (d :: rem)) hb, add_comm]

/-- Where the words are those of the quotient the estimates were at most one too large. -/
theorem estimates_of_chuLoop (hc : Digits base cs) (hne : cs ≠ []) (hb : 0 < radix base cs)
    (hlow : Digits base low) (hrem : Digits base rem) (hlen : rem.length = cs.length)
    (hlt : radix base rem < radix base cs)
    (hrun : chuLoop cs low.length (low.length + cs.length - 1) (low ++ rem ++ above) = .ok qs)
    (hqs : Digits base qs) (hqsLen : qs.length = low.length)
    (hval : radix base qs.reverse = radix base (low ++ rem) / radix base cs) :
    Estimates (radix base cs) (radix base (low ++ rem)) cs.length low.length := by
  induction low using List.reverseRecOn generalizing rem above qs with
  | nil => exact fun k hk => absurd hk (Nat.not_lt_zero k)
  | append_singleton low d ih =>
    obtain ⟨hlow, hd⟩ := Digits.append_iff.mp hlow
    have hd := (Digits.cons_iff.mp hd).1
    have hw : Digits base (d :: rem) := Digits.cons_iff.mpr ⟨hd, hrem⟩
    have hdividend := radix_window low rem d
    have hlowBounds : 0 ≤ radix base low ∧ radix base low < base ^ low.length :=
      ⟨hlow.nonneg, hlow.lt_pow⟩
    rw [List.length_append, List.length_singleton] at hqsLen hrun ⊢
    rw [hdividend] at hval ⊢
    have hwindow := window_eq hlowBounds
      ⟨hw.nonneg, partial_lt hd hlt⟩
    obtain ⟨q, qs, rfl⟩ := List.exists_cons_of_length_pos (show 0 < qs.length by omega)
    have hrest := (Digits.cons_iff.mp hqs).2
    rw [List.length_cons] at hqsLen
    have hcount : qs.length = low.length := by omega
    rw [List.reverse_cons, radix_append, radix_singleton, List.length_reverse, hcount,
      division_step (X := radix base (d :: rem)) hb] at hval
    have hrev : Digits base qs.reverse := fun w hmem => hrest w (List.mem_reverse.mp hmem)
    have hrevLt := hrev.lt_pow
    rw [List.length_reverse, hcount] at hrevLt
    obtain ⟨rfl, hlower⟩ := high_unique ⟨hrev.nonneg, hrevLt⟩ (rest_bounds hb hlowBounds) hval
    have hhigh : ((low.length + 1 : ℕ) : ℤ) + cs.length - 1 = low.length + cs.length := by
      push_cast
      ring
    have hshape : low ++ [d] ++ rem ++ above = low ++ (d :: rem) ++ above := by simp
    have hnext : nextDigit cs (low ++ (d :: rem) ++ above) (low.length + cs.length) =
        .ok (radix base (d :: rem) / radix base cs) := by
      have hloop := hrun
      rw [hhigh, hshape, chuLoop] at hloop
      obtain ⟨q, hq, hloop⟩ := bind_ok.mp hloop
      obtain ⟨array, -, hloop⟩ := bind_ok.mp hloop
      obtain ⟨qs', -, hloop⟩ := bind_ok.mp hloop
      rw [← (List.cons.inj (Except.ok.inj hloop)).1]
      exact hq
    obtain ⟨rs, hstep, hrsLen, hrs, hrsVal⟩ := chuLoop_step hc hne hb hw hlen hlt hnext
    rw [hstep] at hrun
    obtain ⟨qs', hrun', hcons⟩ := bind_ok.mp hrun
    obtain ⟨-, rfl⟩ := List.cons.inj (Except.ok.inj hcons)
    have hdividend' : radix base (low ++ rs) = radix base low +
        base ^ low.length * (radix base (d :: rem) % radix base cs) := by
      rw [radix_append, hrsVal]
    have hbelow := ih hlow hrs hrsLen (by rw [hrsVal]; exact Int.emod_lt_of_pos _ hb) hrun'
      hrest hcount (by rw [hlower, hdividend'])
    intro k hk
    rcases Nat.lt_succ_iff_lt_or_eq.mp hk with hk | rfl
    · have := hbelow k hk
      rwa [hdividend', ← window_lower base_pos hk] at this
    · rw [hwindow]
      exact close_of_nextDigit hc hne hw (by rw [List.length_cons, hlen]) hnext

/-- How the highest words of the dividend compare with the divisor. -/
def flagOf (b head : ℤ) : ℕ := if head < b then 0 else if head = b then 2 else 1

/-- The first digit, where there is one, and what is left. -/
theorem chuDigits_first (hc : Digits base cs) (hne : cs ≠ []) (hb : 0 < radix base cs)
    (hw : Digits base ws) (hlen : ws.length = cs.length) (hge : radix base cs ≤ radix base ws)
    (hlt : radix base ws < radix base cs * base)
    (hfirst : radix base cs < radix base ws →
      firstDigit cs (low ++ ws) (low.length + cs.length - 1) =
        .ok (radix base ws / radix base cs)) : ∃ rs,
    chuDigits cs (low.length + 1) (flagOf (radix base cs) (radix base ws)) (low ++ ws) = (do
      let qs ← chuLoop cs low.length (low.length + cs.length - 1) (low ++ rs ++ [])
      .ok (radix base ws / radix base cs :: qs)) ∧
    rs.length = cs.length ∧ Digits base rs ∧ radix base rs = radix base ws % radix base cs := by
  have hhigh : ((low ++ ws).length : ℤ) - 1 = low.length + cs.length - 1 := by
    rw [List.length_append, hlen]
    push_cast
    ring
  have hoff : (low.length : ℤ) + cs.length - 1 - cs.length + 1 = low.length := by ring
  unfold chuDigits flagOf
  rw [if_neg (not_lt.mpr hge)]
  dsimp only
  rw [hhigh, hoff, Nat.add_sub_cancel]
  rcases eq_or_lt_of_le hge with heq | hgt
  · refine ⟨List.replicate cs.length 0, ?_, List.length_replicate, .zeros base_pos _, ?_⟩
    · have hmem : memcpy (List.replicate cs.length 0) ws = .ok (List.replicate cs.length 0) := by
        unfold memcpy
        rw [List.length_replicate, if_pos hlen.ge, List.drop_eq_nil_of_le hlen.le, List.append_nil]
      rw [if_pos heq.symm, if_neg (by decide), if_pos rfl, atOffset_append rfl, hmem, ← heq,
        Int.ediv_self hb.ne', List.append_nil]
      rfl
    · rw [radix_replicate_zero, ← heq, Int.emod_self]
  · obtain ⟨rs, htake, hrs⟩ := takeOff_ok (t := 0) low hc hne hb hw hlen hlt
    rw [List.append_nil, hlen] at htake
    refine ⟨rs, ?_, by rw [← hlen]; exact hrs.1, hrs.2⟩
    rw [if_neg hgt.ne', if_neg (by decide), if_neg (by decide), hfirst hgt, ok_bind, htake, ok_bind]

/-- The estimate of a first digit that is not simply 1. -/
def FirstEstimate (b head : ℤ) (len : ℕ) : Prop :=
  b < head → len ≤ 3 ∨ Close b head (base ^ (len - 3))

/-- How many digits are found before the loop. -/
def firstDigits (b head : ℤ) : ℕ := if head < b then 0 else 1

theorem chuDigits_ok (hc : Digits base cs) (hne : cs ≠ []) (hb : 0 < radix base cs)
    (hlow : Digits base low) (hw : Digits base ws) (hlen : ws.length = cs.length)
    (hlt : radix base ws < radix base cs * base)
    (hfirst : FirstEstimate (radix base cs) (radix base ws) cs.length)
    (hest : Estimates (radix base cs) (radix base (low ++ ws)) cs.length low.length) : ∃ qs,
    chuDigits cs (low.length + firstDigits (radix base cs) (radix base ws))
        (flagOf (radix base cs) (radix base ws)) (low ++ ws) = .ok qs ∧
      qs.length = low.length + firstDigits (radix base cs) (radix base ws) ∧ Digits base qs ∧
      radix base qs.reverse = radix base (low ++ ws) / radix base cs := by
  unfold firstDigits
  rcases lt_or_ge (radix base ws) (radix base cs) with hbelow | hge
  · rw [if_pos hbelow]
    obtain ⟨qs, hrun, hqs⟩ := chuLoop_ok hc hne hb hlow hw hlen hbelow hest
    refine ⟨qs, ?_, hqs⟩
    have hhigh : ((low ++ ws).length : ℤ) - 1 = low.length + cs.length - 1 := by
      rw [List.length_append, hlen]
      push_cast
      ring
    rw [List.append_nil] at hrun
    unfold chuDigits flagOf
    rw [if_pos hbelow]
    dsimp only
    rw [if_pos rfl, hhigh]
    exact hrun
  · rw [if_neg (not_lt.mpr hge)]
    have hnext := fun hgt => firstDigit_ok low [] hc hne hb hw hlen hlt
      (hfirst hgt)
    simp only [List.append_nil] at hnext
    obtain ⟨rs, hrun, hrsLen, hrs, hrsVal⟩ := chuDigits_first hc hne hb hw hlen hge hlt hnext
    have hdividend : radix base (low ++ ws) = radix base low + base ^ low.length * radix base ws :=
      radix_append
    have hrest : radix base (low ++ rs) =
        radix base low + base ^ low.length * (radix base ws % radix base cs) := by
      rw [radix_append, hrsVal]
    obtain ⟨qs, hloop, hqsLen, hqs, hqsVal⟩ := chuLoop_ok hc hne hb hlow hrs hrsLen
      (by rw [hrsVal]; exact Int.emod_lt_of_pos _ hb) (by
        intro k hk
        have := hest k hk
        rwa [hrest, ← window_lower base_pos hk, ← hdividend])
    refine ⟨_, by rw [hrun, hloop, ok_bind], ?_, ?_, ?_⟩
    · rw [List.length_cons, hqsLen]
    · exact Digits.cons_iff.mpr ⟨⟨Int.ediv_nonneg hw.nonneg hb.le,
        Int.ediv_lt_of_lt_mul hb (by rwa [mul_comm])⟩, hqs⟩
    · rw [List.reverse_cons, radix_append, radix_singleton, List.length_reverse, hqsLen, hqsVal,
        hrest, hdividend, division_step (X := radix base ws) hb, add_comm]

theorem estimates_of_chuDigits (hc : Digits base cs) (hne : cs ≠ []) (hb : 0 < radix base cs)
    (hlow : Digits base low) (hw : Digits base ws) (hlen : ws.length = cs.length)
    (hrun : chuDigits cs (low.length + firstDigits (radix base cs) (radix base ws))
        (flagOf (radix base cs) (radix base ws)) (low ++ ws) = .ok qs)
    (hqsLen : qs.length = low.length + firstDigits (radix base cs) (radix base ws))
    (hqs : Digits base qs)
    (hval : radix base qs.reverse = radix base (low ++ ws) / radix base cs) :
    FirstEstimate (radix base cs) (radix base ws) cs.length ∧
      Estimates (radix base cs) (radix base (low ++ ws)) cs.length low.length := by
  unfold firstDigits at hrun hqsLen
  have hhigh : ((low ++ ws).length : ℤ) - 1 = low.length + cs.length - 1 := by
    rw [List.length_append, hlen]
    push_cast
    ring
  rcases lt_or_ge (radix base ws) (radix base cs) with hbelow | hge
  · rw [if_pos hbelow] at hrun hqsLen
    unfold chuDigits flagOf at hrun
    rw [if_pos hbelow] at hrun
    dsimp only at hrun
    rw [if_pos rfl, hhigh] at hrun
    refine ⟨fun hgt => absurd hgt (not_lt.mpr hbelow.le), ?_⟩
    exact estimates_of_chuLoop hc hne hb hlow hw hlen hbelow
      (by rwa [List.append_nil]) hqs hqsLen hval
  · rw [if_neg (not_lt.mpr hge)] at hrun hqsLen
    obtain ⟨q, qs, rfl⟩ := List.exists_cons_of_length_pos (show 0 < qs.length by omega)
    have hq := Digits.cons_iff.mp hqs
    rw [List.length_cons] at hqsLen
    have hcount : qs.length = low.length := by omega
    have hdividend : radix base (low ++ ws) = radix base low + base ^ low.length * radix base ws :=
      radix_append
    rw [List.reverse_cons, radix_append, radix_singleton, List.length_reverse, hcount, hdividend,
      division_step (X := radix base ws) hb] at hval
    have hrev : Digits base qs.reverse := fun w hmem => hq.2 w (List.mem_reverse.mp hmem)
    have hrevLt := hrev.lt_pow
    rw [List.length_reverse, hcount] at hrevLt
    obtain ⟨rfl, hlower⟩ := high_unique ⟨hrev.nonneg, hrevLt⟩
      (rest_bounds hb ⟨hlow.nonneg, hlow.lt_pow⟩) hval
    have hlt : radix base ws < radix base cs * base := by
      rw [mul_comm]
      exact (Int.ediv_lt_iff_lt_mul hb).mp hq.1.2
    have hfirst : radix base cs < radix base ws →
        firstDigit cs (low ++ ws) (low.length + cs.length - 1) =
          .ok (radix base ws / radix base cs) := by
      intro hgt
      have hdigits := hrun
      unfold chuDigits flagOf at hdigits
      rw [if_neg (not_lt.mpr hge), if_neg hgt.ne'] at hdigits
      dsimp only at hdigits
      rw [if_neg (by decide), if_neg (by decide), hhigh] at hdigits
      obtain ⟨q, hq, hdigits⟩ := bind_ok.mp hdigits
      obtain ⟨array, -, hdigits⟩ := bind_ok.mp hdigits
      obtain ⟨qs', -, hdigits⟩ := bind_ok.mp hdigits
      rw [← (List.cons.inj (Except.ok.inj hdigits)).1]
      exact hq
    obtain ⟨rs, hstep, hrsLen, hrs, hrsVal⟩ := chuDigits_first hc hne hb hw hlen hge hlt hfirst
    rw [hstep] at hrun
    obtain ⟨qs', hloop, hcons⟩ := bind_ok.mp hrun
    obtain ⟨-, rfl⟩ := List.cons.inj (Except.ok.inj hcons)
    have hrest : radix base (low ++ rs) =
        radix base low + base ^ low.length * (radix base ws % radix base cs) := by
      rw [radix_append, hrsVal]
    have hbelow := estimates_of_chuLoop hc hne hb hlow hrs hrsLen
      (by rw [hrsVal]; exact Int.emod_lt_of_pos _ hb) hloop hq.2 hcount (by rw [hlower, hrest])
    refine ⟨fun hgt => ?_, fun k hk => ?_⟩
    · have := hfirst hgt
      exact close_of_firstDigit hc hne hw hlen (by rwa [List.append_nil])
    · have := hbelow k hk
      rwa [hrest, ← window_lower base_pos hk, ← hdividend] at this

end MyosIo.Calc
