import MyosIo.Calc.Numeral
import MyosIo.Calc.Sum

/-! The text is first cut down to its significant digits and a power of ten, and these are then
packed into words. -/
namespace MyosIo.Calc

variable {s t u v ds fs rest : List Char} {c c' d : Char} {n z z' : ℕ} {f : ℤ} {sc : Scanned}
  {a r : Num}

/-- The digits before the point, without leading zeros. -/
def intDigits (s : List Char) : ℕ := ((s.takeWhile (· ≠ '.')).dropWhile (· = '0')).length

/-- The digits without leading and trailing zeros. -/
def significant (s : List Char) : ℕ :=
  (((s.filter (· ≠ '.')).dropWhile (· = '0')).rdropWhile (· = '0')).length

/-- The significant digits of `s` and their power of ten. -/
structure Mantissa (s : List Char) (sc : Scanned) : Prop where
  fits : sc.len ≤ sc.string.length
  digits : AllDigits (sc.string.take sc.len)
  value : denoted s = decimal (sc.string.take sc.len) * 10 ^ sc.float
  last : ∃ u c, sc.string.take sc.len = u ++ [c] ∧ c ≠ '0'
  front : intDigits s = 0 ∨ ∃ c v, sc.string.take sc.len = c :: v ∧ c ≠ '0'
  count : sc.len + sc.float = intDigits s
  significant : intDigits s ≠ 0 → sc.len = significant s

/-- Zeros at the end. -/
theorem split_right (s : List Char) : (∃ z, s = List.replicate z '0') ∨
    ∃ u c z, s = u ++ c :: List.replicate z '0' ∧ c ≠ '0' := by
  induction s using List.reverseRecOn with
  | nil => exact .inl ⟨0, rfl⟩
  | append_singleton s c ih =>
    by_cases hc : c = '0'
    · subst hc
      rcases ih with ⟨z, rfl⟩ | ⟨u, c, z, rfl, hc⟩
      · exact .inl ⟨z + 1, List.replicate_succ'.symm⟩
      · exact .inr ⟨u, c, z + 1, by simp [List.replicate_succ'], hc⟩
    · exact .inr ⟨s, c, 0, rfl, hc⟩

/-- Zeros at the front. -/
theorem split_left (s : List Char) : (∃ z, s = List.replicate z '0') ∨
    ∃ z c u, s = List.replicate z '0' ++ c :: u ∧ c ≠ '0' := by
  induction s with
  | nil => exact .inl ⟨0, rfl⟩
  | cons c s ih =>
    by_cases hc : c = '0'
    · subst hc
      rcases ih with ⟨z, rfl⟩ | ⟨z, c, u, rfl, hc⟩
      · exact .inl ⟨z + 1, rfl⟩
      · exact .inr ⟨z + 1, c, u, rfl, hc⟩
    · exact .inr ⟨0, c, s, rfl, hc⟩

theorem dropWhile_zeros (hc : c ≠ '0') :
    (List.replicate z '0' ++ c :: u).dropWhile (· = '0') = c :: u := by
  rw [List.dropWhile_append_of_pos (by simp), List.dropWhile_cons_of_neg (by simpa using hc)]

theorem rdropWhile_zeros (hc : c ≠ '0') :
    (u ++ c :: List.replicate z '0').rdropWhile (· = '0') = u ++ [c] := by
  induction z with
  | zero => exact List.rdropWhile_concat_neg _ _ _ (by simpa using hc)
  | succ z ih =>
    rw [List.replicate_succ', ← List.cons_append, ← List.append_assoc,
      List.rdropWhile_concat_pos _ _ _ (by simp), ih]

theorem stripZeros_ok (hc : c ≠ '0') (rest : List Char) (f : ℤ) :
    stripZeros (u ++ c :: (List.replicate z '0' ++ rest)) (u.length + 1 + z) f =
      .ok (u.length + 1, f + z) := by
  induction z generalizing rest f with
  | zero =>
    rw [Nat.add_zero, stripZeros]
    simp [hc]
  | succ z ih =>
    have hget : (u ++ c :: (List.replicate (z + 1) '0' ++ rest))[u.length + 1 + z]? =
        some '0' := by
      rw [List.getElem?_append_right (by omega),
        show u.length + 1 + z - u.length = z + 1 by omega, List.getElem?_cons_succ,
        List.getElem?_append_left (by simp)]
      simp
    rw [← Nat.add_assoc, stripZeros, hget]
    change stripZeros _ (u.length + 1 + z) (f + 1) = _
    rw [List.replicate_succ', List.append_assoc, List.singleton_append, ih ('0' :: rest)]
    congr 2
    push_cast
    ring

/-- The text has only digits after its leading zeros. -/
theorem scannedFrom_whole (hd : AllDigits (u ++ [c])) (hc : c ≠ '0') :
    scannedFrom (u ++ c :: List.replicate z '0') =
      .ok (some ⟨u ++ c :: List.replicate z '0', u.length + 1, z⟩) := by
  have hstrip := stripZeros_ok (u := u) (z := z) hc [] 0
  rw [List.append_nil, zero_add] at hstrip
  have hall : AllDigits (u ++ c :: List.replicate z '0') := by
    rw [AllDigits.append_iff, AllDigits.cons_iff] at hd ⊢
    exact ⟨hd.1, hd.2.1, .zeros z⟩
  have hlen : (u ++ c :: List.replicate z '0').length = u.length + 1 + z := by
    simp
    omega
  generalize u ++ c :: List.replicate z '0' = t at *
  have hpoint (i : ℕ) : t[i]? ≠ some '.' :=
    fun he => hall.no_point (List.mem_of_getElem? he)
  have hhead : t.head? ≠ some '.' := by
    rw [List.head?_eq_getElem?]
    exact hpoint 0
  have hdrop : Scanned.dropPoint ⟨t, u.length + 1, z⟩ = ⟨t, u.length + 1, z⟩ := by
    have hnone : ((List.range' 1 (u.length + 1 - 2)).find? fun i => t[i]? = some '.') = none := by
      rw [List.find?_range'_eq_none]
      intro i _ _
      simpa using hpoint i
    rw [Scanned.dropPoint, hnone]
  unfold scannedFrom
  rw [hlen, if_neg (by omega), hstrip]
  simp only [bind, Except.bind, if_neg hhead, if_neg (hpoint _), hdrop]
  rfl

/-- Nothing but zeros after the point. -/
theorem scannedFrom_zero : scannedFrom ('.' :: List.replicate z '0') = .ok none := by
  have hstrip := stripZeros_ok (u := []) (z := z) (show '.' ≠ '0' by decide) [] 0
  rw [List.append_nil, List.length_nil, List.nil_append] at hstrip
  have hlen : ('.' :: List.replicate z '0').length = 0 + 1 + z := by
    simp
    omega
  unfold scannedFrom
  rw [hlen, if_neg (by omega), hstrip]
  rfl

/-- Nothing before the point. -/
theorem scannedFrom_fraction (hc : c ≠ '0') :
    scannedFrom ('.' :: (u ++ c :: List.replicate z '0')) =
      .ok (some ⟨u ++ c :: List.replicate z '0', u.length + 1, -((u.length + 1 : ℕ) : ℤ)⟩) := by
  have hstrip := stripZeros_ok (u := '.' :: u) (z := z) hc [] 0
  rw [List.append_nil, List.length_cons, List.cons_append] at hstrip
  have hlen : ('.' :: (u ++ c :: List.replicate z '0')).length = u.length + 1 + 1 + z := by
    simp
    omega
  unfold scannedFrom
  rw [hlen, if_neg (by omega), hstrip]
  rfl

/-- Only zeros after the point. -/
theorem scannedFrom_dot (hd : AllDigits (u ++ [c])) (hc : c ≠ '0') :
    scannedFrom (u ++ c :: (List.replicate z' '0' ++ '.' :: List.replicate z '0')) =
      .ok (some ⟨u ++ c :: (List.replicate z' '0' ++ '.' :: List.replicate z '0'),
        u.length + 1, z'⟩) := by
  have hstrip := stripZeros_ok (u := u ++ c :: List.replicate z' '0') (z := z)
    (show '.' ≠ '0' by decide) [] 0
  have hstrip' := stripZeros_ok (u := u) (z := z') hc ('.' :: List.replicate z '0') 0
  rw [List.append_nil, List.append_assoc, List.cons_append] at hstrip
  rw [zero_add] at hstrip'
  have hcount : (u ++ c :: List.replicate z' '0').length = u.length + 1 + z' := by
    simp
    omega
  have hlen : (u ++ c :: (List.replicate z' '0' ++ '.' :: List.replicate z '0')).length =
      u.length + 1 + z' + 1 + z := by
    simp
    omega
  have hget : (u ++ c :: (List.replicate z' '0' ++ '.' :: List.replicate z '0'))[u.length + 1 + z']?
      = some '.' := by
    rw [List.getElem?_append_right (by omega)]
    simp [show u.length + 1 + z' - u.length = z' + 1 by omega]
  have hhead : (u ++ c :: (List.replicate z' '0' ++ '.' :: List.replicate z '0')).head? ≠
      some '.' := by
    cases u with
    | nil =>
      intro he
      obtain rfl : c = '.' := Option.some.inj he
      exact hd.no_point (by simp)
    | cons x u =>
      intro he
      obtain rfl : x = '.' := Option.some.inj he
      exact hd.no_point (by simp)
  rw [hcount] at hstrip
  generalize u ++ c :: (List.replicate z' '0' ++ '.' :: List.replicate z '0') = t at *
  unfold scannedFrom
  rw [hlen, if_neg (by omega), hstrip]
  simp only [bind, Except.bind, if_neg hhead, Nat.add_sub_cancel, hget, if_true, hstrip',
    Except.map]
  rfl

/-- Digits on both sides of the point: it is taken out. -/
theorem scannedFrom_point (hds : ds ≠ []) (hd : AllDigits ds) (hu : AllDigits (u ++ [c]))
    (hc : c ≠ '0') : ∃ rest,
    scannedFrom (ds ++ '.' :: (u ++ c :: List.replicate z '0')) =
      .ok (some ⟨ds ++ (u ++ [c]) ++ rest, ds.length + (u.length + 1),
        -((u.length + 1 : ℕ) : ℤ)⟩) := by
  have hstrip := stripZeros_ok (u := ds ++ '.' :: u) (z := z) hc [] 0
  rw [List.append_nil, List.append_assoc, List.cons_append] at hstrip
  have hcount : (ds ++ '.' :: u).length + 1 = ds.length + 1 + u.length + 1 := by
    simp
    omega
  have hlen : (ds ++ '.' :: (u ++ c :: List.replicate z '0')).length =
      ds.length + 1 + u.length + 1 + z := by
    simp
    omega
  have hpos := List.length_pos_of_ne_nil hds
  have hdigit : c ≠ '.' := by
    rintro rfl
    exact hu.no_point (by simp)
  have hhead : (ds ++ '.' :: (u ++ c :: List.replicate z '0')).head? ≠ some '.' := by
    obtain ⟨d, ds, rfl⟩ := List.exists_cons_of_ne_nil hds
    intro he
    obtain rfl : d = '.' := Option.some.inj he
    exact hd.no_point List.mem_cons_self
  have hlast : (ds ++ '.' :: (u ++ c :: List.replicate z '0'))[ds.length + 1 + u.length]? ≠
      some '.' := by
    rw [List.getElem?_append_right (by omega)]
    simp [show ds.length + 1 + u.length - ds.length = u.length + 1 by omega, hdigit]
  have hfind : ((List.range' 1 (ds.length + 1 + u.length + 1 - 2)).find? fun i =>
      (ds ++ '.' :: (u ++ c :: List.replicate z '0'))[i]? = some '.') = some ds.length := by
    rw [List.find?_range'_eq_some]
    refine ⟨by simp, by rw [List.mem_range'_1]; omega, ?_⟩
    intro j _ hj
    rw [List.getElem?_append_left hj]
    have : ds[j]? ≠ some '.' := fun he => hd.no_point (List.mem_of_getElem? he)
    simpa using this
  have hdrop : Scanned.dropPoint ⟨ds ++ '.' :: (u ++ c :: List.replicate z '0'),
      ds.length + 1 + u.length + 1, 0 + z⟩ =
      ⟨ds ++ (u ++ [c]) ++ (ds ++ '.' :: (u ++ c :: List.replicate z '0')).drop
          (ds.length + 1 + u.length + 1 - 1), ds.length + (u.length + 1),
        -((u.length + 1 : ℕ) : ℤ)⟩ := by
    have hafter : ((ds ++ '.' :: (u ++ c :: List.replicate z '0')).drop (ds.length + 1)).take
        (ds.length + 1 + u.length + 1 - 1 - ds.length) = u ++ [c] := by
      rw [List.drop_append, List.drop_of_length_le (by omega), List.nil_append,
        show ds.length + 1 - ds.length = 1 by omega, List.drop_one, List.tail_cons,
        show ds.length + 1 + u.length + 1 - 1 - ds.length = u.length + 1 by omega,
        List.take_append, List.take_of_length_le (by omega),
        show u.length + 1 - u.length = 1 by omega]
      rfl
    unfold Scanned.dropPoint
    rw [hfind]
    dsimp only
    rw [hafter, List.take_left]
    congr 1
    · omega
    · push_cast
      omega
  rw [hcount] at hstrip
  refine ⟨(ds ++ '.' :: (u ++ c :: List.replicate z '0')).drop (ds.length + 1 + u.length + 1 - 1),
    ?_⟩
  unfold scannedFrom
  rw [hlen, if_neg (by omega), hstrip]
  simp only [bind, Except.bind, if_neg hhead, Nat.add_sub_cancel, if_neg hlast, hdrop]
  rfl

theorem AllDigits.intDigits (h : AllDigits ds) :
    intDigits ds = (ds.dropWhile (· = '0')).length := by
  have htake : ds.takeWhile (· ≠ '.') = ds := by
    rw [List.takeWhile_eq_self_iff]
    intro c hc
    have : c ≠ '.' := fun he => h.no_point (he ▸ hc)
    simpa using this
  rw [Calc.intDigits, htake]

theorem AllDigits.intDigits_point (h : AllDigits ds) (fs : List Char) :
    Calc.intDigits (ds ++ '.' :: fs) = (ds.dropWhile (· = '0')).length := by
  rw [Calc.intDigits, h.takeWhile_point]

theorem take_snoc (u : List Char) (c : Char) (v : List Char) :
    (u ++ c :: v).take (u.length + 1) = u ++ [c] := by
  rw [← List.singleton_append, ← List.append_assoc, List.take_left' (by simp)]

theorem decimal_snoc_zeros (u : List Char) (c : Char) (z : ℕ) :
    decimal (u ++ c :: List.replicate z '0') = decimal (u ++ [c]) * 10 ^ z := by
  rw [← List.singleton_append, ← List.append_assoc, decimal_append_zeros]

/-- A text that starts with a digit other than 0 still does when the zeros at its end are gone. -/
theorem front_of_cons (he : c :: t = u ++ c' :: v)
    (hc : c ≠ '0') (hc' : c' ≠ '0') : ∃ x w, u ++ [c'] = x :: w ∧ x ≠ '0' := by
  cases u with
  | nil => exact ⟨c', [], rfl, hc'⟩
  | cons x u => exact ⟨x, u ++ [c'], rfl, by rwa [← (List.cons.inj he).1]⟩

/-- A text without a point. -/
theorem scanned_whole (h : AllDigits ds) :
    scanned ds = .ok none ∧ denoted ds = 0 ∧ intDigits ds = 0 ∨
      ∃ sc, scanned ds = .ok (some sc) ∧ Mantissa ds sc := by
  have hint := h.intDigits
  have hsig : significant ds = ((ds.dropWhile (· = '0')).rdropWhile (· = '0')).length := by
    rw [significant, h.filter]
  have hden := h.denoted
  rcases split_left ds with ⟨z, rfl⟩ | ⟨z, c, t, rfl, hc⟩
  · have hnil : (List.replicate z '0').dropWhile (· = '0') = [] := by simp
    refine .inl ⟨by rw [scanned, hnil]; rfl, ?_, by rw [hint, hnil, List.length_nil]⟩
    rw [hden, decimal_zeros, Nat.cast_zero]
  · refine .inr ?_
    have hscan : scanned (List.replicate z '0' ++ c :: t) = scannedFrom (c :: t) := by
      rw [scanned, dropWhile_zeros hc]
    rw [dropWhile_zeros hc] at hint hsig
    rw [decimal_zeros_append] at hden
    have hct : AllDigits (c :: t) := (AllDigits.append_iff.mp h).2
    generalize List.replicate z '0' ++ c :: t = s at *
    rcases split_right (c :: t) with ⟨z', he⟩ | ⟨u, c', z', he, hc'⟩
    · exact absurd (List.eq_of_mem_replicate (he ▸ List.mem_cons_self)) hc
    have hfront := front_of_cons he hc hc'
    rw [he] at hint hsig hct hscan hden
    rw [rdropWhile_zeros hc'] at hsig
    have hdigits : AllDigits (u ++ [c']) := hct.sublist (by simp)
    have htake := take_snoc u c' (List.replicate z' '0')
    refine ⟨_, by rw [hscan, scannedFrom_whole hdigits hc'], ?_⟩
    constructor
    · simp
    · rwa [htake]
    · rw [hden, htake, decimal_snoc_zeros]
      push_cast
      rfl
    · exact ⟨u, c', htake, hc'⟩
    · rw [htake]
      exact .inr hfront
    · rw [hint]
      simp
      omega
    · intro _
      rw [hsig]
      simp

/-- Only zeros before the point. -/
theorem scanned_fraction (hfs : AllDigits fs) :
    scanned (List.replicate z '0' ++ '.' :: fs) = .ok none ∧
        denoted (List.replicate z '0' ++ '.' :: fs) = 0 ∧
        intDigits (List.replicate z '0' ++ '.' :: fs) = 0 ∨
      ∃ sc, scanned (List.replicate z '0' ++ '.' :: fs) = .ok (some sc) ∧
        Mantissa (List.replicate z '0' ++ '.' :: fs) sc := by
  have hscan : scanned (List.replicate z '0' ++ '.' :: fs) = scannedFrom ('.' :: fs) := by
    rw [scanned, dropWhile_zeros (by decide)]
  have hzero : intDigits (List.replicate z '0' ++ '.' :: fs) = 0 := by
    rw [(AllDigits.zeros z).intDigits_point fs]
    simp
  have hden := (AllDigits.zeros z).denoted_point hfs
  rw [decimal_zeros_append] at hden
  rcases split_right fs with ⟨z', rfl⟩ | ⟨u, c, z', rfl, hc⟩
  · refine .inl ⟨by rw [hscan, scannedFrom_zero], ?_, hzero⟩
    rw [hden, decimal_zeros, Nat.cast_zero, zero_div]
  · have hdigits : AllDigits (u ++ [c]) := hfs.sublist (by simp)
    have htake := take_snoc u c (List.replicate z' '0')
    refine .inr ⟨_, by rw [hscan, scannedFrom_fraction hc], ?_⟩
    constructor
    · simp
    · rwa [htake]
    · rw [hden, htake, decimal_snoc_zeros, List.length_append, List.length_cons,
        List.length_replicate, zpow_neg, zpow_natCast,
        show u.length + (z' + 1) = u.length + 1 + z' by omega, pow_add]
      push_cast
      field_simp
    · exact ⟨u, c, htake, hc⟩
    · exact .inl hzero
    · rw [hzero]
      push_cast
      ring
    · exact fun hne => absurd hzero hne

/-- A text with a point, from its first digit other than 0 on. -/
theorem scanned_leading (h : AllDigits (List.replicate z '0' ++ c :: t))
    (hc : c ≠ '0') (hfs : AllDigits fs) :
    scanned (List.replicate z '0' ++ c :: t ++ '.' :: fs) = scannedFrom (c :: t ++ '.' :: fs) ∧
      intDigits (List.replicate z '0' ++ c :: t ++ '.' :: fs) = (c :: t).length ∧
      significant (List.replicate z '0' ++ c :: t ++ '.' :: fs) =
        ((c :: (t ++ fs)).rdropWhile (· = '0')).length ∧
      denoted (List.replicate z '0' ++ c :: t ++ '.' :: fs) =
        decimal (c :: (t ++ fs)) / 10 ^ fs.length := by
  have hfront : List.replicate z '0' ++ c :: t ++ fs =
      List.replicate z '0' ++ c :: (t ++ fs) := by simp
  refine ⟨?_, ?_, ?_, ?_⟩
  · rw [scanned, List.append_assoc, List.cons_append, dropWhile_zeros hc]
  · rw [h.intDigits_point, dropWhile_zeros hc]
  · rw [significant, h.filter_point hfs, hfront, dropWhile_zeros hc]
  · rw [h.denoted_point hfs, hfront, decimal_zeros_append]

/-- Only zeros behind the point. -/
theorem scanned_dot (h : AllDigits (List.replicate z '0' ++ c :: t)) (hc : c ≠ '0') (z' : ℕ) :
    ∃ sc, scanned (List.replicate z '0' ++ c :: t ++ '.' :: List.replicate z' '0') =
        .ok (some sc) ∧
      Mantissa (List.replicate z '0' ++ c :: t ++ '.' :: List.replicate z' '0') sc := by
  obtain ⟨hscan, hint, hsig, hden⟩ := scanned_leading h hc (AllDigits.zeros z')
  have hct : AllDigits (c :: t) := (AllDigits.append_iff.mp h).2
  generalize List.replicate z '0' ++ c :: t ++ '.' :: List.replicate z' '0' = s at *
  rcases split_right (c :: t) with ⟨k, he⟩ | ⟨u, c', k, he, hc'⟩
  · exact absurd (List.eq_of_mem_replicate (he ▸ List.mem_cons_self)) hc
  have hfront := front_of_cons he hc hc'
  rw [he] at hint hct hscan
  rw [← List.cons_append, he] at hden hsig
  rw [List.append_assoc, List.cons_append, ← List.replicate_add] at hden hsig
  rw [rdropWhile_zeros hc'] at hsig
  rw [List.append_assoc, List.cons_append] at hscan
  have hdigits : AllDigits (u ++ [c']) := hct.sublist (by simp)
  have htake := take_snoc u c' (List.replicate k '0' ++ '.' :: List.replicate z' '0')
  refine ⟨_, by rw [hscan, scannedFrom_dot hdigits hc'], ?_⟩
  constructor
  · simp
  · rwa [htake]
  · rw [hden, htake, decimal_snoc_zeros, List.length_replicate, zpow_natCast, pow_add]
    push_cast
    field_simp
  · exact ⟨u, c', htake, hc'⟩
  · rw [htake]
    exact .inr hfront
  · rw [hint]
    simp
    omega
  · intro _
    rw [hsig]
    simp

/-- Digits other than 0 on both sides of the point. -/
theorem scanned_both (h : AllDigits (List.replicate z '0' ++ d :: t))
    (hd : d ≠ '0') (hfs : AllDigits (u ++ c :: List.replicate z' '0')) (hc : c ≠ '0') :
    ∃ sc, scanned (List.replicate z '0' ++ d :: t ++ '.' :: (u ++ c :: List.replicate z' '0')) =
        .ok (some sc) ∧
      Mantissa (List.replicate z '0' ++ d :: t ++ '.' :: (u ++ c :: List.replicate z' '0')) sc := by
  obtain ⟨hscan, hint, hsig, hden⟩ := scanned_leading h hd hfs
  have hdt : AllDigits (d :: t) := (AllDigits.append_iff.mp h).2
  have hdigits : AllDigits (u ++ [c]) := hfs.sublist (by simp)
  obtain ⟨rest, hpoint⟩ := scannedFrom_point (z := z') (List.cons_ne_nil d t) hdt hdigits hc
  have hcut : d :: (t ++ (u ++ c :: List.replicate z' '0')) =
      (d :: (t ++ u)) ++ c :: List.replicate z' '0' := by simp
  have hwhole : (d :: t) ++ (u ++ [c]) = (d :: (t ++ u)) ++ [c] := by simp
  have htake : ((d :: t) ++ (u ++ [c]) ++ rest).take ((d :: t).length + (u.length + 1)) =
      (d :: t) ++ (u ++ [c]) := List.take_left' (by rw [List.length_append]; simp)
  refine ⟨_, by rw [hscan, hpoint], ?_⟩
  constructor
  · rw [List.length_append, List.length_append, List.length_append, List.length_singleton]
    exact Nat.le_add_right _ _
  · rw [htake]
    exact AllDigits.append_iff.mpr ⟨hdt, hdigits⟩
  · rw [hden, htake, hcut, decimal_snoc_zeros, ← hwhole, List.length_append, List.length_cons,
      List.length_replicate, zpow_neg, zpow_natCast,
      show u.length + (z' + 1) = u.length + 1 + z' by omega, pow_add]
    push_cast
    field_simp
  · exact ⟨d :: (t ++ u), c, by rw [htake, hwhole], hc⟩
  · exact .inr ⟨d, t ++ (u ++ [c]), by rw [htake]; rfl, hd⟩
  · rw [hint]
    push_cast
    ring
  · intro _
    rw [hsig, hcut, rdropWhile_zeros hc]
    simp
    omega

/-- A text with a point. -/
theorem scanned_point (h : AllDigits ds) (hfs : AllDigits fs) :
    scanned (ds ++ '.' :: fs) = .ok none ∧ denoted (ds ++ '.' :: fs) = 0 ∧
        intDigits (ds ++ '.' :: fs) = 0 ∨
      ∃ sc, scanned (ds ++ '.' :: fs) = .ok (some sc) ∧ Mantissa (ds ++ '.' :: fs) sc := by
  rcases split_left ds with ⟨z, rfl⟩ | ⟨z, d, t, rfl, hd⟩
  · exact scanned_fraction hfs
  rcases split_right fs with ⟨z', rfl⟩ | ⟨u, c, z', rfl, hc⟩
  · exact .inr (scanned_dot h hd z')
  · exact .inr (scanned_both h hd hfs hc)

/-- What the first half makes of an accepted text. -/
theorem scanned_spec (h : check s = true) :
    scanned s = .ok none ∧ denoted s = 0 ∧ intDigits s = 0 ∨
    ∃ sc, scanned s = .ok (some sc) ∧ Mantissa s sc := by
  rcases check_iff.mp h with ⟨-, hd⟩ | ⟨ds, fs, rfl, -, -, hd, hf⟩
  · exact scanned_whole hd
  · exact scanned_point hd hf

end MyosIo.Calc
