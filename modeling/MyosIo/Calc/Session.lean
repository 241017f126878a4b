import MyosIo.Calc.Compare
import MyosIo.Calc.Operands
import MyosIo.Calc.Print
import MyosIo.Calc.Product

/-! `kernel_main`, from the characters that are typed to the characters that are printed. -/
namespace MyosIo.Calc

/-- The number on a line. -/
def lineValue (l : List Char) : ℚ := signed (l.head? = some '-') (denoted (body l))

/-- What an operator asks for. -/
def exact (fuhao : ℕ) (p q : ℚ) : ℚ :=
  if fuhao = 0 then p + q else if fuhao = 1 then p - q else p * q

/-- A numeral with the sign of the number before it. -/
def Written (text : List Char) (q : ℚ) : Prop :=
  ∃ neg ds, text = (if neg then ['-'] else []) ++ ds ∧ Numeral ds ∧ signed neg (denoted ds) = q

variable {s l l₁ l₂ : List Char} {sc : Scanned} {a b r : Num} {fuhao : ℕ} {p q : ℚ}

/-- The numbers of a text that is shorter than `2 ^ 56`. -/
structure Reading (fuhao : ℕ) (l : List Char) (r : Num) : Prop where
  wellFormed : r.WellFormed
  offset : r.floatOffset < wei
  shape : fuhao ≤ 1 → Shape r
  value : r.value = lineValue l
  nonzero : r.len ≠ 0
  low : -2 ^ 57 ≤ r.floatSegment
  high : r.floatSegment + r.len ≤ 2 ^ 57

/-- The digits of a mantissa are digits of the text. -/
theorem Mantissa.len_le (hm : Mantissa s sc) : sc.len ≤ s.length := by
  by_contra hlong
  have hcount := hm.count
  obtain ⟨f, hf⟩ : ∃ f, f = (s.dropWhile (· ≠ '.')).length - 1 := ⟨_, rfl⟩
  have hsplit : intDigits s + f ≤ s.length := by
    have hint : intDigits s ≤ (s.takeWhile (· ≠ '.')).length := (List.dropWhile_sublist _).length_le
    have hboth : (s.takeWhile (· ≠ '.')).length + (s.dropWhile (· ≠ '.')).length = s.length := by
      rw [← List.length_append, List.takeWhile_append_dropWhile]
    omega
  obtain ⟨g, hg⟩ : ∃ g : ℕ, sc.float = -((f + (g + 1) : ℕ) : ℤ) :=
    ⟨(-sc.float - f - 1).toNat, by omega⟩
  obtain ⟨u, c, hu, hc⟩ := hm.last
  have hd := hm.digits
  rw [hu] at hd
  have hvalue := hm.value
  unfold denoted at hvalue
  rw [hu, ← hf, hg, zpow_neg, zpow_natCast, pow_add, div_eq_iff (by positivity)] at hvalue
  refine hd.not_ten_dvd hc ⟨decimal (s.filter (· ≠ '.')) * 10 ^ g, ?_⟩
  have hten : (10 : ℚ) ^ f ≠ 0 := by positivity
  have hcast : (decimal (u ++ [c]) : ℚ) = 10 * (decimal (s.filter (· ≠ '.')) * 10 ^ g) := by
    rw [hvalue, pow_succ]
    field_simp
  exact_mod_cast hcast

/-- The words a mantissa is packed into. -/
theorem Packed.bounds {pad h : ℕ} (hp : Packed sc pad h r) (hm : Mantissa s sc)
    (hs : s.length < 2 ^ 56) : -2 ^ 57 ≤ r.floatSegment ∧ r.floatSegment + r.len ≤ 2 ^ 57 := by
  have hlen := hm.len_le
  have hint := intDigits_le s
  have hcount := hm.count
  have hscale := hp.scale
  have hoffset := hp.offset
  have hwords := hp.words
  have htop := hp.top
  have hpad := hp.padding
  omega

theorem Reading.fits (ha : Reading fuhao l₁ a) (hb : Reading fuhao l₂ b) : Fits a b := by
  have hlowA := ha.low
  have hlowB := hb.low
  have hhighA := ha.high
  have hhighB := hb.high
  refine ⟨?_, ?_, ?_⟩
  · unfold floatWidthMax
    omega
  · unfold floatWidthMax
    omega
  · unfold topOf bottomOf sizeofNumWidth mallocMax
    split <;> split <;> omega

/-- A result that is exact, and that `print` can handle. -/
structure Result (q : ℚ) (r : Num) : Prop where
  wellFormed : r.WellFormed
  offset : r.floatOffset < wei
  value : r.value = q
  low : -2 ^ 60 ≤ r.floatSegment

theorem print_written (ha : a.WellFormed) (ho : a.floatOffset < wei) (hne : a.value ≠ 0)
    (hlow : -2 ^ 60 ≤ a.floatSegment) : ∃ text, print a = .ok text ∧ Written text a.value := by
  have hlen : a.len ≠ 0 := fun h => hne (Num.value_zero h)
  rcases le_or_gt 0 a.floatSegment with hfs | hfs
  · obtain ⟨text, hrun, hnil, hwrites⟩ := print_whole ha hlen hfs
    refine ⟨_, hrun, a.isNegative, text, rfl, .whole hnil hwrites.digits, ?_⟩
    rw [hwrites.digits.denoted, Num.value, Num.magnitude_of_nonneg hfs, ← hwrites.value,
      Int.cast_natCast]
  · obtain ⟨text, hrun, htext⟩ := print_pointed ha ho (fun h => hlen h.1) hfs (by omega)
    have hden := htext.denoted_eq_iff
    rw [fractionWidth_eq_iff hfs ho] at hden
    refine ⟨_, hrun, a.isNegative, text, rfl, htext.denotes.1, ?_⟩
    rw [hden.mpr (.inl (by omega))]
    rfl

theorem Reading.written (ha : Reading fuhao l a) (hz : lineValue l ≠ 0) :
    ∃ text, print a = .ok text ∧ Written text (lineValue l) := by
  rw [← ha.value] at hz ⊢
  exact print_written ha.wellFormed ha.offset hz (by have := ha.low; omega)

end MyosIo.Calc
