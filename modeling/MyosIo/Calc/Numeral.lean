import Mathlib.Algebra.Order.Ring.Rat
import Mathlib.Tactic.NormNum
import Mathlib.Tactic.Ring
import Mathlib.Tactic.FieldSimp
import MyosIo.Calc.Text

/-! What a text denotes, and that `check` accepts the numerals with a digit on both sides of a
point. -/
namespace MyosIo.Calc

variable {cs ds fs s : List Char} {c : Char} {n : ℕ}

/-- Nothing but digits. -/
def AllDigits (cs : List Char) : Prop := ∀ c ∈ cs, c.isDigit

/-- The number a numeral denotes. -/
def denoted (s : List Char) : ℚ :=
  decimal (s.filter (· ≠ '.')) / 10 ^ ((s.dropWhile (· ≠ '.')).length - 1)

/-- Digits, and perhaps a point and digits after it. -/
inductive Numeral : List Char → Prop
  | whole {ds : List Char} : ds ≠ [] → AllDigits ds → Numeral ds
  | point {ds fs : List Char} : ds ≠ [] → AllDigits ds → AllDigits fs → Numeral (ds ++ '.' :: fs)

@[simp] theorem AllDigits.nil : AllDigits [] := by simp [AllDigits]

@[simp] theorem AllDigits.cons_iff : AllDigits (c :: cs) ↔ c.isDigit ∧ AllDigits cs := by
  simp [AllDigits]

@[simp] theorem AllDigits.append_iff : AllDigits (cs ++ ds) ↔ AllDigits cs ∧ AllDigits ds := by
  simp only [AllDigits, List.mem_append]
  exact ⟨fun h => ⟨fun c hc => h c (.inl hc), fun c hc => h c (.inr hc)⟩,
    fun h c hc => hc.elim (h.1 c) (h.2 c)⟩

theorem AllDigits.zeros (n : ℕ) : AllDigits (List.replicate n '0') := by
  intro c hc
  rw [List.eq_of_mem_replicate hc]
  rfl

theorem AllDigits.sublist (h : AllDigits cs) (hs : ds.Sublist cs) : AllDigits ds :=
  fun c hc => h c (hs.subset hc)

theorem AllDigits.no_point (h : AllDigits cs) : '.' ∉ cs := fun hm => absurd (h _ hm) (by decide)

theorem AllDigits.takeWhile (h : AllDigits cs) : cs.takeWhile Char.isDigit = cs :=
  List.takeWhile_eq_self_iff.mpr h

/-- The value of a digit. -/
theorem digit_bounds (h : c.isDigit) : c.toNat - 48 < 10 ∧ (c.toNat - 48 = 0 ↔ c = '0') := by
  have hval : c.toNat = c.val.toNat := rfl
  simp only [Char.isDigit, ge_iff_le, Bool.and_eq_true, decide_eq_true_eq, UInt32.le_iff_toNat_le]
    at h
  have h0 : '0'.val.toNat = 48 := rfl
  have h9 : '9'.val.toNat = 57 := rfl
  refine ⟨by omega, ?_, ?_⟩
  · intro hz
    apply Char.ext
    apply UInt32.toNat_inj.mp
    omega
  · rintro rfl
    rfl

@[simp] theorem decimal_nil : decimal [] = 0 := rfl

theorem decimal_append (cs ds : List Char) :
    decimal (cs ++ ds) = decimal cs * 10 ^ ds.length + decimal ds := by
  unfold decimal
  rw [Nat.ofDigitChars_append, Nat.ofDigitChars_eq_ofDigitChars_zero, Nat.mul_comm]

theorem decimal_singleton (c : Char) : decimal [c] = c.toNat - 48 := by
  simp [decimal, Nat.ofDigitChars_cons]

@[simp] theorem decimal_zeros (n : ℕ) : decimal (List.replicate n '0') = 0 := by
  simp [decimal]

theorem decimal_zeros_append (n : ℕ) : decimal (List.replicate n '0' ++ cs) = decimal cs := by
  rw [decimal_append, decimal_zeros, Nat.zero_mul, Nat.zero_add]

theorem decimal_append_zeros (n : ℕ) :
    decimal (cs ++ List.replicate n '0') = decimal cs * 10 ^ n := by
  rw [decimal_append, decimal_zeros, List.length_replicate, Nat.add_zero]

theorem decimal_toDigits (n : ℕ) : decimal (Nat.toDigits 10 n) = n := Nat.ofDigitChars_ten_toDigits

theorem AllDigits.toDigits (n : ℕ) : AllDigits (Nat.toDigits 10 n) :=
  fun _ hc => Nat.isDigit_of_mem_toDigits (by decide) (by decide) hc

theorem AllDigits.decimal_lt (h : AllDigits cs) : decimal cs < 10 ^ cs.length := by
  induction cs using List.reverseRecOn with
  | nil => decide
  | append_singleton cs c ih =>
    rw [append_iff, cons_iff] at h
    have hc := digit_bounds h.2.1
    have hcs := ih h.1
    rw [decimal_append, decimal_singleton, List.length_append, List.length_singleton, pow_succ]
    omega

/-- A last digit other than 0 counts. -/
theorem AllDigits.decimal_pos (h : AllDigits (cs ++ [c])) (hc : c ≠ '0') :
    0 < decimal (cs ++ [c]) := by
  rw [append_iff, cons_iff] at h
  have := digit_bounds h.2.1
  rw [decimal_append, decimal_singleton]
  exact Nat.lt_of_lt_of_le (Nat.pos_of_ne_zero fun he => hc (this.2.mp he)) (Nat.le_add_left _ _)

/-- Such a number is no multiple of ten. -/
theorem AllDigits.not_ten_dvd (h : AllDigits (cs ++ [c])) (hc : c ≠ '0') :
    ¬10 ∣ decimal (cs ++ [c]) := by
  rw [append_iff, cons_iff] at h
  have hd := digit_bounds h.2.1
  have hne : c.toNat - 48 ≠ 0 := fun he => hc (hd.2.mp he)
  rw [decimal_append, decimal_singleton, List.length_singleton, pow_one]
  omega

/-- A first digit other than 0 counts most. -/
theorem AllDigits.pow_le_decimal (h : AllDigits (c :: cs)) (hc : c ≠ '0') :
    10 ^ cs.length ≤ decimal (c :: cs) := by
  rw [cons_iff] at h
  have := digit_bounds h.1
  have hone : 1 ≤ c.toNat - 48 := Nat.pos_of_ne_zero fun he => hc (this.2.mp he)
  rw [← List.singleton_append, decimal_append, decimal_singleton]
  exact Nat.le_add_right_of_le (Nat.le_mul_of_pos_left _ hone)

theorem AllDigits.filter (h : AllDigits cs) : cs.filter (· ≠ '.') = cs := by
  rw [List.filter_eq_self]
  intro c hc
  have : c ≠ '.' := fun he => h.no_point (he ▸ hc)
  simpa using this

theorem AllDigits.dropWhile (h : AllDigits cs) : cs.dropWhile (· ≠ '.') = [] := by
  rw [List.dropWhile_eq_nil_iff]
  intro c hc
  have : c ≠ '.' := fun he => h.no_point (he ▸ hc)
  simpa using this

theorem AllDigits.takeWhile_point (h : AllDigits ds) :
    (ds ++ '.' :: fs).takeWhile (· ≠ '.') = ds := by
  rw [List.takeWhile_append_of_pos, List.takeWhile_cons_of_neg (by simp), List.append_nil]
  intro c hc
  have : c ≠ '.' := fun he => h.no_point (he ▸ hc)
  simpa using this

theorem AllDigits.filter_point (h : AllDigits ds) (h' : AllDigits fs) :
    (ds ++ '.' :: fs).filter (· ≠ '.') = ds ++ fs := by
  rw [List.filter_append, h.filter, List.filter_cons, h'.filter]
  rfl

theorem AllDigits.denoted (h : AllDigits cs) : denoted cs = decimal cs := by
  rw [Calc.denoted, h.filter, h.dropWhile]
  simp

theorem AllDigits.denoted_point (h : AllDigits ds) (h' : AllDigits fs) :
    Calc.denoted (ds ++ '.' :: fs) = decimal (ds ++ fs) / 10 ^ fs.length := by
  have hdrop : (ds ++ '.' :: fs).dropWhile (· ≠ '.') = '.' :: fs := by
    rw [List.dropWhile_append, h.dropWhile]
    rfl
  rw [Calc.denoted, hdrop, h.filter_point h']
  rfl

theorem checkLoop_digit (h : c.isDigit) : checkLoop n (c :: s) = checkLoop n s := by
  rw [checkLoop, if_neg (by simp [h])]

theorem checkLoop_other (h : ¬c.isDigit) (hp : c ≠ '.') : checkLoop n (c :: s) = false := by
  rw [checkLoop, if_pos (by simpa using h), if_neg hp]

theorem checkLoop_one : checkLoop 1 s = true ↔ AllDigits s := by
  induction s with
  | nil => simp [checkLoop]
  | cons c s ih =>
    rw [AllDigits.cons_iff, ← ih]
    by_cases hc : c.isDigit
    · simp [checkLoop_digit hc, hc]
    · simp [checkLoop, hc]

/-- The loop lets digits pass and one point. -/
theorem checkLoop_zero : checkLoop 0 s = true ↔
    AllDigits s ∨ ∃ ds fs, s = ds ++ '.' :: fs ∧ AllDigits ds ∧ AllDigits fs := by
  induction s with
  | nil => simp [checkLoop]
  | cons c s ih =>
    by_cases hc : c.isDigit
    · rw [checkLoop_digit hc, ih, AllDigits.cons_iff]
      refine or_congr (by simp [hc]) ⟨?_, ?_⟩
      · rintro ⟨ds, fs, rfl, hds, hfs⟩
        exact ⟨c :: ds, fs, rfl, AllDigits.cons_iff.mpr ⟨hc, hds⟩, hfs⟩
      · rintro ⟨ds, fs, he, hds, hfs⟩
        cases ds with
        | nil =>
          obtain rfl := (List.cons.inj he).1
          exact absurd hc (by decide)
        | cons d ds =>
          obtain ⟨rfl, rfl⟩ := List.cons.inj he
          exact ⟨ds, fs, rfl, (AllDigits.cons_iff.mp hds).2, hfs⟩
    · by_cases hp : c = '.'
      · subst hp
        have hone : checkLoop 0 ('.' :: s) = checkLoop 1 s := rfl
        rw [hone, checkLoop_one]
        constructor
        · intro hs
          exact .inr ⟨[], s, rfl, .nil, hs⟩
        · rintro (hall | ⟨ds, fs, he, hds, hfs⟩)
          · exact absurd (AllDigits.cons_iff.mp hall).1 hc
          cases ds with
          | nil =>
            obtain ⟨-, rfl⟩ := List.cons.inj he
            exact hfs
          | cons d ds =>
            obtain ⟨rfl, -⟩ := List.cons.inj he
            exact absurd (AllDigits.cons_iff.mp hds).1 hc
      · rw [checkLoop_other hc hp]
        constructor
        · intro he
          cases he
        · rintro (hall | ⟨ds, fs, he, hds, hfs⟩)
          · exact absurd (AllDigits.cons_iff.mp hall).1 hc
          cases ds with
          | nil => exact absurd (List.cons.inj he).1 hp
          | cons d ds =>
            obtain ⟨rfl, -⟩ := List.cons.inj he
            exact absurd (AllDigits.cons_iff.mp hds).1 hc

/-- What `check` does with a text that has a first and a last character. -/
theorem check_ends (mid : List Char) (l : Char) : check (c :: (mid ++ [l])) = true ↔
    c.isDigit ∧ l.isDigit ∧ checkLoop 0 mid = true := by
  have hlen : (c :: (mid ++ [l])).length - 2 = mid.length := by simp
  have hlast : (c :: (mid ++ [l])).getLast? = some l := by
    rw [← List.cons_append, List.getLast?_concat]
  unfold check
  rw [if_neg (by simp), hlast, hlen, List.drop_one, List.tail_cons, List.take_left]
  by_cases hl : l.isDigit <;> by_cases hc : c.isDigit <;> simp [hl, hc]

/-- `check` accepts digits, with or without a point between two of them. -/
theorem check_iff : check s = true ↔ s ≠ [] ∧ AllDigits s ∨
    ∃ ds fs, s = ds ++ '.' :: fs ∧ ds ≠ [] ∧ fs ≠ [] ∧ AllDigits ds ∧ AllDigits fs := by
  cases s with
  | nil => simp [check]
  | cons c s =>
    rcases List.eq_nil_or_concat' s with rfl | ⟨mid, l, rfl⟩
    · have hone : check [c] = true ↔ c.isDigit := by
        by_cases hc : c.isDigit <;> simp [check, checkLoop, hc]
      rw [hone]
      constructor
      · intro hc
        exact .inl ⟨by simp, by simpa using hc⟩
      · rintro (⟨-, hall⟩ | ⟨ds, fs, he, hds, hfs, -⟩)
        · exact (AllDigits.cons_iff.mp hall).1
        · have hlen := congrArg List.length he
          have := List.length_pos_of_ne_nil hds
          simp only [List.length_cons, List.length_nil, List.length_append] at hlen
          omega
    · rw [check_ends, checkLoop_zero]
      constructor
      · rintro ⟨hc, hl, hall | ⟨ds, fs, rfl, hds, hfs⟩⟩
        · exact .inl ⟨by simp, by simp [hc, hl, hall]⟩
        · exact .inr ⟨c :: ds, fs ++ [l], by simp, by simp, by simp, by simp [hc, hds],
            by simp [hl, hfs]⟩
      · rintro (⟨-, hall⟩ | ⟨ds, fs, he, hds, hfs, hd, hf⟩)
        · simp only [AllDigits.cons_iff, AllDigits.append_iff] at hall
          exact ⟨hall.1, hall.2.2.1, .inl hall.2.1⟩
        · obtain ⟨d, ds, rfl⟩ := List.exists_cons_of_ne_nil hds
          rcases List.eq_nil_or_concat' fs with rfl | ⟨fs, f, rfl⟩
          · exact absurd rfl hfs
          have he' : c :: (mid ++ [l]) = d :: ((ds ++ '.' :: fs) ++ [f]) := by simpa using he
          obtain ⟨rfl, hrest⟩ := List.cons.inj he'
          obtain ⟨rfl, hlast⟩ := List.append_inj' hrest rfl
          cases hlast
          simp only [AllDigits.cons_iff, AllDigits.append_iff] at hd hf
          exact ⟨hd.1, hf.2.1, .inr ⟨ds, fs, rfl, hd.2, hf.1⟩⟩

end MyosIo.Calc
