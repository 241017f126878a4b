import Mathlib.Algebra.Order.Ring.Int
import Mathlib.Algebra.Order.Group.Int
import Mathlib.Tactic.Ring
import Mathlib.Tactic.Linarith
import Mathlib.Tactic.Positivity

/-! `radix B ws` is the number the words denote, whatever their size or sign; `Digits B ws` says
that they are digits. -/
namespace MyosIo

variable {B : ℤ} {xs ys zs : List ℤ} {x y : ℤ}

def radix (B : ℤ) : List ℤ → ℤ
  | [] => 0
  | w :: ws => w + B * radix B ws

def Digits (B : ℤ) (ws : List ℤ) : Prop := ∀ w ∈ ws, 0 ≤ w ∧ w < B

instance (B : ℤ) (ws : List ℤ) : Decidable (Digits B ws) :=
  inferInstanceAs (Decidable (∀ w ∈ ws, 0 ≤ w ∧ w < B))

@[simp] theorem radix_nil : radix B [] = 0 := rfl

@[simp] theorem radix_cons : radix B (x :: xs) = x + B * radix B xs := rfl

theorem radix_singleton : radix B [x] = x := by simp

theorem radix_append : radix B (xs ++ ys) = radix B xs + B ^ xs.length * radix B ys := by
  induction xs with
  | nil => simp
  | cons x xs ih =>
    simp only [List.cons_append, radix_cons, List.length_cons, pow_succ, ih]
    ring

@[simp] theorem radix_replicate_zero (n : ℕ) : radix B (List.replicate n 0) = 0 := by
  induction n with
  | zero => rfl
  | succ n ih => simp [List.replicate_succ, ih]

/-- A zero on top does not count. -/
@[simp] theorem radix_concat_zero : radix B (xs ++ [0]) = radix B xs := by
  rw [radix_append, radix_singleton, Int.mul_zero, Int.add_zero]

theorem radix_nonneg (hB : 0 ≤ B) (h : ∀ w ∈ xs, 0 ≤ w) : 0 ≤ radix B xs := by
  induction xs with
  | nil => exact Int.le_refl 0
  | cons x xs ih =>
    have hx := h x List.mem_cons_self
    have hxs := ih fun w hw => h w (List.mem_cons_of_mem _ hw)
    rw [radix_cons]
    positivity

namespace Digits

@[simp] theorem nil : Digits B [] := by simp [Digits]

@[simp] theorem cons_iff : Digits B (x :: xs) ↔ (0 ≤ x ∧ x < B) ∧ Digits B xs := by
  simp [Digits]

@[simp] theorem append_iff : Digits B (xs ++ ys) ↔ Digits B xs ∧ Digits B ys := by
  simp only [Digits, List.mem_append]
  exact ⟨fun h => ⟨fun w hw => h w (.inl hw), fun w hw => h w (.inr hw)⟩,
    fun h w hw => hw.elim (h.1 w) (h.2 w)⟩

theorem zeros (hB : 0 < B) (n : ℕ) : Digits B (List.replicate n 0) := by
  intro w hw
  rw [List.eq_of_mem_replicate hw]
  exact ⟨Int.le_refl 0, hB⟩

theorem nonneg (h : Digits B xs) : 0 ≤ radix B xs := by
  cases xs with
  | nil => exact Int.le_refl 0
  | cons x xs =>
    have hx := h x List.mem_cons_self
    exact radix_nonneg (by omega) fun w hw => (h w hw).1

theorem lt_pow (h : Digits B xs) : radix B xs < B ^ xs.length := by
  induction xs with
  | nil => simp
  | cons x xs ih =>
    rw [cons_iff] at h
    have hB : 0 < B := by omega
    have hxs : radix B xs + 1 ≤ B ^ xs.length := ih h.2
    have hmul := Int.mul_le_mul_of_nonneg_left hxs hB.le
    rw [radix_cons, List.length_cons, pow_succ, Int.mul_comm _ B]
    linarith [h.1.2]

theorem take (h : Digits B xs) (n : ℕ) : Digits B (xs.take n) :=
  fun w hw => h w (List.mem_of_mem_take hw)

theorem drop (h : Digits B xs) (n : ℕ) : Digits B (xs.drop n) :=
  fun w hw => h w (List.mem_of_mem_drop hw)

/-- Digits are determined by the number and how many they are. -/
theorem unique (hx : Digits B xs) (hy : Digits B ys) (hl : xs.length = ys.length)
    (he : radix B xs = radix B ys) : xs = ys := by
  induction xs generalizing ys with
  | nil => exact (List.eq_nil_of_length_eq_zero hl.symm).symm
  | cons x xs ih =>
    cases ys with
    | nil => cases hl
    | cons y ys =>
      rw [cons_iff] at hx hy
      rw [radix_cons, radix_cons] at he
      have hmod := congrArg (· % B) he
      simp only [Int.add_mul_emod_self_left, Int.emod_eq_of_lt hx.1.1 hx.1.2,
        Int.emod_eq_of_lt hy.1.1 hy.1.2] at hmod
      subst hmod
      have hB : B ≠ 0 := by omega
      rw [ih hx.2 hy.2 (by simpa using hl) (Int.eq_of_mul_eq_mul_left hB (by omega))]

theorem eq_zeros (h : Digits B xs) (hz : radix B xs = 0) : xs = List.replicate xs.length 0 := by
  cases xs with
  | nil => rfl
  | cons x xs =>
    have hB : 0 < B := by have := h x List.mem_cons_self; omega
    refine h.unique (zeros hB _) ?_ ?_
    · rw [List.length_replicate]
    · rw [hz, radix_replicate_zero]

end Digits

/-- With a digit in every place but the top one, the top one is the quotient. -/
theorem radix_top (h : Digits B xs) (hB : 0 < B) : radix B (xs ++ [x]) / B ^ xs.length = x := by
  have hpow : 0 < B ^ xs.length := by positivity
  rw [radix_append, radix_singleton, Int.add_mul_ediv_left _ _ hpow.ne',
    Int.ediv_eq_zero_of_lt h.nonneg h.lt_pow, Int.zero_add]

/-- Numbers compare as their highest different part. -/
theorem radix_append_lt (hx : Digits B xs) (hy : Digits B ys) (hl : xs.length = ys.length)
    (hB : 0 < B) (us vs : List ℤ) (h : radix B us < radix B vs) :
    radix B (xs ++ us) < radix B (ys ++ vs) := by
  have hpow : 0 < B ^ ys.length := by positivity
  have hlt := hx.lt_pow
  have hnn := hy.nonneg
  have hmul := Int.mul_le_mul_of_nonneg_left (show radix B us + 1 ≤ radix B vs from h) hpow.le
  rw [radix_append, radix_append, hl]
  rw [hl] at hlt
  linarith

/-- `xs` with `i` zeros below it, in `n` words. -/
def place (i : ℕ) (xs : List ℤ) (n : ℕ) : List ℤ :=
  List.replicate i 0 ++ (xs ++ List.replicate (n - (i + xs.length)) 0)

/-- `c` times the words of `ys` added to those of `xs`. -/
def plus (c : ℤ) (xs ys : List ℤ) : List ℤ := List.zipWith (fun x y => x + y * c) xs ys

theorem length_place {i n : ℕ} (h : i + xs.length ≤ n) : (place i xs n).length = n := by
  simp only [place, List.length_append, List.length_replicate]
  omega

theorem radix_place (i n : ℕ) : radix B (place i xs n) = B ^ i * radix B xs := by
  simp [place, radix_append]

theorem Digits.place (h : Digits B xs) (hB : 0 < B) (i n : ℕ) : Digits B (place i xs n) :=
  append_iff.mpr ⟨zeros hB i, append_iff.mpr ⟨h, zeros hB _⟩⟩

theorem place_take_zeros (xs : List ℤ) (i n : ℕ) : (place i xs n).take i = List.replicate i 0 :=
  List.take_left' List.length_replicate

@[simp] theorem length_plus (c : ℤ) : (plus c xs ys).length = min xs.length ys.length :=
  List.length_zipWith

theorem radix_plus (c : ℤ) (h : xs.length = ys.length) :
    radix B (plus c xs ys) = radix B xs + c * radix B ys := by
  induction xs generalizing ys with
  | nil =>
    obtain rfl := List.eq_nil_of_length_eq_zero h.symm
    simp [plus]
  | cons x xs ih =>
    cases ys with
    | nil => cases h
    | cons y ys =>
      have := ih (by simpa using h)
      simp only [plus, List.zipWith_cons_cons, radix_cons] at this ⊢
      rw [this]
      ring

theorem plus_zeros (c : ℤ) (xs : List ℤ) : plus c xs (List.replicate xs.length 0) = xs := by
  induction xs with
  | nil => rfl
  | cons x xs ih => simpa [plus, List.replicate_succ] using ih

theorem zeros_plus (xs : List ℤ) : plus 1 (List.replicate xs.length 0) xs = xs := by
  induction xs with
  | nil => rfl
  | cons x xs ih => simpa [plus, List.replicate_succ] using ih

theorem take_plus (c : ℤ) (k : ℕ) : (plus c xs ys).take k = plus c (xs.take k) (ys.take k) :=
  List.take_zipWith

theorem mem_plus {c w : ℤ} (h : w ∈ plus c xs ys) : ∃ x ∈ xs, ∃ y ∈ ys, w = x + y * c := by
  induction xs generalizing ys with
  | nil => simp [plus] at h
  | cons x xs ih =>
    cases ys with
    | nil => simp [plus] at h
    | cons y ys =>
      rcases List.mem_cons.mp h with rfl | h
      · exact ⟨x, List.mem_cons_self, y, List.mem_cons_self, rfl⟩
      · obtain ⟨x', hx', y', hy', rfl⟩ := ih h
        exact ⟨x', List.mem_cons_of_mem _ hx', y', List.mem_cons_of_mem _ hy', rfl⟩

end MyosIo
