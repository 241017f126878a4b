import Mathlib.Logic.Function.Basic
import Mathlib.Data.Nat.ModEq
import Mathlib.Data.List.Basic

/-! `Window M zero buf lo xs` says that the slots `lo, lo + 1, …` modulo `M` hold `xs` in order
and every other slot holds `zero`; `Circular M buf lo xs` says nothing about the others. -/
namespace MyosIo

open Function

variable {V : Type*} {M lo : ℕ} {zero v : V} {buf : ℕ → V} {xs : List V}

structure Window (M : ℕ) (zero : V) (buf : ℕ → V) (lo : ℕ) (xs : List V) : Prop where
  fits : xs.length ≤ M
  slot : ∀ j < M, buf ((lo + j) % M) = (xs[j]?).getD zero

theorem slot_inj {i j : ℕ} (hi : i < M) (hj : j < M) (h : (lo + i) % M = (lo + j) % M) :
    i = j := by
  have hm : i ≡ j [MOD M] := Nat.ModEq.add_left_cancel' lo h
  rwa [Nat.ModEq, Nat.mod_eq_of_lt hi, Nat.mod_eq_of_lt hj] at hm

namespace Window

theorem nil (h : ∀ i, buf i = zero) (lo : ℕ) : Window M zero buf lo [] where
  fits := Nat.zero_le M
  slot _ _ := h _

theorem get (h : Window M zero buf lo xs) {j : ℕ} (hj : j < xs.length) :
    buf ((lo + j) % M) = xs[j] := by
  simpa [hj] using h.slot j (Nat.lt_of_lt_of_le hj h.fits)

theorem front (h : Window M zero buf lo (v :: xs)) : buf (lo % M) = v := by
  have h0 : buf ((lo + 0) % M) = v := h.get (j := 0) (Nat.zero_lt_succ _)
  rwa [Nat.add_zero] at h0

/-- A window without `zero` shows it at the front slot only when it is empty. -/
theorem front_zero (h : Window M zero buf lo xs) (hM : 0 < M) (hz : zero ∉ xs) :
    buf (lo % M) = zero ↔ xs = [] := by
  cases xs with
  | nil => simpa using h.slot 0 hM
  | cons x xs =>
    have hx : x ≠ zero := fun he => hz (by simp [he])
    simp [h.front, hx]

theorem push (h : Window M zero buf lo xs) (hf : xs.length < M) :
    Window M zero (update buf ((lo + xs.length) % M) v) lo (xs ++ [v]) where
  fits := by
    rw [List.length_append]
    exact hf
  slot j hj := by
    rcases Nat.lt_trichotomy j xs.length with hlt | rfl | hgt
    · have hne : (lo + j) % M ≠ (lo + xs.length) % M := fun he => by
        have := slot_inj hj hf he
        omega
      rw [update_of_ne hne, h.slot j hj, List.getElem?_append_left hlt]
    · simp
    · have hne : (lo + j) % M ≠ (lo + xs.length) % M := fun he => by
        have := slot_inj hj hf he
        omega
      have h1 : xs[j]? = none := List.getElem?_eq_none (by omega)
      have h2 : (xs ++ [v])[j]? = none := List.getElem?_eq_none (by simp; omega)
      rw [update_of_ne hne, h.slot j hj, h1, h2]

theorem pop (h : Window M zero buf lo (v :: xs)) :
    Window M zero (update buf (lo % M) zero) (lo + 1) xs where
  fits := by
    have := h.fits
    simp only [List.length_cons] at this
    omega
  slot j hj := by
    have hlen := h.fits
    simp only [List.length_cons] at hlen
    by_cases hl : j + 1 < M
    · have hne : (lo + 1 + j) % M ≠ lo % M := fun he => by
        have he' : (lo + (j + 1)) % M = (lo + 0) % M := by
          rwa [Nat.add_zero, Nat.add_comm j 1, ← Nat.add_assoc]
        have := slot_inj hl (by omega) he'
        omega
      have hs := h.slot (j + 1) hl
      rw [update_of_ne hne, Nat.add_assoc, Nat.add_comm 1 j, hs]
      simp
    · have he : lo + 1 + j = lo + M := by omega
      have hnone : xs[j]? = none := List.getElem?_eq_none (by omega)
      simp [he, hnone]

end Window

/-- The slots `lo, lo + 1, …` modulo `M` hold `xs` in order. -/
structure Circular (M : ℕ) (buf : ℕ → V) (lo : ℕ) (xs : List V) : Prop where
  fits : xs.length ≤ M
  slot : ∀ j (h : j < xs.length), buf ((lo + j) % M) = xs[j]

/-- `n` consecutive slots from `a` on, without wrapping. -/
def slice (buf : ℕ → V) (a n : ℕ) : List V := (List.range n).map fun j => buf (a + j)

@[simp] theorem length_slice (buf : ℕ → V) (a n : ℕ) : (slice buf a n).length = n := by
  simp [slice]

namespace Circular

variable {ys : List V} {n : ℕ}

theorem nil (buf : ℕ → V) (lo : ℕ) : Circular M buf lo [] where
  fits := Nat.zero_le M
  slot _ h := by simp at h

theorem push (h : Circular M buf lo xs) (hf : xs.length < M) (v : V) :
    Circular M (update buf ((lo + xs.length) % M) v) lo (xs ++ [v]) where
  fits := by
    rw [List.length_append]
    exact hf
  slot j hj := by
    rw [List.length_append, List.length_singleton] at hj
    by_cases hlt : j < xs.length
    · have hne : (lo + j) % M ≠ (lo + xs.length) % M := fun he => by
        have := slot_inj (by omega) hf he
        omega
      rw [update_of_ne hne, h.slot j hlt, List.getElem_append_left hlt]
    · obtain rfl : j = xs.length := by omega
      simp

theorem left (h : Circular M buf lo (xs ++ ys)) : Circular M buf lo xs where
  fits := by
    have := h.fits
    rw [List.length_append] at this
    omega
  slot j hj := by
    rw [h.slot j (by rw [List.length_append]; omega), List.getElem_append_left hj]

theorem right (h : Circular M buf lo (xs ++ ys)) : Circular M buf (lo + xs.length) ys where
  fits := by
    have := h.fits
    rw [List.length_append] at this
    omega
  slot j hj := by
    have := h.slot (xs.length + j) (by rw [List.length_append]; omega)
    rw [Nat.add_assoc, this, List.getElem_append_right (Nat.le_add_right _ _)]
    simp

theorem mod (h : Circular M buf lo xs) : Circular M buf (lo % M) xs where
  fits := h.fits
  slot j hj := by rw [Nat.mod_add_mod, h.slot j hj]

theorem unique (h : Circular M buf lo xs) (h' : Circular M buf lo ys)
    (hl : xs.length = ys.length) : xs = ys := by
  refine List.ext_getElem hl fun j hj hj' => ?_
  rw [← h.slot j hj, h'.slot j hj']

/-- A copy that ends before the wrap. -/
theorem slice_low (h : Circular M buf lo xs) (hn : n ≤ xs.length) (hM : lo + n ≤ M) :
    slice buf lo n = xs.take n := by
  apply List.ext_getElem
  · simp [hn]
  · intro j h₁ _
    rw [length_slice] at h₁
    have := h.slot j (by omega)
    rw [Nat.mod_eq_of_lt (by omega)] at this
    simp [slice, this]

/-- A copy across the wrap is two plain copies. -/
theorem slice_wrap (h : Circular M buf lo xs) (hn : n ≤ xs.length) (hlo : lo ≤ M)
    (hM : M ≤ lo + n) : slice buf lo (M - lo) ++ slice buf 0 (n - (M - lo)) = xs.take n := by
  have hcut : xs.take (M - lo) ++ xs.drop (M - lo) = xs := List.take_append_drop _ _
  have hlen : (xs.take (M - lo)).length = M - lo := by
    rw [List.length_take]
    omega
  rw [← hcut] at h
  have hr := h.right
  rw [hlen, Nat.add_sub_cancel' hlo] at hr
  have hr' : Circular M buf 0 (xs.drop (M - lo)) := by
    have := hr.mod
    rwa [Nat.mod_self] at this
  rw [h.left.slice_low hlen.ge (by omega), hr'.slice_low (by rw [List.length_drop]; omega)
    (by have := h.fits; rw [hcut] at this; omega)]
  rw [List.take_take, Nat.min_self, ← List.take_add]
  congr 1
  omega

end Circular
end MyosIo
