import MyosIo.Mm.Init
import Mathlib.Algebra.Order.Ring.Nat

/-! The arithmetic of addresses, indices and entries. -/
namespace MyosIo.Mm

open Function

variable {x v w p ph id t a b c : ℕ}

theorem align2m_mod (x : ℕ) : align2m x % 0x200000 = 0 := by
  unfold align2m
  omega

theorem align2m_le (x : ℕ) : align2m x ≤ x := Nat.sub_le _ _

theorem align2m_of_mod (h : x % 0x200000 = 0) : align2m x = x := by
  unfold align2m
  omega

theorem align2m_add (hp : p % 0x200000 = 0) (hx : x < 0x200000) : align2m (p + x) = p := by
  unfold align2m
  omega

theorem mod_add (hp : p % 0x200000 = 0) (hx : x < 0x200000) : (p + x) % 0x200000 = x := by
  omega

theorem tableId_add (hp : p % 0x200000 = 0) (hid : id < 512) :
    tableId (p + id * 0x1000) = id := by
  unfold tableId
  omega

/-- A table address is its page and its index. -/
theorem table_eq (ht : t % 0x1000 = 0) : t = align2m t + tableId t * 0x1000 := by
  unfold align2m tableId
  omega

theorem table_ext {t' : ℕ} (ht : t % 0x1000 = 0) (ht' : t' % 0x1000 = 0)
    (hp : align2m t = align2m t') (hid : tableId t = tableId t') : t = t' := by
  rw [table_eq ht, table_eq ht', hp, hid]

theorem pageEntry_eq (h : ph % 0x200000 = 0) : pageEntry ph = ph + 0x83 := by
  obtain ⟨k, rfl⟩ : ∃ k, ph = 2 ^ 21 * k := ⟨ph / 2 ^ 21, by omega⟩
  exact (Nat.two_pow_add_eq_or_of_lt (by omega : 0x83 < 2 ^ 21) k).symm

theorem pageEntry_ne_zero (h : ph % 0x200000 = 0) : pageEntry ph ≠ 0 := by
  rw [pageEntry_eq h]
  omega

theorem align2m_pageEntry (h : ph % 0x200000 = 0) : align2m (pageEntry ph) = ph := by
  rw [pageEntry_eq h]
  exact align2m_add h (by omega)

theorem i2_lt (v : ℕ) : i2 v < 512 := Nat.mod_lt _ (by omega)

theorem i3_lt (v : ℕ) : i3 v < 512 := Nat.mod_lt _ (by omega)

theorem i1_lt (hv : v < 2 ^ 45) : i1 v < 64 := by
  unfold i1
  omega

/-- A 2 MiB page below 32 TiB is determined by its three indices. -/
theorem index_inj (hv : v < 2 ^ 45) (hw : w < 2 ^ 45) (hv' : v % 0x200000 = 0)
    (hw' : w % 0x200000 = 0) (h1 : i1 v = i1 w) (h2 : i2 v = i2 w) (h3 : i3 v = i3 w) :
    v = w := by
  unfold i1 at h1
  unfold i2 at h2
  unfold i3 at h3
  omega

@[simp] theorem set2_self {α : Type*} (f : ℕ → ℕ → α) (a b : ℕ) (x : α) :
    set2 f a b x a b = x := by
  simp [set2]

theorem set2_of_ne {α : Type*} {f : ℕ → ℕ → α} {a b a' b' : ℕ} (x : α)
    (h : ¬ (a' = a ∧ b' = b)) : set2 f a b x a' b' = f a' b' := if_neg h

end MyosIo.Mm
