import Mathlib.Algebra.Group.Int.Defs
import Mathlib.Data.List.Nodup
import Mathlib.Data.List.Perm.Basic
import Mathlib.Logic.Equiv.Basic
import Mathlib.Logic.Function.Basic
import Mathlib.Order.Basic

/-! An array is a function on all addresses; a program that only exchanges elements between `lo`
and `hi` leaves a rearrangement of it. -/
namespace MyosIo

open Function

variable {α : Type*} {lo hi lo' hi' i j c : ℤ} {a b d : ℤ → α} {x : α} {p : α → Prop}

/-- `b` has the elements of `a` from `lo` to `hi` in some order, and all others in place. -/
def Rearranged (lo hi : ℤ) (a b : ℤ → α) : Prop :=
  ∃ σ : Equiv.Perm ℤ, (∀ i, ¬ (lo ≤ i ∧ i ≤ hi) → σ i = i) ∧ b = a ∘ σ

namespace Rearranged

theorem refl (lo hi : ℤ) (a : ℤ → α) : Rearranged lo hi a a := ⟨.refl ℤ, fun _ _ => rfl, rfl⟩

theorem trans (h : Rearranged lo hi a b) (h' : Rearranged lo hi b d) : Rearranged lo hi a d := by
  obtain ⟨σ, hσ, rfl⟩ := h
  obtain ⟨τ, hτ, rfl⟩ := h'
  refine ⟨τ.trans σ, fun i hout => ?_, rfl⟩
  rw [Equiv.trans_apply, hτ i hout, hσ i hout]

theorem mono (h : Rearranged lo hi a b) (hlo : lo' ≤ lo) (hhi : hi ≤ hi') :
    Rearranged lo' hi' a b := by
  obtain ⟨σ, hσ, rfl⟩ := h
  exact ⟨σ, fun i hout => hσ i (by omega), rfl⟩

theorem swap (h : lo ≤ i ∧ i ≤ hi) (h' : lo ≤ j ∧ j ≤ hi) :
    Rearranged lo hi a (update (update a i (a j)) j (a i)) := by
  refine ⟨Equiv.swap i j, fun k hk => ?_, funext fun k => ?_⟩
  · refine Equiv.swap_apply_of_ne_of_ne ?_ ?_
    · rintro rfl
      exact hk h
    · rintro rfl
      exact hk h'
  · by_cases hkj : k = j
    · rw [hkj, update_self, comp_apply, Equiv.swap_apply_right]
    by_cases hki : k = i
    · rw [update_of_ne hkj, hki, update_self, comp_apply, Equiv.swap_apply_left]
    · rw [update_of_ne hkj, update_of_ne hki, comp_apply,
        Equiv.swap_apply_of_ne_of_ne hki hkj]

theorem outside (h : Rearranged lo hi a b) (hout : ¬ (lo ≤ i ∧ i ≤ hi)) : b i = a i := by
  obtain ⟨σ, hσ, rfl⟩ := h
  rw [comp_apply, hσ i hout]

/-- Every element inside comes from inside. -/
theorem source (h : Rearranged lo hi a b) (hin : lo ≤ i ∧ i ≤ hi) :
    ∃ k, (lo ≤ k ∧ k ≤ hi) ∧ b i = a k := by
  obtain ⟨σ, hσ, rfl⟩ := h
  refine ⟨σ i, ?_, rfl⟩
  by_contra hk
  have hfix : σ i = i := σ.injective (hσ (σ i) hk)
  rw [hfix] at hk
  exact hk hin

theorem forall_of (h : Rearranged lo hi a b) (ha : ∀ k, lo ≤ k → k ≤ hi → p (a k))
    (h₁ : lo ≤ i) (h₂ : i ≤ hi) : p (b i) := by
  obtain ⟨k, hk, hb⟩ := h.source ⟨h₁, h₂⟩
  rw [hb]
  exact ha k hk.1 hk.2

/-- The same elements as a list. -/
theorem perm {n : ℕ} (h : Rearranged 0 (n - 1) a b) :
    ((List.range n).map fun i : ℕ => b i).Perm ((List.range n).map fun i : ℕ => a i) := by
  obtain ⟨σ, hσ, rfl⟩ := h
  let cells : List ℤ := (List.range n).map fun i : ℕ => (i : ℤ)
  have hmem (i : ℤ) : i ∈ cells ↔ 0 ≤ i ∧ i < n := by
    rw [List.mem_map]
    constructor
    · rintro ⟨k, hk, rfl⟩
      rw [List.mem_range] at hk
      omega
    · exact fun h => ⟨i.toNat, List.mem_range.mpr (by omega), by omega⟩
  have hnodup : cells.Nodup := List.Nodup.map (fun _ _ h => Int.ofNat.inj h) List.nodup_range
  have hin (i : ℤ) : σ i ∈ cells ↔ i ∈ cells := by
    by_cases hi : i ∈ cells
    · refine iff_of_true ?_ hi
      by_contra hout
      have hfix : σ (σ i) = σ i := hσ _ fun h => hout ((hmem _).mpr (by omega))
      exact hout ((σ.injective hfix).symm ▸ hi)
    · rw [hσ i fun h => hi ((hmem _).mpr (by omega))]
  have hperm : (cells.map σ).Perm cells := by
    refine (List.perm_ext_iff_of_nodup (List.Nodup.map σ.injective hnodup) hnodup).mpr fun i => ?_
    rw [List.mem_map]
    constructor
    · rintro ⟨k, hk, rfl⟩
      exact (hin k).mpr hk
    · intro hi
      exact ⟨σ.symm i, (hin _).mp (by rwa [σ.apply_symm_apply]), σ.apply_symm_apply i⟩
  simpa [cells, comp_def] using hperm.map a

end Rearranged
end MyosIo
