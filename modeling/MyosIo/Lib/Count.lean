import Mathlib.Algebra.BigOperators.Group.Finset.Piecewise
import Mathlib.Algebra.Order.BigOperators.Group.Finset
import Mathlib.Data.Fintype.Basic

/-! A shared counter that several agents update in several instructions differs from what it
counts by what each agent still owes it, and that depends on where the agent is. -/
namespace MyosIo

open Function

variable {A σ : Type*} [Fintype A]

/-- What all agents owe together. -/
def total (f : σ → ℕ) (pc : A → σ) : ℕ := ∑ a, f (pc a)

variable {f g : σ → ℕ} {pc : A → σ} {a : A} {p : σ}

theorem le_total (f : σ → ℕ) (pc : A → σ) (a : A) : f (pc a) ≤ total f pc :=
  Finset.single_le_sum (f := fun a => f (pc a)) (fun _ _ => Nat.zero_le _) (Finset.mem_univ a)

theorem total_mono (h : ∀ a, f (pc a) ≤ g (pc a)) : total f pc ≤ total g pc :=
  Finset.sum_le_sum fun a _ => h a

theorem total_eq_zero (h : ∀ a, f (pc a) = 0) : total f pc = 0 := Finset.sum_eq_zero fun a _ => h a

/-- A debt of one counts the agents that have it. -/
theorem total_eq_card (q : A → Prop) [DecidablePred q] (h : ∀ a, f (pc a) = if q a then 1 else 0) :
    total f pc = (Finset.univ.filter q).card := by
  rw [Finset.card_filter]
  exact Finset.sum_congr rfl fun a _ => h a

theorem total_update [DecidableEq A] (f : σ → ℕ) (pc : A → σ) (a : A) (p : σ) :
    total f (update pc a p) + f (pc a) = total f pc + f p := by
  have h (pc' : A → σ) : total f pc' = f (pc' a) + ∑ b ∈ Finset.univ.erase a, f (pc' b) :=
    (Finset.add_sum_erase _ (fun b => f (pc' b)) (Finset.mem_univ a)).symm
  have hrest : ∑ b ∈ Finset.univ.erase a, f (update pc a p b) =
      ∑ b ∈ Finset.univ.erase a, f (pc b) := by
    refine Finset.sum_congr rfl fun b hb => ?_
    rw [update_of_ne (Finset.ne_of_mem_erase hb)]
  rw [h, h pc, hrest, update_self]
  omega

end MyosIo
