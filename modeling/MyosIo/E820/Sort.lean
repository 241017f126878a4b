import Mathlib.Data.List.Sort
import MyosIo.E820.InPlace
import MyosIo.Qsort.Insertion

namespace MyosIo.E820

open Qsort
open Mm (E820Entry)

/-- `blocks_cmp`. -/
def blocksCmp (a b : Block) : ℤ := if a.addr > b.addr then 1 else if a.addr < b.addr then -1 else 0

theorem below_blocksCmp {a b : Block} : Below blocksCmp a b ↔ a.addr ≤ b.addr := by
  unfold Below blocksCmp
  split_ifs <;> omega

theorem consistent_blocksCmp : Consistent blocksCmp where
  total a b h := by
    unfold blocksCmp at h
    rw [below_blocksCmp]
    split_ifs at h <;> omega
  trans a b c h h' := by
    rw [below_blocksCmp] at h h' ⊢
    omega

/-- `trim_e820_entrys`; none when `qsort` does not return. -/
def trimSorting (stack : ℕ → Block) (entrys : List E820Entry) : Option (List E820Entry) :=
  (qsortList blocksCmp (fillBlocks stack (boundaries entrys))).map fun bs =>
    trimE820Entrys (fun _ => bs) stack entrys

/-- A function that sorts every array as `qsort` sorts the one at hand. -/
theorem exists_sorts {bs out : List Block} (hp : out.Perm bs)
    (hs : out.Pairwise fun a b => a.addr ≤ b.addr) : ∃ qsort, Sorts qsort ∧ qsort bs = out := by
  classical
  refine ⟨fun xs => if xs = bs then out else xs.mergeSort fun a b => a.addr ≤ b.addr,
    fun xs => ?_, if_pos rfl⟩
  dsimp only
  split_ifs with h
  · exact h ▸ ⟨hp, hs⟩
  · exact sorts_mergeSort xs

theorem trimSorting_spec (stack : ℕ → Block) {entrys : List E820Entry}
    (hlen : entrys.length < 2 ^ 30) :
    ∃ qsort, Sorts qsort ∧ trimSorting stack entrys = some (trimE820Entrys qsort stack entrys) := by
  have hle := length_boundaries entrys
  obtain ⟨bs, hbs, hperm, hsorted⟩ := qsortList_spec consistent_blocksCmp
    (show (fillBlocks stack (boundaries entrys)).length < 2 ^ 31 by
      rw [← List.length_map Block.addr, fillBlocks_addr]
      omega)
  obtain ⟨qsort, hq, heq⟩ := exists_sorts hperm (hsorted.imp below_blocksCmp.mp)
  refine ⟨qsort, hq, ?_⟩
  rw [trimSorting, hbs]
  unfold trimE820Entrys
  rw [heq]
  rfl

/-- With its own `qsort`, `trim_e820_entrys` returns the map as disjoint maximal ranges, whatever
the stack holds. -/
theorem trim_returns (stack : ℕ → Block) {entrys : List E820Entry} (hlen : entrys.length < 2 ^ 30)
    (h : Reported entrys) :
    ∃ outs, trimSorting stack entrys = some outs ∧ Trimmed entrys outs := by
  obtain ⟨qsort, hq, heq⟩ := trimSorting_spec stack hlen
  exact ⟨_, heq, trimmed_trim hq stack h⟩

/-- Two overlapping entries of different types. -/
theorem trim_returns_sample :
    ∃ outs, trimSorting (fun _ => ⟨0, 0, 0, true⟩) [⟨0x1000, 0x1000, 3, 1⟩, ⟨0, 0x1800, 1, 1⟩] =
        some outs ∧ Trimmed [⟨0x1000, 0x1000, 3, 1⟩, ⟨0, 0x1800, 1, 1⟩] outs :=
  trim_returns _ (by decide) (by simp [Reported])

end MyosIo.E820
