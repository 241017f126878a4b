import Mathlib.Algebra.Order.Ring.Int
import Mathlib.Tactic.Ring
import MyosIo.Qsort.Walls

/-! The ranges that are still to be sorted are fenced off from the rest of the array, and each is
at most half as long as the range it was split from, so the stack never fills. -/
namespace MyosIo.Qsort

variable {α : Type} {cmp : α → α → ℤ} {n size : ℕ} {a b : ℤ → α} {lo hi : ℤ} {w : Walls α}
  {range : ℤ × ℤ} {stack todo todo' : List (ℤ × ℤ)}

/-- The elements of a range are in their final place, up to their order among themselves. -/
structure Fenced (cmp : α → α → ℤ) (n : ℕ) (a : ℤ → α) (range : ℤ × ℤ) : Prop where
  low : 0 ≤ range.1
  ordered : range.1 ≤ range.2
  high : range.2 < n
  before : ∀ i k, 0 ≤ i → i < range.1 → range.1 ≤ k → k ≤ range.2 → Below cmp (a i) (a k)
  after : ∀ k j, range.1 ≤ k → k ≤ range.2 → range.2 < j → j < n → Below cmp (a k) (a j)

def Apart (r r' : ℤ × ℤ) : Prop := r.2 < r'.1 ∨ r'.2 < r.1

/-- Two elements out of order are close to each other, or both are in one range. -/
structure Pending (cmp : α → α → ℤ) (n : ℕ) (todo : List (ℤ × ℤ)) (a : ℤ → α) : Prop where
  fenced : ∀ r ∈ todo, Fenced cmp n a r
  apart : todo.Pairwise Apart
  rough : ∀ i j, 0 ≤ i → i + maxThresh < j → j < n →
    Below cmp (a i) (a j) ∨ ∃ r ∈ todo, r.1 ≤ i ∧ j ≤ r.2

/-- An array that the quicksort phase leaves. -/
def Rough (cmp : α → α → ℤ) (n : ℕ) (a : ℤ → α) : Prop :=
  ∀ i j, 0 ≤ i → i + maxThresh < j → j < n → Below cmp (a i) (a j)

namespace Pending

theorem start (h : n > maxThresh) : Pending cmp n [(0, n - 1)] a where
  fenced r hr := by
    obtain rfl := List.mem_singleton.mp hr
    unfold maxThresh at h
    exact ⟨Int.le_refl 0, by dsimp only; omega, by dsimp only; omega,
      fun i k h₁ h₂ _ _ => by dsimp only at h₂; omega,
      fun k j _ _ h₁ h₂ => by dsimp only at h₁; omega⟩
  apart := List.pairwise_singleton _ _
  rough i j h₁ h₂ h₃ := .inr ⟨_, List.mem_singleton.mpr rfl, h₁, by dsimp only; omega⟩

theorem finish (h : Pending cmp n [] a) : Rough cmp n a := by
  intro i j h₁ h₂ h₃
  obtain hle | ⟨r, hr, -⟩ := h.rough i j h₁ h₂ h₃
  · exact hle
  · cases hr

theorem perm (h : Pending cmp n todo a) (hp : todo.Perm todo') : Pending cmp n todo' a where
  fenced r hr := h.fenced r (hp.mem_iff.mpr hr)
  apart := (hp.pairwise_iff fun {_ _} hr => Or.symm hr).mp h.apart
  rough i j h₁ h₂ h₃ := by
    obtain hle | ⟨r, hr, hij⟩ := h.rough i j h₁ h₂ h₃
    · exact .inl hle
    · exact .inr ⟨r, hp.mem_iff.mp hr, hij⟩

/-- A short range needs no more work in this phase. -/
theorem drop (h : Pending cmp n (range :: todo) a) (hs : range.2 ≤ range.1 + maxThresh) :
    Pending cmp n todo a where
  fenced r hr := h.fenced r (List.mem_cons_of_mem _ hr)
  apart := (List.pairwise_cons.mp h.apart).2
  rough i j h₁ h₂ h₃ := by
    obtain hle | ⟨r, hr, hi, hj⟩ := h.rough i j h₁ h₂ h₃
    · exact .inl hle
    · obtain rfl | hr := List.mem_cons.mp hr
      · omega
      · exact .inr ⟨r, hr, hi, hj⟩

end Pending

/-- Rearranging one range keeps the order between it and what is outside. -/
theorem Fenced.rearranged (h : Fenced cmp n a range) (hab : Rearranged lo hi a b)
    (hap : range = (lo, hi) ∨ Apart (lo, hi) range) (hlo : 0 ≤ lo) (hhi : hi < n) :
    Fenced cmp n b range := by
  obtain ⟨h₁, h₂, h₃, hbefore, hafter⟩ := h
  have hside : range = (lo, hi) ∨ hi < range.1 ∨ range.2 < lo := hap
  refine ⟨h₁, h₂, h₃, fun i k hi₁ hi₂ hk₁ hk₂ => ?_, fun k j hk₁ hk₂ hj₁ hj₂ => ?_⟩
  · obtain rfl | hside | hside := hside
    · rw [hab.outside fun hin => by dsimp only at hi₂; omega]
      exact hab.forall_of (p := fun x => Below cmp (a i) x)
        (fun k h₁ h₂ => hbefore i k hi₁ hi₂ h₁ h₂) hk₁ hk₂
    · rw [hab.outside fun hin : lo ≤ k ∧ k ≤ hi => by omega]
      by_cases hin : lo ≤ i ∧ i ≤ hi
      · exact hab.forall_of (p := fun x => Below cmp x (a k))
          (fun i h₁ h₂ => hbefore i k (by omega) (by omega) hk₁ hk₂) hin.1 hin.2
      · rw [hab.outside hin]
        exact hbefore i k hi₁ hi₂ hk₁ hk₂
    · rw [hab.outside fun hin : lo ≤ k ∧ k ≤ hi => by omega,
        hab.outside fun hin : lo ≤ i ∧ i ≤ hi => by omega]
      exact hbefore i k hi₁ hi₂ hk₁ hk₂
  · obtain rfl | hside | hside := hside
    · rw [hab.outside fun hin : lo ≤ j ∧ j ≤ hi => by dsimp only at hj₁; omega]
      exact hab.forall_of (p := fun x => Below cmp x (a j))
        (fun k h₁ h₂ => hafter k j h₁ h₂ hj₁ hj₂) hk₁ hk₂
    · rw [hab.outside fun hin : lo ≤ k ∧ k ≤ hi => by omega,
        hab.outside fun hin : lo ≤ j ∧ j ≤ hi => by omega]
      exact hafter k j hk₁ hk₂ hj₁ hj₂
    · rw [hab.outside fun hin : lo ≤ k ∧ k ≤ hi => by omega]
      by_cases hin : lo ≤ j ∧ j ≤ hi
      · exact hab.forall_of (p := fun x => Below cmp (a k) x)
          (fun j h₁ h₂ => hafter k j hk₁ hk₂ (by omega) (by omega)) hin.1 hin.2
      · rw [hab.outside hin]
        exact hafter k j hk₁ hk₂ hj₁ hj₂

/-- The elements on the two sides of a partition are in order. -/
theorem Parted.across (hc : Consistent cmp) (h : Parted cmp lo hi a w) {i j : ℤ} (h₁ : lo ≤ i)
    (h₂ : i < w.left) (h₃ : w.right < j) (h₄ : j ≤ hi) : Below cmp (w.array i) (w.array j) := by
  obtain ⟨pivot, hw⟩ := h.walled
  exact hc.trans _ _ _ (hw.low i h₁ h₂) (hw.high j h₃ h₄)

/-- A partition replaces its range by the two parts. -/
theorem Pending.split (hc : Consistent cmp) (h : Pending cmp n ((lo, hi) :: stack) a)
    (hp : Parted cmp lo hi a w) :
    Pending cmp n ((lo, w.right) :: (w.left, hi) :: stack) w.array := by
  obtain ⟨hlo, hle, hhi, -, -⟩ := h.fenced _ List.mem_cons_self
  dsimp only at hlo hle hhi
  have hcross := hp.crossed
  have hright := hp.right
  have hleft := hp.left
  obtain ⟨hapart, hstack⟩ := List.pairwise_cons.mp h.apart
  have hwhole := (h.fenced _ List.mem_cons_self).rearranged hp.cells (.inl rfl) hlo hhi
  refine ⟨fun r hr => ?_, ?_, fun i j h₁ h₂ h₃ => ?_⟩
  · rcases List.mem_cons.mp hr with rfl | hr
    · refine ⟨hlo, hright, by dsimp only; omega,
        fun i k h₁ h₂ h₃ h₄ => hwhole.before i k h₁ h₂ h₃ (by dsimp only at h₄ ⊢; omega),
        fun k j h₁ h₂ h₃ h₄ => ?_⟩
      dsimp only at h₁ h₂ h₃
      by_cases hj : j ≤ hi
      · exact hp.across hc h₁ (by omega) h₃ hj
      · exact hwhole.after k j h₁ (by dsimp only; omega) (by dsimp only; omega) h₄
    rcases List.mem_cons.mp hr with rfl | hr
    · refine ⟨by dsimp only; omega, hleft, hhi, fun i k h₁ h₂ h₃ h₄ => ?_,
        fun k j h₁ h₂ h₃ h₄ => hwhole.after k j (by dsimp only at h₁ ⊢; omega) h₂ h₃ h₄⟩
      dsimp only at h₂ h₃ h₄
      by_cases hi' : lo ≤ i
      · exact hp.across hc hi' h₂ (by omega) h₄
      · exact hwhole.before i k h₁ (by dsimp only; omega) (by dsimp only; omega) h₄
    · exact (h.fenced r (List.mem_cons_of_mem _ hr)).rearranged hp.cells (.inr (hapart r hr))
        hlo hhi
  · refine List.pairwise_cons.mpr ⟨fun r hr => ?_, List.pairwise_cons.mpr ⟨fun r hr => ?_, hstack⟩⟩
    · rcases List.mem_cons.mp hr with rfl | hr
      · exact .inl hcross
      · have := hapart r hr
        unfold Apart at this ⊢
        dsimp only at this ⊢
        omega
    · have := hapart r hr
      unfold Apart at this ⊢
      dsimp only at this ⊢
      omega
  · by_cases hi' : lo ≤ i ∧ i ≤ hi
    · by_cases hj : j ≤ hi
      · by_cases hside : j ≤ w.right
        · exact .inr ⟨_, List.mem_cons_self, hi'.1, hside⟩
        by_cases hside' : w.left ≤ i
        · exact .inr ⟨_, List.mem_cons_of_mem _ List.mem_cons_self, hside', hj⟩
        · exact .inl (hp.across hc hi'.1 (by omega) (by omega) hj)
      · exact .inl (hwhole.after i j hi'.1 hi'.2 (by dsimp only; omega) h₃)
    by_cases hj : lo ≤ j ∧ j ≤ hi
    · have : i < lo := by
        unfold maxThresh at h₂
        omega
      exact .inl (hwhole.before i j h₁ this hj.1 hj.2)
    · rw [hp.cells.outside hi', hp.cells.outside hj]
      obtain hle | ⟨r, hr, hri, hrj⟩ := h.rough i j h₁ h₂ h₃
      · exact .inl hle
      · rcases List.mem_cons.mp hr with rfl | hr
        · unfold maxThresh at h₂
          dsimp only at hri hrj
          omega
        · exact .inr ⟨r, List.mem_cons_of_mem _ (List.mem_cons_of_mem _ hr), hri, hrj⟩

/-- The length of a range halves with each entry above it. -/
def Shallow (size : ℕ) : List (ℤ × ℤ) → Prop
  | [] => True
  | range :: todo => (range.2 - range.1) * 2 ^ todo.length ≤ size ∧ Shallow size todo

/-- The turns that are left at most. -/
def work (todo : List (ℤ × ℤ)) : ℤ := (todo.map fun range => range.2 - range.1).sum

theorem work_cons : work (range :: todo) = range.2 - range.1 + work todo := rfl

/-- What the loop over the stack keeps. -/
structure Progress (cmp : α → α → ℤ) (n size : ℕ) (todo : List (ℤ × ℤ)) (a : ℤ → α) : Prop where
  pending : Pending cmp n todo a
  large : ∀ r ∈ todo, r.1 + maxThresh ≤ r.2
  shallow : Shallow size todo

theorem push_eq (hs : Shallow size ((lo, hi) :: stack)) (hlarge : lo + maxThresh ≤ hi)
    (hsize : size < 2 ^ 32) (range : ℤ × ℤ) :
    push stack range.1 range.2 = some (range :: stack) := by
  refine if_pos ?_
  unfold stackSize
  by_contra hfull
  have hpow : (2 : ℤ) ^ 31 ≤ 2 ^ stack.length := pow_le_pow_right₀ (by decide) (by omega)
  have hle := hs.1
  have hmul : 4 * (2 : ℤ) ^ 31 ≤ (hi - lo) * 2 ^ stack.length :=
    Int.mul_le_mul (by unfold maxThresh at hlarge; omega) hpow (by decide)
      (by unfold maxThresh at hlarge; omega)
  dsimp only at hle
  omega

/-- The part with which the loop goes on is the shorter one. -/
theorem shallow_halves {lo' hi' : ℤ} (hs : Shallow size ((lo, hi) :: stack)) {range : ℤ × ℤ}
    (h : range.2 - range.1 ≤ hi - lo) (h' : 2 * (hi' - lo') ≤ hi - lo) :
    Shallow size ((lo', hi') :: range :: stack) := by
  have hpos : (0 : ℤ) ≤ 2 ^ stack.length := pow_nonneg (by decide) _
  refine ⟨?_, Int.le_trans (Int.mul_le_mul_of_nonneg_right h hpos) hs.1, hs.2⟩
  calc (hi' - lo') * 2 ^ (stack.length + 1)
      = 2 * (hi' - lo') * 2 ^ stack.length := by ring
    _ ≤ (hi - lo) * 2 ^ stack.length := Int.mul_le_mul_of_nonneg_right h' hpos
    _ ≤ size := hs.1

theorem shallow_shorter (hs : Shallow size ((lo, hi) :: stack))
    (h : range.2 - range.1 ≤ hi - lo) : Shallow size (range :: stack) :=
  ⟨Int.le_trans (Int.mul_le_mul_of_nonneg_right h (pow_nonneg (by decide) _)) hs.1, hs.2⟩

/-- One turn of the loop. -/
theorem Progress.next (hc : Consistent cmp) (h : Progress cmp n size ((lo, hi) :: stack) a)
    (hsize : size < 2 ^ 32) (hp : Parted cmp lo hi a w) :
    ∃ todo, nextBounds lo hi w.left w.right stack = some todo ∧
      Progress cmp n size todo w.array ∧ work todo < work ((lo, hi) :: stack) := by
  have hsplit := h.pending.split hc hp
  have hlarge := h.large _ List.mem_cons_self
  have hrest : ∀ r ∈ stack, r.1 + maxThresh ≤ r.2 := fun r hr =>
    h.large r (List.mem_cons_of_mem _ hr)
  have hcross := hp.crossed
  have hright := hp.right
  have hleft := hp.left
  have hlarge' : maxThresh = 4 := rfl
  dsimp only at hlarge
  have hlarge₂ {r : ℤ × ℤ} (hr : r.1 + maxThresh ≤ r.2) :
      ∀ r' ∈ r :: stack, r'.1 + maxThresh ≤ r'.2 :=
    List.forall_mem_cons.mpr ⟨hr, hrest⟩
  unfold nextBounds small
  simp only [decide_eq_true_eq]
  split_ifs with h₁ h₂ h₂ h₃
  · refine ⟨_, rfl, ⟨(hsplit.drop (by dsimp only; omega)).drop (by dsimp only; omega), hrest,
      h.shallow.2⟩, ?_⟩
    rw [work_cons]
    dsimp only
    omega
  · refine ⟨_, rfl, ⟨hsplit.drop (by dsimp only; omega), hlarge₂ (by dsimp only; omega),
      shallow_shorter h.shallow (by dsimp only; omega)⟩, ?_⟩
    rw [work_cons, work_cons]
    dsimp only
    omega
  · refine ⟨_, rfl, ⟨(hsplit.perm (.swap ..)).drop (by dsimp only; omega),
      hlarge₂ (by dsimp only; omega), shallow_shorter h.shallow (by dsimp only; omega)⟩, ?_⟩
    rw [work_cons, work_cons]
    dsimp only
    omega
  · have hpush := push_eq h.shallow hlarge hsize (lo, w.right)
    refine ⟨_, congrArg (Option.map _) hpush, ⟨hsplit.perm (.swap ..), ?_,
      shallow_halves h.shallow (by dsimp only; omega) (by omega)⟩, ?_⟩
    · exact List.forall_mem_cons.mpr ⟨by dsimp only; omega, hlarge₂ (by dsimp only; omega)⟩
    · rw [work_cons, work_cons, work_cons]
      dsimp only
      omega
  · have hpush := push_eq h.shallow hlarge hsize (w.left, hi)
    refine ⟨_, congrArg (Option.map _) hpush, ⟨hsplit, ?_,
      shallow_halves h.shallow (by dsimp only; omega) (by omega)⟩, ?_⟩
    · exact List.forall_mem_cons.mpr ⟨by dsimp only; omega, hlarge₂ (by dsimp only; omega)⟩
    · rw [work_cons, work_cons, work_cons]
      dsimp only
      omega

theorem work_nonneg (h : ∀ r ∈ todo, r.1 + maxThresh ≤ r.2) : 0 ≤ work todo := by
  induction todo with
  | nil => exact Int.le_refl 0
  | cons r todo ih =>
    obtain ⟨hr, hrest⟩ := List.forall_mem_cons.mp h
    have := ih hrest
    unfold maxThresh at hr
    rw [work_cons]
    omega

/-- The loop ends before the fuel does, and before the stack is full. -/
theorem quick_spec (size : ℕ) (hc : Consistent cmp) (hsize : size < 2 ^ 32) {fuel : ℕ}
    (h : Progress cmp n size todo a) (hf : work todo ≤ fuel) :
    ∃ b, quick cmp n fuel a todo = some b ∧ Rearranged 0 (n - 1) a b ∧ Rough cmp n b := by
  induction fuel generalizing a todo with
  | zero =>
    cases todo with
    | nil => exact ⟨a, by rw [quick], .refl .., h.pending.finish⟩
    | cons r todo =>
      obtain ⟨hr, hrest⟩ := List.forall_mem_cons.mp h.large
      have := work_nonneg hrest
      unfold maxThresh at hr
      rw [work_cons] at hf
      omega
  | succ fuel ih =>
    cases todo with
    | nil => exact ⟨a, by rw [quick], .refl .., h.pending.finish⟩
    | cons r todo =>
      obtain ⟨lo, hi⟩ := r
      have hfence := h.pending.fenced _ List.mem_cons_self
      obtain ⟨w, hw, hparted⟩ := partition_spec (a := a) hc hfence.low hfence.high
        (h.large _ List.mem_cons_self)
      obtain ⟨next, hnext, hprogress, hless⟩ := h.next hc hsize hparted
      obtain ⟨b, hb, hcells, hrough⟩ := ih hprogress (by omega)
      refine ⟨b, ?_, (hparted.cells.mono hfence.low ?_).trans hcells, hrough⟩
      · rw [quick, hw]
        dsimp only [bind, Option.bind]
        rw [hnext]
        exact hb
      · have := hfence.high
        dsimp only at this
        omega

/-- Elements that are more than `MAX_THRESH` places apart are in order after the loop. -/
theorem quick_rough (hc : Consistent cmp) (hn : n < 2 ^ 32) (h : n > maxThresh) :
    ∃ b, quick cmp n n a [(0, n - 1)] = some b ∧ Rearranged 0 (n - 1) a b ∧ Rough cmp n b := by
  have hlarge : maxThresh = 4 := rfl
  refine quick_spec n hc hn ⟨.start h, fun r hr => ?_, ⟨?_, trivial⟩⟩ ?_
  · obtain rfl := List.mem_singleton.mp hr
    dsimp only
    omega
  · rw [List.length_nil, pow_zero, mul_one]
    omega
  · rw [work_cons]
    simp only [work, List.map_nil, List.sum_nil]
    omega

end MyosIo.Qsort
