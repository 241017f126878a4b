import Mathlib.Algebra.Group.Int.Defs
import Mathlib.Logic.Function.Basic

/-! A pointer into the array is the index of an element and may leave the array; every element
read or written is checked to be one of its `n`. Differences of pointers count elements: an array
is at most `PTRDIFF_MAX` bytes long, so no difference in bytes wraps. -/
namespace MyosIo.Qsort

open Function

/-- `MAX_THRESH`. -/
def maxThresh : ℤ := 4

/-- `STACK_SIZE`. -/
def stackSize : ℕ := 32

variable {α : Type} (cmp : α → α → ℤ) (n : ℕ)

def Inside (i : ℤ) : Prop := 0 ≤ i ∧ i < n

instance (i : ℤ) : Decidable (Inside n i) := inferInstanceAs (Decidable (_ ∧ _))

/-- `(*cmp) (i, j) < 0`. -/
def less (a : ℤ → α) (i j : ℤ) : Option Bool :=
  if Inside n i ∧ Inside n j then some (cmp (a i) (a j) < 0) else none

/-- `SWAP`. -/
def swap (a : ℤ → α) (i j : ℤ) : Option (ℤ → α) :=
  if Inside n i ∧ Inside n j then some (update (update a i (a j)) j (a i)) else none

/-- `if ((*cmp) (i, j) < 0) SWAP (i, j)`. -/
def swapIfLess (a : ℤ → α) (i j : ℤ) : Option (ℤ → α) := do
  if ← less cmp n a i j then swap n a i j else some a

/-- The three comparisons that sort the elements at `lo`, `mid` and `hi`. -/
def medianOfThree (a : ℤ → α) (lo mid hi : ℤ) : Option (ℤ → α) := do
  let a ← swapIfLess cmp n a mid lo
  if ← less cmp n a hi mid then swapIfLess cmp n (← swap n a mid hi) mid lo else some a

/-- The loop that moves `left_ptr`; after `n` turns it has left the array. -/
def scanLeft (a : ℤ → α) (mid : ℤ) : ℕ → ℤ → Option ℤ
  | 0, _ => none
  | fuel + 1, left => do
    if ← less cmp n a left mid then scanLeft a mid fuel (left + 1) else some left

/-- The loop that moves `right_ptr`. -/
def scanRight (a : ℤ → α) (mid : ℤ) : ℕ → ℤ → Option ℤ
  | 0, _ => none
  | fuel + 1, right => do
    if ← less cmp n a mid right then scanRight a mid fuel (right - 1) else some right

/-- The array, `left_ptr` and `right_ptr` after the loop that collapses the walls. -/
structure Walls (α : Type) where
  array : ℤ → α
  left : ℤ
  right : ℤ

/-- `mid` follows the pivot when it is swapped. -/
def follow (mid left right : ℤ) : ℤ :=
  if mid = left then right else if mid = right then left else mid

def collapseWalls : ℕ → (ℤ → α) → ℤ → ℤ → ℤ → Option (Walls α)
  | 0, _, _, _, _ => none
  | fuel + 1, a, mid, left, right => do
    let left ← scanLeft cmp n a mid (n + 1) left
    let right ← scanRight cmp n a mid (n + 1) right
    if left < right then
      let a ← swap n a left right
      if left + 1 ≤ right - 1 then
        collapseWalls fuel a (follow mid left right) (left + 1) (right - 1)
      else some ⟨a, left + 1, right - 1⟩
    else if left = right then some ⟨a, left + 1, right - 1⟩
    else some ⟨a, left, right⟩

def partition (a : ℤ → α) (lo hi : ℤ) : Option (Walls α) := do
  let mid := lo + (hi - lo) / 2
  collapseWalls cmp n (n + 1) (← medianOfThree cmp n a lo mid hi) mid (lo + 1) (hi - 1)

/-- `(size_t) d <= max_thresh`; a negative difference becomes a large one. -/
def small (d : ℤ) : Bool := 0 ≤ d ∧ d ≤ maxThresh

/-- `PUSH`, with the pair of null pointers below the entries of the list. -/
def push (stack : List (ℤ × ℤ)) (lo hi : ℤ) : Option (List (ℤ × ℤ)) :=
  if stack.length + 1 < stackSize then some ((lo, hi) :: stack) else none

/-- What is left to sort after a partition, the next `lo` and `hi` first. -/
def nextBounds (lo hi left right : ℤ) (stack : List (ℤ × ℤ)) : Option (List (ℤ × ℤ)) :=
  if small (right - lo) then
    if small (hi - left) then some stack else some ((left, hi) :: stack)
  else if small (hi - left) then some ((lo, right) :: stack)
  else if right - lo > hi - left then (push stack lo right).map ((left, hi) :: ·)
  else (push stack left hi).map ((lo, right) :: ·)

/-- The loop over the stack. It ends when the null pointers are popped. -/
def quick : ℕ → (ℤ → α) → List (ℤ × ℤ) → Option (ℤ → α)
  | _, a, [] => some a
  | 0, _, _ :: _ => none
  | fuel + 1, a, (lo, hi) :: stack => do
    let w ← partition cmp n a lo hi
    quick fuel w.array (← nextBounds lo hi w.left w.right stack)

/-- The loop for the smallest element of the first threshold. -/
def smallest (a : ℤ → α) (thresh : ℤ) : ℕ → ℤ → ℤ → Option ℤ
  | 0, _, _ => none
  | fuel + 1, run, tmp =>
    if run ≤ thresh then do
      smallest a thresh fuel (run + 1) (if ← less cmp n a run tmp then run else tmp)
    else some tmp

/-- The smallest element is put at the beginning of the array. -/
def moveFirst (a : ℤ → α) (tmp : ℤ) : Option (ℤ → α) :=
  if tmp ≠ 0 then swap n a tmp 0 else some a

/-- The inner loop of the insertion sort. -/
def findPlace (a : ℤ → α) (run tmp : ℤ) : Option ℤ := scanRight cmp n a run (n + 1) tmp

/-- The loop that moves `k` elements up, from `hi` downwards, and puts `c` below them. -/
def shift (c : α) : ℕ → (ℤ → α) → ℤ → (ℤ → α)
  | 0, a, hi => update a hi c
  | k + 1, a, hi => shift c k (update a hi (a (hi - 1))) (hi - 1)

/-- The element at `run` is moved down to `tmp`. -/
def rotate (a : ℤ → α) (tmp run : ℤ) : Option (ℤ → α) :=
  if tmp = run then some a
  else if Inside n tmp ∧ Inside n run then some (shift (a run) (run - tmp).toNat a run)
  else none

/-- The insertion sort from the element after `run` on. -/
def insertFrom : ℕ → (ℤ → α) → ℤ → Option (ℤ → α)
  | 0, _, _ => none
  | fuel + 1, a, run =>
    let run := run + 1
    if run ≤ n - 1 then do
      let tmp ← findPlace cmp n a run (run - 1)
      insertFrom fuel (← rotate n a (tmp + 1) run) run
    else some a

def insertionSort (a : ℤ → α) : Option (ℤ → α) := do
  let tmp ← smallest cmp n a (min (n - 1) maxThresh) (n + 1) (0 + 1) 0
  insertFrom cmp n n (← moveFirst n a tmp) (0 + 1)

/-- `qsort` of `n` elements at address 0. -/
def qsort (a : ℤ → α) : Option (ℤ → α) :=
  if n = 0 then some a
  else if n > maxThresh then do insertionSort cmp n (← quick cmp n n a [(0, n - 1)])
  else insertionSort cmp n a

/-- `qsort` of an array that holds the elements of a list. -/
def qsortList : List α → Option (List α)
  | [] => some []
  | x :: xs =>
    (qsort cmp (x :: xs).length fun i => (x :: xs).getD i.toNat x).map fun b =>
      (List.range (x :: xs).length).map fun i : ℕ => b i

end MyosIo.Qsort
