import Mathlib.Logic.Function.Basic
import Mathlib.Data.List.Nodup
import Mathlib.Tactic.Tauto

/-! An agent publishes a node by exchanging it into the tail pointer and only then stores the link
from the previous tail. Between the two the queue is broken at that link, and the agent owes the
store. `Chain` describes such a queue from a head cell on; nothing here depends on what the cells
or the nodes are. -/
namespace MyosIo

open Function

/-- How a queue is linked: `cell n` is the word inside node `n` that holds its successor. -/
structure Links (C N V : Type*) where
  null : V
  ptr : N → V
  cell : N → C
  ptr_ne_null : ∀ n, ptr n ≠ null
  ptr_injective : Injective ptr
  cell_injective : Injective cell

namespace Links

variable {C N V A : Type*} (L : Links C N V)
  {mem mem' : C → V} {pend pend' : C → Option (A × N)} {c d : C} {n m : N} {q : List N} {a : A}

/-- The links from cell `c` through the nodes `q`: each is stored, or owed by one agent. -/
def Chain (mem : C → V) (pend : C → Option (A × N)) : C → List N → Prop
  | c, [] => mem c = L.null ∧ pend c = none
  | c, n :: q => ((mem c = L.ptr n ∧ pend c = none) ∨
      (mem c = L.null ∧ ∃ a, pend c = some (a, n))) ∧ Chain mem pend (L.cell n) q

/-- The links from cell `c` through the nodes `q`, all of them stored. -/
def Stored (mem : C → V) : C → List N → Prop
  | c, [] => mem c = L.null
  | c, n :: q => mem c = L.ptr n ∧ Stored mem (L.cell n) q

instance instDecidableStored [DecidableEq V] : ∀ (c : C) (q : List N), Decidable (L.Stored mem c q)
  | c, [] => inferInstanceAs (Decidable (mem c = L.null))
  | c, n :: q =>
    have := instDecidableStored (L.cell n) q
    inferInstanceAs (Decidable (mem c = L.ptr n ∧ L.Stored mem (L.cell n) q))

theorem Chain.stored (h : L.Chain mem pend c q) (hp : ∀ d, pend d = none) : L.Stored mem c q := by
  induction q generalizing c with
  | nil => exact h.1
  | cons n q ih =>
    obtain ⟨⟨hn, -⟩ | ⟨-, a, ha⟩, hq⟩ := h
    · exact ⟨hn, ih hq⟩
    · cases (hp c).symm.trans ha

/-- Memory says which nodes a queue has. -/
theorem Stored.unique {q' : List N} (h : L.Stored mem c q) (h' : L.Stored mem c q') : q = q' := by
  induction q generalizing c q' with
  | nil =>
    cases q' with
    | nil => rfl
    | cons n' q' => cases L.ptr_ne_null n' (h'.1.symm.trans h)
  | cons n q ih =>
    cases q' with
    | nil => cases L.ptr_ne_null n (h.1.symm.trans h')
    | cons n' q' =>
      obtain rfl := L.ptr_injective (h.1.symm.trans h'.1)
      rw [ih h.2 h'.2]

/-- Every cell the chain runs through, the head cell first. -/
def cells (c : C) (q : List N) : List C := c :: q.map L.cell

/-- The cell the next exchange returns: that of the last node, or the head cell. -/
def lastCell : C → List N → C
  | c, [] => c
  | _, n :: q => lastCell (L.cell n) q

@[simp] theorem chain_nil : L.Chain mem pend c [] ↔ mem c = L.null ∧ pend c = none := Iff.rfl

@[simp] theorem lastCell_nil : L.lastCell c [] = c := rfl

@[simp] theorem lastCell_cons : L.lastCell c (n :: q) = L.lastCell (L.cell n) q := rfl

@[simp] theorem lastCell_snoc : L.lastCell c (q ++ [n]) = L.cell n := by
  induction q generalizing c with
  | nil => rfl
  | cons m q ih => exact ih

theorem mem_cells : d ∈ L.cells c q ↔ d = c ∨ ∃ n ∈ q, L.cell n = d := by
  simp [cells]

theorem cell_mem_cells : L.cell n ∈ L.cells c q ↔ L.cell n = c ∨ n ∈ q := by
  simp [cells, L.cell_injective.eq_iff]

theorem cells_nodup_iff : (L.cells c q).Nodup ↔ (∀ n ∈ q, L.cell n ≠ c) ∧ q.Nodup := by
  simp [cells, List.nodup_cons, List.nodup_map_iff L.cell_injective]

theorem cells_nodup_tail (h : (L.cells c (n :: q)).Nodup) : (L.cells (L.cell n) q).Nodup := by
  simpa [cells] using (List.nodup_cons.mp h).2

theorem cells_nodup_snoc (h : (L.cells c q).Nodup) (hn : L.cell n ∉ L.cells c q) :
    (L.cells c (q ++ [n])).Nodup := by
  rw [cell_mem_cells] at hn
  rw [cells_nodup_iff] at h ⊢
  refine ⟨?_, ?_⟩
  · intro x hx
    rcases List.mem_append.mp hx with hx | hx
    · exact h.1 x hx
    · rw [List.mem_singleton.mp hx]
      exact fun hc => hn (Or.inl hc)
  · exact h.2.append (List.nodup_singleton n)
      (List.disjoint_singleton.mpr fun hx => hn (Or.inr hx))

theorem lastCell_mem_cells : L.lastCell c q ∈ L.cells c q := by
  induction q generalizing c with
  | nil => simp [cells]
  | cons n q ih => exact List.mem_cons_of_mem _ (by simpa [cells] using @ih (L.cell n))

/-- In a chain without repetition only the empty one ends in its head cell. -/
theorem lastCell_eq_head (h : (L.cells c q).Nodup) : L.lastCell c q = c ↔ q = [] := by
  cases q with
  | nil => simp
  | cons n q =>
    have hc : c ∉ L.cells (L.cell n) q := by simpa [cells] using (List.nodup_cons.mp h).1
    simp only [lastCell_cons, reduceCtorEq, iff_false]
    exact fun he => hc (he ▸ L.lastCell_mem_cells)

theorem lastCell_eq_cell (h : q ≠ []) : ∃ n ∈ q, L.lastCell c q = L.cell n := by
  induction q generalizing c with
  | nil => exact absurd rfl h
  | cons m q ih =>
    by_cases hq : q = []
    · exact ⟨m, by simp, by simp [hq]⟩
    · obtain ⟨n, hn, he⟩ := @ih (L.cell m) hq
      exact ⟨n, List.mem_cons_of_mem m hn, he⟩

theorem chain_congr (h : L.Chain mem pend c q)
    (he : ∀ d ∈ L.cells c q, mem' d = mem d ∧ pend' d = pend d) : L.Chain mem' pend' c q := by
  induction q generalizing c with
  | nil =>
    obtain ⟨hm, hp⟩ := he c (by simp [cells])
    simpa [hm, hp] using h
  | cons n q ih =>
    obtain ⟨hm, hp⟩ := he c (by simp [cells])
    refine ⟨by simpa [hm, hp] using h.1, ih h.2 fun d hd => he d ?_⟩
    exact List.mem_cons_of_mem c (by simpa [cells] using hd)

/-- The tail of a chain has no successor, and nobody owes it one. -/
theorem chain_last (h : L.Chain mem pend c q) :
    mem (L.lastCell c q) = L.null ∧ pend (L.lastCell c q) = none := by
  induction q generalizing c with
  | nil => exact h
  | cons n q ih => exact ih h.2

/-- A non-null head cell holds the first node. -/
theorem chain_head (h : L.Chain mem pend c q) (hm : mem c = L.ptr n) :
    ∃ q', q = n :: q' ∧ pend c = none := by
  cases q with
  | nil => exact absurd (hm.symm.trans h.1) (L.ptr_ne_null n)
  | cons m q =>
    rcases h.1 with ⟨hc, hp⟩ | ⟨hc, _⟩
    · exact ⟨q, by rw [L.ptr_injective (hc.symm.trans hm)], hp⟩
    · exact absurd (hm.symm.trans hc) (L.ptr_ne_null n)

theorem chain_value (h : L.Chain mem pend c q) (hm : mem c ≠ L.null) :
    ∃ n q', q = n :: q' ∧ mem c = L.ptr n := by
  cases q with
  | nil => exact absurd h.1 hm
  | cons n q =>
    rcases h.1 with ⟨hc, _⟩ | ⟨hc, _⟩
    · exact ⟨n, q, rfl, hc⟩
    · exact absurd hc hm

/-- A null head cell before a non-empty rest is a store some agent still owes. -/
theorem chain_owed (h : L.Chain mem pend c q) (hq : q ≠ []) (hm : mem c = L.null) :
    ∃ a n, pend c = some (a, n) := by
  cases q with
  | nil => exact absurd rfl hq
  | cons n q =>
    rcases h.1 with ⟨hc, _⟩ | ⟨_, a, ha⟩
    · exact absurd (hc.symm.trans hm) (L.ptr_ne_null n)
    · exact ⟨a, n, ha⟩

theorem chain_mem_of_owed (h : L.Chain mem pend c q) (hd : d ∈ L.cells c q)
    (hp : pend d = some (a, n)) : n ∈ q := by
  induction q generalizing c with
  | nil =>
    have : d = c := by simpa [cells] using hd
    subst this
    simp [h.2] at hp
  | cons m q ih =>
    rcases List.mem_cons.mp hd with rfl | hd
    · rcases h.1 with ⟨_, hn⟩ | ⟨_, b, hb⟩
      · simp [hn] at hp
      · have : (b, m) = (a, n) := by simpa [hb] using hp
        simp_all
    · exact List.mem_cons_of_mem m (ih h.2 (by simpa [cells] using hd))

/-- A cell whose link is owed is still null. -/
theorem chain_null_of_owed (h : L.Chain mem pend c q) (hd : d ∈ L.cells c q)
    (hp : pend d ≠ none) : mem d = L.null := by
  induction q generalizing c with
  | nil =>
    obtain rfl : d = c := by simpa [cells] using hd
    exact h.1
  | cons m q ih =>
    rcases List.mem_cons.mp hd with rfl | hd
    · rcases h.1 with ⟨_, hn⟩ | ⟨hm, _⟩
      · exact absurd hn hp
      · exact hm
    · exact ih h.2 (by simpa [cells] using hd)

/-- Between two neighbours the link is stored or owed. -/
theorem chain_between {x y : N} {l r : List N} (h : L.Chain mem pend (L.cell n) q)
    (he : n :: q = l ++ x :: y :: r) : mem (L.cell x) = L.ptr y ∨
      (mem (L.cell x) = L.null ∧ ∃ a, pend (L.cell x) = some (a, y)) := by
  induction l generalizing n q with
  | nil =>
    obtain ⟨rfl, rfl⟩ : n = x ∧ q = y :: r := by simpa using he
    exact h.1.imp_left And.left
  | cons m l ih =>
    obtain ⟨rfl, hq⟩ : n = m ∧ q = l ++ x :: y :: r := by simpa using he
    cases q with
    | nil => simp at hq
    | cons z q => exact ih h.2 hq

section Update

variable [DecidableEq C]

/-- A write outside the chain leaves it alone. -/
theorem chain_write (h : L.Chain mem pend c q) (hd : d ∉ L.cells c q) (v : V) :
    L.Chain (update mem d v) pend c q :=
  L.chain_congr h fun e he =>
    ⟨update_of_ne (fun hed => hd (by rwa [← hed])) _ _, rfl⟩

/-- The exchange: the new node is last, and its link is owed. -/
theorem chain_enqueue (h : L.Chain mem pend c q) (hnd : (L.cells c q).Nodup)
    (hn : L.cell n ∉ L.cells c q) (hm : mem (L.cell n) = L.null)
    (hp : pend (L.cell n) = none) (a : A) :
    L.Chain mem (update pend (L.lastCell c q) (some (a, n))) c (q ++ [n]) := by
  induction q generalizing c with
  | nil =>
    have hne : L.cell n ≠ c := fun he => hn (by simp [cells, he])
    refine ⟨Or.inr ⟨h.1, a, by simp⟩, hm, ?_⟩
    simpa [update_of_ne hne] using hp
  | cons m q ih =>
    have hc : c ∉ L.cells (L.cell m) q := by simpa [cells] using (List.nodup_cons.mp hnd).1
    have hne : c ≠ L.lastCell (L.cell m) q := fun he => hc (he ▸ L.lastCell_mem_cells)
    refine ⟨by simpa [update_of_ne hne] using h.1, ?_⟩
    refine ih h.2 (L.cells_nodup_tail hnd) fun hx => hn (List.mem_cons_of_mem c ?_)
    simpa [cells] using hx

/-- Paying an owed link. Cells outside the chain may be paid as well. -/
theorem chain_link (h : L.Chain mem pend c q) (hp : pend d = some (a, n)) :
    L.Chain (update mem d (L.ptr n)) (update pend d none) c q := by
  induction q generalizing c with
  | nil =>
    have hne : c ≠ d := fun he => by simp [← he, h.2] at hp
    simpa [update_of_ne hne] using h
  | cons m q ih =>
    refine ⟨?_, ih h.2⟩
    by_cases hc : c = d
    · subst hc
      rcases h.1 with ⟨_, hn⟩ | ⟨_, b, hb⟩
      · simp [hn] at hp
      · have : (b, m) = (a, n) := by simpa [hb] using hp
        simp_all
    · simpa [update_of_ne hc] using h.1

/-- Copying the first link of one head cell into another one. -/
theorem chain_retarget (h : L.Chain mem pend c (n :: q))
    (hd : d ∉ L.cells c (n :: q)) (hp : pend d = none) :
    L.Chain (update mem d (L.ptr n)) pend d (n :: q) := by
  refine ⟨Or.inl ⟨by simp, hp⟩, ?_⟩
  exact L.chain_write h.2 (fun hx => hd (List.mem_cons_of_mem c (by simpa [cells] using hx))) _

end Update

variable {Λ : Type*} {place place' : C → Λ} {l l' : Λ}

/-- Several queues may share one memory. `place` assigns every cell to one of them, and a
`Segment` is a chain without repetition that stays inside its own place, so that a step on
another queue cannot disturb it. -/
structure Segment (place : C → Λ) (mem : C → V) (pend : C → Option (A × N)) (l : Λ) (c : C)
    (q : List N) : Prop where
  chain : L.Chain mem pend c q
  nodup : (L.cells c q).Nodup
  inside : ∀ d ∈ L.cells c q, place d = l

namespace Segment

variable {L}

theorem head_place (s : L.Segment place mem pend l c q) : place c = l :=
  s.inside c (by simp [cells])

theorem node_place (s : L.Segment place mem pend l c q) (hn : n ∈ q) : place (L.cell n) = l :=
  s.inside _ (L.cell_mem_cells.mpr (Or.inr hn))

theorem last_place (s : L.Segment place mem pend l c q) : place (L.lastCell c q) = l :=
  s.inside _ L.lastCell_mem_cells

theorem not_head (s : L.Segment place mem pend l (L.cell m) q) : m ∉ q :=
  fun hm => (L.cells_nodup_iff.mp s.nodup).1 m hm rfl

theorem empty (hm : mem c = L.null) (hp : pend c = none) (hl : place c = l) :
    L.Segment place mem pend l c [] where
  chain := ⟨hm, hp⟩
  nodup := by simp [cells]
  inside d hd := by
    have : d = c := by simpa [cells] using hd
    rwa [this]

theorem tail (s : L.Segment place mem pend l c (n :: q)) :
    L.Segment place mem pend l (L.cell n) q where
  chain := s.chain.2
  nodup := L.cells_nodup_tail s.nodup
  inside d hd := s.inside d (List.mem_cons_of_mem c (by simpa [cells] using hd))

/-- Only changes at cells of the same place can disturb a segment. -/
theorem frame (s : L.Segment place mem pend l c q)
    (hplace : ∀ d, place d = l → place' d = l)
    (he : ∀ d, place d = l → mem' d = mem d ∧ pend' d = pend d) :
    L.Segment place' mem' pend' l c q where
  chain := L.chain_congr s.chain fun d hd => he d (s.inside d hd)
  nodup := s.nodup
  inside d hd := hplace d (s.inside d hd)

variable [DecidableEq C]

/-- A cell that is not in the segment may be given away. -/
theorem move (s : L.Segment place mem pend l c q) (hd : d ∉ L.cells c q) (l' : Λ) :
    L.Segment (update place d l') mem pend l c q where
  chain := s.chain
  nodup := s.nodup
  inside e he := by
    have hne : e ≠ d := fun h => hd (h ▸ he)
    simpa [update_of_ne hne] using s.inside e he

theorem write (s : L.Segment place mem pend l c q) (hd : d ∉ L.cells c q) (v : V) :
    L.Segment place (update mem d v) pend l c q where
  chain := L.chain_write s.chain hd v
  nodup := s.nodup
  inside := s.inside

theorem link (s : L.Segment place mem pend l c q) (hp : pend d = some (a, n)) :
    L.Segment place (update mem d (L.ptr n)) (update pend d none) l c q where
  chain := L.chain_link s.chain hp
  nodup := s.nodup
  inside := s.inside

/-- The exchange takes in a node from another place. -/
theorem enqueue (s : L.Segment place mem pend l c q) (hn : place (L.cell n) ≠ l)
    (hm : mem (L.cell n) = L.null) (hp : pend (L.cell n) = none) (a : A) :
    L.Segment (update place (L.cell n) l) mem
      (update pend (L.lastCell c q) (some (a, n))) l c (q ++ [n]) := by
  have hc : L.cell n ∉ L.cells c q := fun hx => hn (s.inside _ hx)
  refine ⟨L.chain_enqueue s.chain s.nodup hc hm hp a, L.cells_nodup_snoc s.nodup hc, ?_⟩
  intro d hd
  have hd' : d ∈ L.cells c q ∨ d = L.cell n := by simpa [cells, or_assoc] using hd
  rcases hd' with hd' | rfl
  · exact (s.move hc l).inside d hd'
  · simp

/-- The front node is unlinked: its successor is copied to the head cell `d`, and the node
goes to another place. -/
theorem pop (s : L.Segment place mem pend l (L.cell m) (n :: q)) (hl : place d = l)
    (hd : d ∉ L.cells (L.cell m) (n :: q)) (hp : pend d = none) (l' : Λ) :
    L.Segment (update place (L.cell m) l') (update mem d (L.ptr n)) pend l d (n :: q) := by
  obtain ⟨hm, hnd⟩ := List.nodup_cons.mp s.nodup
  have hd' : d ∉ (n :: q).map L.cell := fun hx => hd (List.mem_cons_of_mem _ hx)
  refine move (L := L) ⟨L.chain_retarget s.chain hd hp, ?_, ?_⟩ ?_ l'
  · exact List.nodup_cons.mpr ⟨hd', hnd⟩
  · intro e he
    rcases List.mem_cons.mp he with rfl | he
    · exact hl
    · exact s.inside e (List.mem_cons_of_mem _ he)
  · intro hx
    rcases List.mem_cons.mp hx with hx | hx
    · exact hd (by simp [cells, ← hx])
    · exact hm hx

end Segment

end Links
end MyosIo
