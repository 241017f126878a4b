import Mathlib.Data.Set.Card
import MyosIo.E820.Correct
import MyosIo.E820.Detect

/-! `bootloader_main` passes `e820_entrys` for both arrays, so a store of the output loop can hit
an entry that is still to be read, and the pieces of overlapping entries can outgrow the array. -/
namespace MyosIo.E820

open Function
open Mm (E820Entry)

/-- An access through `in_entrys` or `out_entrys`. -/
inductive Access
  | loadIn (i : ℕ)
  | loadOut (i : ℕ)
  | storeOut (i : ℕ)
  deriving DecidableEq

/-- The array that both pointers point to, and the accesses to it so far. -/
structure Memory where
  cells : ℕ → E820Entry
  log : List Access

abbrev M := StateM Memory

def loadIn (i : ℕ) : M E820Entry := fun m =>
  (m.cells i, { m with log := m.log ++ [Access.loadIn i] })

def loadOut (i : ℕ) : M E820Entry := fun m =>
  (m.cells i, { m with log := m.log ++ [Access.loadOut i] })

def storeOut (i : ℕ) (f : E820Entry → E820Entry) : M Unit := fun m =>
  ((), { cells := update m.cells i (f (m.cells i)), log := m.log ++ [Access.storeOut i] })

namespace InPlace

/-- The first loop. A turn of a loop loads its entry once; the two numbers are `i` and how many
turns are left. -/
def boundaries : ℕ → ℕ → M (List ℕ)
  | _, 0 => pure []
  | i, rest + 1 => do
    let e ← loadIn i
    let addrs ← boundaries (i + 1) rest
    if e.addr > phyAddrMax then pure addrs
    else if phyAddrMax - e.addr < e.size then pure (e.addr :: addrs)
    else pure (e.addr :: (e.addr + e.size) :: addrs)

/-- The loop at `label_find1`. -/
def compareOthers (b : Block) : ℕ → ℕ → M Block
  | _, 0 => pure b
  | ii, rest + 1 => do
    let e ← loadIn ii
    if covers b.addr e ∧ (b.type ≠ e.type ∨ b.extend ≠ e.extend) then
      pure { b with type := 2, extend := 1 }
    else compareOthers b (ii + 1) rest

def setAttribute (b : Block) : ℕ → ℕ → M Block
  | _, 0 => pure { b with exist := false }
  | ii, rest + 1 => do
    let e ← loadIn ii
    if covers b.addr e then
      compareOthers { b with exist := true, type := e.type, extend := e.extend } (ii + 1) rest
    else setAttribute b (ii + 1) rest

def setAttributesFrom (num : ℕ) : ℕ → List Block → M (List Block)
  | _, [] => pure []
  | prev, b :: bs => do
    let b' ← (if b.addr = prev then pure b else setAttribute b 0 num)
    let bs' ← setAttributesFrom num b.addr bs
    pure (b' :: bs')

def setAttributes (num : ℕ) : List Block → M (List Block)
  | [] => pure []
  | b :: bs => do
    let b' ← setAttribute b 0 num
    let bs' ← setAttributesFrom num b.addr bs
    pure (b' :: bs')

/-- The stores at `label_in2`. -/
def enter (num : ℕ) (b : Block) : M Unit := do
  storeOut num ({ · with addr := b.addr })
  storeOut num ({ · with type := b.type })
  storeOut num ({ · with extend := b.extend })

inductive Place
  | entry
  | hole

/-- The output loop, with what it has to write in the array itself. -/
def output : Place → Block → List Block → ℕ → M ℕ
  | .hole, _, [], num => pure num
  | .hole, cur, next :: rest, num =>
    if next.addr = cur.addr then output .hole cur rest num
    else do
      enter num next
      output .entry next rest num
  | .entry, _, [], num => do
    let o ← loadOut num
    storeOut num ({ · with size := (phyAddrMax - o.addr + 1) % 2 ^ 64 })
    pure (num + 1)
  | .entry, cur, next :: rest, num =>
    if next.addr = cur.addr then output .entry cur rest num
    else if sameAttribute next cur then output .entry next rest num
    else do
      let o ← loadOut num
      storeOut num ({ · with size := next.addr - o.addr })
      if next.exist = false then output .hole next rest (num + 1)
      else do
        enter (num + 1) next
        output .entry next rest (num + 1)

/-- The loop for a first boundary at 0. -/
def superblock : Block → List Block → M ℕ
  | _, [] => do
    storeOut 0 ({ · with size := 0 })
    pure 1
  | cur, next :: rest =>
    if next.addr = cur.addr then superblock cur rest
    else if sameAttribute next cur then superblock next rest
    else do
      let o ← loadOut 0
      storeOut 0 ({ · with size := next.addr - o.addr })
      if next.exist = false then output .hole next rest 1
      else do
        enter 1 next
        output .entry next rest 1

/-- `trim_e820_entrys` up to the first store. -/
def sortedBlocks (qsort : List Block → List Block) (stack : ℕ → Block) (num : ℕ) :
    M (List Block) := do
  let addrs ← boundaries 0 num
  setAttributes num (qsort (fillBlocks stack addrs))

/-- `trim_e820_entrys` from the first store on. -/
def writeBlocks : List Block → M ℕ
  | [] => pure 0
  | b :: bs =>
    if b.addr ≠ 0 then do
      enter 0 b
      output .entry b bs 0
    else do
      storeOut 0 ({ · with addr := 0 })
      storeOut 0 ({ · with type := b.type })
      storeOut 0 ({ · with extend := b.extend })
      superblock b bs

/-- `trim_e820_entrys` with `in_entrys == out_entrys`. -/
def trimE820Entrys (qsort : List Block → List Block) (stack : ℕ → Block) (num : ℕ) : M ℕ := do
  let blocks ← sortedBlocks qsort stack num
  writeBlocks blocks

end InPlace

variable {α β : Type} {cells : ℕ → E820Entry} {num : ℕ}

/-- All that happens is that entries are loaded, and the result depends on them only. -/
def Reads (cells : ℕ → E820Entry) (num : ℕ) (x : M α) (a : α) : Prop :=
  ∀ m : Memory, m.cells = cells → ∃ log, (∀ c ∈ log, ∃ i < num, c = .loadIn i) ∧
    x m = (a, { m with log := m.log ++ log })

theorem Reads.pure (a : α) : Reads cells num (pure a) a :=
  fun m _ => ⟨[], by simp, by rw [List.append_nil]; rfl⟩

theorem Reads.loadIn {i : ℕ} (hi : i < num) : Reads cells num (loadIn i) (cells i) := by
  rintro m rfl
  exact ⟨[.loadIn i], by simp [hi], rfl⟩

theorem Reads.bind {x : M α} {f : α → M β} {a : α} {b : β} (hx : Reads cells num x a)
    (hf : Reads cells num (f a) b) : Reads cells num (x >>= f) b := by
  intro m hm
  obtain ⟨log, hlog, hrun⟩ := hx m hm
  obtain ⟨log', hlog', hrun'⟩ := hf { m with log := m.log ++ log } hm
  refine ⟨log ++ log', ?_, ?_⟩
  · intro c hc
    obtain hc | hc := List.mem_append.mp hc
    · exact hlog c hc
    · exact hlog' c hc
  · change (let p := x m; f p.1 p.2) = _
    rw [hrun]
    dsimp only
    rw [hrun', List.append_assoc]

/-- The entries of the turns that are left. -/
def entrysFrom (cells : ℕ → E820Entry) (i rest : ℕ) : List E820Entry :=
  (List.range' i rest).map cells

@[simp] theorem entrysFrom_zero (i : ℕ) : entrysFrom cells i 0 = [] := rfl

@[simp] theorem entrysFrom_succ (i rest : ℕ) :
    entrysFrom cells i (rest + 1) = cells i :: entrysFrom cells (i + 1) rest := rfl

theorem entrysFrom_all : entrysFrom cells 0 num = (List.range num).map cells := by
  rw [entrysFrom, ← List.range_eq_range']

theorem boundaries_reads {i rest : ℕ} (h : i + rest = num) :
    Reads cells num (InPlace.boundaries i rest) (boundaries (entrysFrom cells i rest)) := by
  induction rest generalizing i with
  | zero => exact Reads.pure []
  | succ rest ih =>
    rw [InPlace.boundaries, entrysFrom_succ, boundaries]
    refine (Reads.loadIn (by omega)).bind ((ih (by omega)).bind ?_)
    split
    · exact Reads.pure _
    · split
      · exact Reads.pure _
      · exact Reads.pure _

theorem compareOthers_reads (b : Block) {ii rest : ℕ} (h : ii + rest = num) :
    Reads cells num (InPlace.compareOthers b ii rest)
      (if (entrysFrom cells ii rest).any fun e =>
          covers b.addr e ∧ (b.type ≠ e.type ∨ b.extend ≠ e.extend) then
        { b with type := 2, extend := 1 }
      else b) := by
  induction rest generalizing ii with
  | zero => exact Reads.pure b
  | succ rest ih =>
    rw [InPlace.compareOthers, entrysFrom_succ, List.any_cons]
    refine (Reads.loadIn (by omega)).bind ?_
    by_cases hd : covers b.addr (cells ii) ∧
        (b.type ≠ (cells ii).type ∨ b.extend ≠ (cells ii).extend)
    · rw [if_pos hd, decide_eq_true hd, Bool.true_or, if_pos rfl]
      exact Reads.pure _
    · rw [if_neg hd, decide_eq_false hd, Bool.false_or]
      exact ih (by omega)

theorem setAttribute_reads (b : Block) {ii rest : ℕ} (h : ii + rest = num) :
    Reads cells num (InPlace.setAttribute b ii rest)
      (setAttribute (entrysFrom cells ii rest) b) := by
  induction rest generalizing ii with
  | zero => exact Reads.pure _
  | succ rest ih =>
    rw [InPlace.setAttribute, entrysFrom_succ]
    refine (Reads.loadIn (by omega)).bind ?_
    by_cases hc : covers b.addr (cells ii)
    · rw [if_pos hc]
      have : Reads cells num (InPlace.compareOthers _ (ii + 1) rest) _ := compareOthers_reads
        { b with exist := true, type := (cells ii).type, extend := (cells ii).extend } (by omega)
      simpa only [setAttribute, List.dropWhile_cons, hc, Bool.not_true, Bool.false_eq_true,
        if_false] using this
    · rw [if_neg hc]
      have : Reads cells num (InPlace.setAttribute b (ii + 1) rest) _ := ih (by omega)
      simpa only [setAttribute, List.dropWhile_cons, hc, Bool.not_false, if_true] using this

theorem setAttributesFrom_reads (prev : ℕ) (bs : List Block) :
    Reads cells num (InPlace.setAttributesFrom num prev bs)
      (setAttributesFrom (entrysFrom cells 0 num) prev bs) := by
  induction bs generalizing prev with
  | nil => exact Reads.pure []
  | cons b bs ih =>
    rw [InPlace.setAttributesFrom, setAttributesFrom]
    refine Reads.bind (a := if b.addr = prev then b else setAttribute (entrysFrom cells 0 num) b) ?_
      ((ih b.addr).bind (Reads.pure _))
    split
    · exact Reads.pure b
    · exact setAttribute_reads b (Nat.zero_add num)

theorem setAttributes_reads (bs : List Block) :
    Reads cells num (InPlace.setAttributes num bs)
      (setAttributes (entrysFrom cells 0 num) bs) := by
  cases bs with
  | nil => exact Reads.pure []
  | cons b bs =>
    exact (setAttribute_reads b (Nat.zero_add num)).bind
      ((setAttributesFrom_reads b.addr bs).bind (Reads.pure _))

/-- Nothing is loaded through `in_entrys` after a store, and through `out_entrys` only what was
stored. -/
def ReadsFirst : List ℕ → List Access → Prop
  | _, [] => True
  | stored, .loadIn _ :: log => stored = [] ∧ ReadsFirst stored log
  | stored, .loadOut i :: log => i ∈ stored ∧ ReadsFirst stored log
  | stored, .storeOut i :: log => ReadsFirst (i :: stored) log

theorem readsFirst_append {log log' : List Access} (h : ∀ c ∈ log, ∃ i < num, c = .loadIn i)
    (h' : ReadsFirst [] log') : ReadsFirst [] (log ++ log') := by
  induction log with
  | nil => exact h'
  | cons c log ih =>
    obtain ⟨i, -, rfl⟩ := h c List.mem_cons_self
    exact ⟨rfl, ih fun c hc => h c (List.mem_cons_of_mem _ hc)⟩

/-- The array after `outs` was stored from index `num` on. -/
def overwrite : (ℕ → E820Entry) → ℕ → List E820Entry → ℕ → E820Entry
  | cells, _, [] => cells
  | cells, num, o :: outs => overwrite (update cells num o) (num + 1) outs

theorem overwrite_below {outs : List E820Entry} {i : ℕ} (hi : i < num) :
    overwrite cells num outs i = cells i := by
  induction outs generalizing cells num with
  | nil => rfl
  | cons o outs ih => rw [overwrite, ih (by omega), update_of_ne (Nat.ne_of_lt hi)]

theorem map_overwrite (cells : ℕ → E820Entry) (num : ℕ) (outs : List E820Entry) :
    (List.range' num outs.length).map (overwrite cells num outs) = outs := by
  induction outs generalizing cells num with
  | nil => rfl
  | cons o outs ih =>
    rw [List.length_cons, List.range'_succ, List.map_cons, overwrite, ih,
      overwrite_below (Nat.lt_succ_self num), update_self]

theorem overwrite_update {outs : List E820Entry} (h : outs ≠ []) (c : E820Entry) :
    overwrite (update cells num c) num outs = overwrite cells num outs := by
  cases outs with
  | nil => exact absurd rfl h
  | cons o outs => rw [overwrite, overwrite, update_idem]

/-- From the memory `m` with the entries `begun` begun, the loop stores `outs` from index `num`
on. -/
def Writes (m : Memory) (num : ℕ) (outs : List E820Entry) (begun : List ℕ) (r : ℕ × Memory) :
    Prop :=
  ∃ log, r = (num + outs.length, ⟨overwrite m.cells num outs, m.log ++ log⟩) ∧
    (∀ k, .storeOut k ∈ log ↔ num ≤ k ∧ k < num + outs.length) ∧
    ∀ stored, begun ⊆ stored → ReadsFirst stored log

variable {m : Memory} {outs : List E820Entry} {r : ℕ × Memory} {begun : List ℕ}

theorem Writes.nil : Writes m num [] [] (num, m) :=
  ⟨[], by rw [List.append_nil]; rfl, by simp, fun _ _ => trivial⟩

/-- The size is stored into an entry that is begun. -/
theorem Writes.leave {o : E820Entry}
    (h : Writes ⟨update m.cells num o, m.log ++ [Access.loadOut num] ++ [Access.storeOut num]⟩
      (num + 1) outs [] r) : Writes m num (o :: outs) [num] r := by
  obtain ⟨log, rfl, hstored, hfirst⟩ := h
  refine ⟨[Access.loadOut num, .storeOut num] ++ log, ?_, ?_, ?_⟩
  · simp [overwrite, Nat.add_assoc, Nat.add_comm 1]
  · intro k
    simp only [List.cons_append, List.nil_append, List.mem_cons, reduceCtorEq, false_or,
      Access.storeOut.injEq, List.length_cons, hstored]
    omega
  · intro stored hsub
    exact ⟨hsub List.mem_cons_self, hfirst _ (List.nil_subset _)⟩

theorem leave_run (f : E820Entry → ℕ) (x : M ℕ) {addr size type extend : ℕ}
    (hcell : m.cells num = ⟨addr, size, type, extend⟩) :
    (do
      let o ← loadOut num
      storeOut num ({ · with size := f o })
      x) m = x ⟨update m.cells num ⟨addr, f ⟨addr, size, type, extend⟩, type, extend⟩,
        m.log ++ [Access.loadOut num] ++ [Access.storeOut num]⟩ := by
  rw [← hcell]
  change x ⟨update m.cells num { m.cells num with size := f (m.cells num) }, _⟩ = _
  simp only [hcell]

/-- The addr, type and extend fields are stored. -/
theorem Writes.enter {x : M ℕ} {b : Block} (hne : outs ≠ [])
    (h : ∀ m' : Memory, (∃ size, m'.cells num = ⟨b.addr, size, b.type, b.extend⟩) →
      Writes m' num outs [num] (x m')) :
    Writes m num outs [] ((InPlace.enter num b >>= fun _ => x) m) := by
  have hcell := h ⟨update m.cells num ⟨b.addr, (m.cells num).size, b.type, b.extend⟩,
    m.log ++ [Access.storeOut num] ++ [Access.storeOut num] ++ [Access.storeOut num]⟩
      ⟨_, update_self ..⟩
  have hrun : (InPlace.enter num b >>= fun _ => x) m =
      x ⟨update m.cells num ⟨b.addr, (m.cells num).size, b.type, b.extend⟩,
        m.log ++ [Access.storeOut num] ++ [Access.storeOut num] ++ [Access.storeOut num]⟩ := by
    change x ⟨_, _⟩ = _
    simp only [update_idem, update_self]
  obtain ⟨log, heq, hstored, hfirst⟩ := hcell
  have hpos := List.length_pos_iff.mpr hne
  refine ⟨[Access.storeOut num, .storeOut num, .storeOut num] ++ log, ?_, ?_, ?_⟩
  · rw [hrun, heq, overwrite_update hne]
    simp
  · intro k
    simp only [List.cons_append, List.nil_append, List.mem_cons, Access.storeOut.injEq, hstored]
    omega
  · intro stored hsub
    exact hfirst _ (by simp)

theorem output_entry_ne_nil (addr type extend : ℕ) (cur : Block) (bs : List Block) :
    output (.entry addr type extend) cur bs ≠ [] := by
  induction bs generalizing cur with
  | nil => exact List.cons_ne_nil _ _
  | cons b bs ih =>
    rw [output]
    split
    · exact ih cur
    · split
      · exact ih b
      · exact List.cons_ne_nil _ _

/-- What the output loop does with the next boundary after it has closed an entry. -/
theorem top_writes {next : Block} {rest : List Block}
    (hentry : ∀ m' : Memory, (∃ size, m'.cells num = ⟨next.addr, size, next.type, next.extend⟩) →
      Writes m' num (output (.entry next.addr next.type next.extend) next rest) [num]
        (InPlace.output .entry next rest num m'))
    (hhole : Writes m num (output .hole next rest) [] (InPlace.output .hole next rest num m)) :
    Writes m num (output (.top next) next rest) []
      ((if next.exist = false then InPlace.output .hole next rest num
        else do
          InPlace.enter num next
          InPlace.output .entry next rest num) m) := by
  unfold Place.top
  split
  · exact hhole
  · exact Writes.enter (output_entry_ne_nil _ _ _ _ _) hentry

/-- The output loop in the array is the output loop. -/
theorem output_writes (bs : List Block) : ∀ (cur : Block) (m : Memory) (num : ℕ),
    Writes m num (output .hole cur bs) [] (InPlace.output .hole cur bs num m) ∧
    ∀ addr type extend, (∃ size, m.cells num = ⟨addr, size, type, extend⟩) →
      Writes m num (output (.entry addr type extend) cur bs) [num]
        (InPlace.output .entry cur bs num m) := by
  induction bs with
  | nil =>
    intro cur m num
    refine ⟨Writes.nil, ?_⟩
    rintro addr type extend ⟨size, hcell⟩
    refine Writes.leave ?_
    rw [InPlace.output, leave_run (fun o => (phyAddrMax - o.addr + 1) % 2 ^ 64) _ hcell]
    exact Writes.nil
  | cons next rest ih =>
    intro cur m num
    constructor
    · rw [InPlace.output, output]
      split
      · exact (ih cur m num).1
      · exact Writes.enter (output_entry_ne_nil _ _ _ _ _) fun m' h => (ih next m' num).2 _ _ _ h
    · rintro addr type extend ⟨size, hcell⟩
      rw [InPlace.output, output]
      split
      · exact (ih cur m num).2 _ _ _ ⟨size, hcell⟩
      · split
        · exact (ih next m num).2 _ _ _ ⟨size, hcell⟩
        · refine Writes.leave ?_
          rw [leave_run (fun o => next.addr - o.addr) _ hcell]
          exact top_writes (fun m' h => (ih next m' (num + 1)).2 _ _ _ h) (ih next _ (num + 1)).1

/-- The loop for a first boundary at 0 is the one of the two arrays. -/
theorem superblock_writes {type extend : ℕ} (cur : Block) (bs : List Block) (m : Memory)
    (hcell : ∃ size, m.cells 0 = ⟨0, size, type, extend⟩) :
    Writes m 0 (superblock type extend cur bs) [0] (InPlace.superblock cur bs m) := by
  obtain ⟨size, hcell⟩ := hcell
  induction bs generalizing cur with
  | nil =>
    refine ⟨[.storeOut 0], ?_, by simp [superblock], fun _ _ => trivial⟩
    change (1, (⟨update m.cells 0 { m.cells 0 with size := 0 }, _⟩ : Memory)) = _
    rw [hcell]
    rfl
  | cons next rest ih =>
    rw [InPlace.superblock, superblock]
    split
    · exact ih cur
    · split
      · exact ih next
      · refine Writes.leave ?_
        rw [leave_run (fun o => next.addr - o.addr) _ hcell]
        exact top_writes (fun m' h => (output_writes rest next m' 1).2 _ _ _ h)
          (output_writes rest next _ 1).1

theorem superblock_ne_nil (type extend : ℕ) (cur : Block) (bs : List Block) :
    superblock type extend cur bs ≠ [] := by
  induction bs generalizing cur with
  | nil => exact List.cons_ne_nil _ _
  | cons b bs ih =>
    rw [superblock]
    split
    · exact ih cur
    · split
      · exact ih b
      · exact List.cons_ne_nil _ _

theorem writeBlocks_writes {entrys : List E820Entry} {blocks : List Block}
    (qsort : List Block → List Block) (stack : ℕ → Block) (m : Memory)
    (hblocks : setAttributes entrys (qsort (fillBlocks stack (boundaries entrys))) = blocks) :
    Writes m 0 (trimE820Entrys qsort stack entrys) [] (InPlace.writeBlocks blocks m) := by
  rw [trimE820Entrys, hblocks]
  cases blocks with
  | nil => exact Writes.nil
  | cons b bs =>
    rw [InPlace.writeBlocks]
    dsimp only
    split
    · exact Writes.enter (output_entry_ne_nil _ _ _ _ _)
        fun m' h => (output_writes bs b m' 0).2 _ _ _ h
    next hzero =>
      rw [ne_eq, not_not] at hzero
      have := Writes.enter (m := m) (x := InPlace.superblock b bs)
        (superblock_ne_nil b.type b.extend b bs)
        fun m' h => superblock_writes b bs m' (hzero ▸ h)
      rw [InPlace.enter, hzero] at this
      exact this

/-- In its own array the map is trimmed as with two arrays, and the reads come first. -/
theorem trim_in_place (qsort : List Block → List Block) (stack : ℕ → Block)
    (cells : ℕ → E820Entry) (num : ℕ) :
    let outs := trimE820Entrys qsort stack ((List.range num).map cells)
    ∃ log, InPlace.trimE820Entrys qsort stack num ⟨cells, []⟩ =
        (outs.length, ⟨overwrite cells 0 outs, log⟩) ∧
      (∀ k, .storeOut k ∈ log ↔ k < outs.length) ∧ ReadsFirst [] log := by
  intro outs
  have hreads : Reads cells num (InPlace.sortedBlocks qsort stack num)
      (setAttributes ((List.range num).map cells)
        (qsort (fillBlocks stack (boundaries ((List.range num).map cells))))) := by
    rw [← entrysFrom_all]
    exact (boundaries_reads (Nat.zero_add num)).bind (setAttributes_reads _)
  obtain ⟨log, hlog, hread⟩ := hreads ⟨cells, []⟩ rfl
  obtain ⟨log', hrun, hstored, hfirst⟩ := writeBlocks_writes qsort stack ⟨cells, log⟩ rfl
  rw [Nat.zero_add] at hrun
  refine ⟨log ++ log', ?_, fun k => ?_, readsFirst_append hlog (hfirst [] (List.Subset.refl _))⟩
  · change (let p := InPlace.sortedBlocks qsort stack num ⟨cells, []⟩
      InPlace.writeBlocks p.1 p.2) = _
    rw [hread]
    exact hrun
  have hno : .storeOut k ∉ log := by
    intro hk
    obtain ⟨i, -, hi⟩ := hlog _ hk
    cases hi
  rw [List.mem_append, hstored k]
  simp [hno, outs]

variable {entrys : List E820Entry}

/-- A range of addresses with the same attributes starts at `x`. -/
def Starts (entrys : List E820Entry) (x : ℕ) : Prop :=
  x < 2 ^ 64 ∧ attrAt entrys x ≠ none ∧ (x = 0 ∨ attrAt entrys (x - 1) ≠ attrAt entrys x)

/-- The number of maximal ranges of uniform attributes. -/
noncomputable def ranges (entrys : List E820Entry) : ℕ := {x | Starts entrys x}.ncard

/-- One range ends before the other starts, and they differ if they touch. -/
def Apart (o o' : E820Entry) : Prop :=
  o.addr + o.size ≤ o'.addr ∧
    (o.addr + o.size = o'.addr → (o.type, o.extend) ≠ (o'.type, o'.extend))

theorem Represents.apart {f : ℕ → Option (ℕ × ℕ)} {a : ℕ} {outs : List E820Entry}
    (h : Represents f a outs) : outs.Pairwise Apart := by
  obtain ⟨hbounds, hsorted, hmaximal, -⟩ := h
  induction outs with
  | nil => exact List.Pairwise.nil
  | cons o outs ih =>
    obtain ⟨hfirst, hsorted⟩ := List.pairwise_cons.mp hsorted
    obtain ⟨hhead, hmaximal⟩ := List.isChain_cons.mp hmaximal
    refine List.pairwise_cons.mpr ⟨fun o' ho' => ⟨hfirst o' ho', fun htouch => ?_⟩,
      ih (fun o' ho => hbounds o' (List.mem_cons_of_mem _ ho)) hsorted hmaximal⟩
    cases outs with
    | nil => cases ho'
    | cons second outs =>
      obtain rfl | ho' := List.mem_cons.mp ho'
      · exact hhead _ rfl htouch
      -- a range between the two keeps them from touching
      · have := hfirst second List.mem_cons_self
        have := hbounds second (List.mem_cons_of_mem _ List.mem_cons_self)
        have := (List.pairwise_cons.mp hsorted).1 o' ho'
        omega

/-- The listed ranges start where the attributes change. -/
theorem Represents.starts (h : Represents (attrAt entrys) 0 outs) (x : ℕ) :
    Starts entrys x ↔ ∃ o ∈ outs, o.addr = x := by
  constructor
  · rintro ⟨hx, hsome, hchange⟩
    obtain ⟨p, hp⟩ := Option.ne_none_iff_exists'.mp hsome
    obtain ⟨o, ho, hle, hlt, heq⟩ := (h.values x (Nat.zero_le _) hx p).mp hp
    refine ⟨o, ho, by_contra fun hne => ?_⟩
    obtain rfl | hchange := hchange
    · omega
    · rw [hp] at hchange
      exact hchange ((h.values (x - 1) (Nat.zero_le _) (by omega) p).mpr
        ⟨o, ho, by omega, by omega, heq⟩)
  · rintro ⟨o, ho, rfl⟩
    have hb := h.bounds o ho
    have hval := (h.values o.addr (Nat.zero_le _) (by omega) _).mpr
      ⟨o, ho, Nat.le_refl _, by omega, rfl⟩
    refine ⟨by omega, by simp [hval], ?_⟩
    obtain hzero | hpos := Nat.eq_zero_or_pos o.addr
    · exact .inl hzero
    · right
      intro hsame
      rw [hval] at hsame
      obtain ⟨o', ho', hle, hlt, heq⟩ :=
        (h.values (o.addr - 1) (Nat.zero_le _) (by omega) _).mp hsame
      have hpair : outs.Pairwise fun a b => Apart a b ∨ Apart b a := h.apart.imp .inl
      have : Std.Symm fun a b => Apart a b ∨ Apart b a := ⟨fun _ _ => Or.symm⟩
      obtain hapart | hapart := hpair.forall ho' ho (by rintro rfl; omega)
      · exact hapart.2 (by have := hapart.1; omega) heq
      · have := hapart.1
        omega

variable {qsort : List Block → List Block}

/-- What is left in the array is the map, as disjoint maximal ranges. -/
theorem trim_in_place_preserves (hq : Sorts qsort) (stack : ℕ → Block) (cells : ℕ → E820Entry)
    (num : ℕ) (h : Reported ((List.range num).map cells)) :
    let r := InPlace.trimE820Entrys qsort stack num ⟨cells, []⟩
    Trimmed ((List.range num).map cells) ((List.range r.1).map r.2.cells) := by
  obtain ⟨log, hrun, -⟩ := trim_in_place qsort stack cells num
  dsimp only
  rw [hrun]
  have hmap := map_overwrite cells 0 (trimE820Entrys qsort stack ((List.range num).map cells))
  rw [← List.range_eq_range'] at hmap
  dsimp only
  rw [hmap]
  exact trimmed_trim hq stack h

/-- As many entries are written as there are ranges. -/
theorem length_trim (hq : Sorts qsort) (stack : ℕ → Block) (h : Reported entrys) :
    (trimE820Entrys qsort stack entrys).length = ranges entrys := by
  obtain ⟨p, hone, hp⟩ | hr := trim_represents hq stack h
  · have hset : {x | Starts entrys x} = {0} := by
      ext x
      rw [Set.mem_singleton_iff]
      constructor
      · rintro ⟨hx, -, hzero | hchange⟩
        · exact hzero
        · rw [hp x hx, hp (x - 1) (by omega)] at hchange
          exact absurd rfl hchange
      · rintro rfl
        exact ⟨by omega, by simp [hp 0 (by omega)], .inl rfl⟩
    rw [hone, ranges, hset, Set.ncard_singleton, List.length_singleton]
  · generalize trimE820Entrys qsort stack entrys = outs at hr
    have hset : {x | Starts entrys x} = ((outs.map (·.addr)).toFinset : Set ℕ) := by
      ext x
      simp [hr.starts]
    have hnodup : (outs.map (·.addr)).Nodup := by
      refine List.pairwise_map.mpr (hr.sorted.imp_of_mem fun ho _ hle => ?_)
      have := hr.bounds _ ho
      omega
    rw [ranges, hset, Set.ncard_coe_finset, List.toFinset_card_of_nodup hnodup, List.length_map]

/-- The indices that are written are those below the number of ranges. -/
theorem trim_stores (hq : Sorts qsort) (stack : ℕ → Block) (cells : ℕ → E820Entry) (num : ℕ)
    (h : Reported ((List.range num).map cells)) :
    let log := ((InPlace.trimE820Entrys qsort stack num).run ⟨cells, []⟩).2.log
    ReadsFirst [] log ∧ ∀ {k}, .storeOut k ∈ log ↔ k < ranges ((List.range num).map cells) := by
  obtain ⟨log, hrun, hstored, hfirst⟩ := trim_in_place qsort stack cells num
  have hlog : ((InPlace.trimE820Entrys qsort stack num).run ⟨cells, []⟩).2.log = log :=
    congrArg (fun r => r.2.log) hrun
  rw [hlog, ← length_trim hq stack h]
  exact ⟨hfirst, hstored _⟩

/-- In the array it is given in, the map is read before anything is written, and it does not
outgrow the array if and only if it has at most `E820_ENRTY_MAX` ranges. -/
theorem trim_fits_iff (hq : Sorts qsort) (stack : ℕ → Block) (cells : ℕ → E820Entry) (num : ℕ)
    (h : Reported ((List.range num).map cells)) :
    let log := ((InPlace.trimE820Entrys qsort stack num).run ⟨cells, []⟩).2.log
    ReadsFirst [] log ∧ ((∀ k, .storeOut k ∈ log → k < e820EntryMax) ↔
      ranges ((List.range num).map cells) ≤ e820EntryMax) := by
  obtain ⟨hfirst, hstored⟩ := trim_stores hq stack cells num h
  refine ⟨hfirst, fun hall => ?_, fun hle k hk => ?_⟩
  · by_contra hlt
    exact absurd (hall e820EntryMax (hstored.mpr (by omega))) (Nat.lt_irrefl _)
  · have := hstored.mp hk
    omega

/-- Three entries, two of which overlap, in the wrong order. -/
def overlapping (i : ℕ) : E820Entry :=
  [⟨0x4000, 0x1000, 1, 1⟩, ⟨0x1000, 0x1000, 3, 1⟩, ⟨0, 0x1800, 1, 1⟩].getD i ⟨0, 0, 0, 0⟩

theorem reported_overlapping : Reported ((List.range 3).map overlapping) := by
  simp [Reported, overlapping, List.range_succ]

theorem ranges_overlapping : ranges ((List.range 3).map overlapping) = 4 := by
  rw [← length_trim sorts_insertionSort (fun _ => ⟨0, 0, 0, true⟩) reported_overlapping]
  decide +kernel

/-- They become four ranges, the last one in a cell that was not in use. -/
theorem trim_fits_iff_sample :
    let log := ((InPlace.trimE820Entrys (·.mergeSort fun a b => a.addr ≤ b.addr)
      (fun _ => ⟨0, 0, 0, true⟩) 3).run ⟨overlapping, []⟩).2.log
    ReadsFirst [] log ∧ .storeOut 3 ∈ log ∧ ∀ k, .storeOut k ∈ log → k < e820EntryMax := by
  have hfour : 3 < ranges ((List.range 3).map overlapping) := by simp [ranges_overlapping]
  have hle : ranges ((List.range 3).map overlapping) ≤ e820EntryMax := by
    simp [ranges_overlapping, e820EntryMax]
  have hfits := trim_fits_iff sorts_mergeSort (fun _ => ⟨0, 0, 0, true⟩) overlapping 3
    reported_overlapping
  have hstores := trim_stores sorts_mergeSort (fun _ => ⟨0, 0, 0, true⟩) overlapping 3
    reported_overlapping
  exact ⟨hfits.1, hstores.2.mpr hfour, hfits.2.mpr hle⟩

theorem Starts.mem_boundaries (h : Reported entrys) {x : ℕ} (hx : Starts entrys x) :
    x ∈ boundaries entrys := by
  obtain ⟨hlt, hsome, hchange⟩ := hx
  by_contra hmem
  obtain rfl | hpos := Nat.eq_zero_or_pos x
  · obtain ⟨p, hp⟩ := Option.ne_none_iff_exists'.mp hsome
    obtain ⟨e, he, hhas⟩ := (attrAt_isSome h).mp ⟨p, hp⟩
    exact hmem (E820.mem_boundaries.mpr ⟨e, he, by have := hhas.1; omega,
      .inl (Nat.le_zero.mp hhas.1).symm⟩)
  · obtain rfl | hchange := hchange
    · omega
    · refine hchange (attrAt_const h (by omega) hlt fun y hy hlt' => ?_).symm
      have : x ≠ y := fun heq => hmem (heq ▸ hy)
      omega

theorem starts_finite (h : Reported entrys) : {x | Starts entrys x}.Finite :=
  (boundaries entrys).toFinset.finite_toSet.subset fun _ hx => by
    simpa using Starts.mem_boundaries h hx

theorem length_boundaries (entrys : List E820Entry) :
    (boundaries entrys).length ≤ 2 * entrys.length := by
  induction entrys with
  | nil => exact Nat.le_refl _
  | cons e es ih =>
    rw [boundaries, List.length_cons]
    split
    · omega
    · split
      · rw [List.length_cons]
        omega
      · rw [List.length_cons, List.length_cons]
        omega

/-- A map of at most half of the array always fits. -/
theorem ranges_le (h : Reported entrys) : ranges entrys ≤ 2 * entrys.length := by
  have hsub : {x | Starts entrys x} ⊆ ((boundaries entrys).toFinset : Set ℕ) := fun x hx => by
    simpa using Starts.mem_boundaries h hx
  calc ranges entrys ≤ ((boundaries entrys).toFinset : Set ℕ).ncard :=
        Set.ncard_le_ncard hsub (Finset.finite_toSet _)
    _ = (boundaries entrys).toFinset.card := Set.ncard_coe_finset _
    _ ≤ (boundaries entrys).length := List.toFinset_card_le _
    _ ≤ 2 * entrys.length := length_boundaries entrys

/-- A usable range with 256 reserved pages in it. -/
def crowded (i : ℕ) : E820Entry :=
  if i = 0 then ⟨0, 2 ^ 32, 1, 1⟩ else ⟨0x1000 * (2 * i - 1), 0x1000, 3, 1⟩

def crowdedResponse (i : ℕ) : Response := ⟨smap, if i = 256 then 0 else i + 1, 24, crowded i⟩

def crowdedMap : List E820Entry := (List.range 257).map crowded

theorem reported_crowded : Reported crowdedMap := by
  intro e he
  obtain ⟨i, hi, rfl⟩ := List.mem_map.mp he
  rw [List.mem_range] at hi
  unfold crowded
  split
  · decide
  · dsimp only
    omega

theorem attrAt_crowded {x : ℕ} (hx : x < 2 ^ 32) : attrAt crowdedMap x =
    some (if x / 0x1000 % 2 = 1 ∧ x / 0x1000 < 512 then (2, 1) else (1, 1)) := by
  have hmap : crowdedMap = crowded 0 :: ((List.range 256).map fun i => crowded (i + 1)) := by
    rw [crowdedMap, List.range_succ_eq_map, List.map_cons, List.map_map]
    rfl
  have hfirst : covers x (crowded 0) = true := covers_iff.mpr ⟨Nat.zero_le _, by simpa [crowded]⟩
  have hany : (((List.range 256).map fun i => crowded (i + 1)).filter (covers x)).any
      (fun e' => (crowded 0).type ≠ e'.type ∨ (crowded 0).extend ≠ e'.extend) =
      decide (x / 0x1000 % 2 = 1 ∧ x / 0x1000 < 512) := by
    rw [Bool.eq_iff_iff, List.any_eq_true, decide_eq_true_eq]
    constructor
    · rintro ⟨e, he, -⟩
      obtain ⟨he, hcov⟩ := List.mem_filter.mp he
      obtain ⟨i, hi, rfl⟩ := List.mem_map.mp he
      rw [List.mem_range] at hi
      rw [covers_iff, crowded, if_neg (Nat.succ_ne_zero i)] at hcov
      dsimp only at hcov
      omega
    · rintro ⟨hodd, hlt⟩
      refine ⟨crowded (x / 0x1000 / 2 + 1), List.mem_filter.mpr ⟨List.mem_map.mpr
        ⟨x / 0x1000 / 2, List.mem_range.mpr (by omega), rfl⟩, covers_iff.mpr ?_⟩, rfl⟩
      rw [crowded, if_neg (Nat.succ_ne_zero _)]
      dsimp only
      omega
  rw [attrAt, hmap, List.filter_cons, if_pos hfirst]
  dsimp only
  rw [hany]
  simp [crowded]

theorem ranges_crowded : 512 < ranges crowdedMap := by
  have hsub : ((Finset.range 513).image (0x1000 * ·) : Set ℕ) ⊆ {x | Starts crowdedMap x} := by
    intro x hx
    obtain ⟨j, hj, rfl⟩ := Finset.mem_image.mp (Finset.mem_coe.mp hx)
    rw [Finset.mem_range] at hj
    have hval := attrAt_crowded (x := 0x1000 * j) (by omega)
    refine ⟨by omega, by simp [hval], ?_⟩
    obtain hzero | hpos := Nat.eq_zero_or_pos j
    · exact .inl (by omega)
    · right
      rw [hval, attrAt_crowded (by omega)]
      obtain hodd | heven : j % 2 = 1 ∨ j % 2 = 0 := by omega
      · rw [if_neg (by omega), if_pos (by omega)]
        decide
      · rw [if_pos (by omega), if_neg (by omega)]
        decide
  have hcard : ((Finset.range 513).image (0x1000 * ·)).card = 513 := by
    rw [Finset.card_image_of_injective _ fun a b => by simp, Finset.card_range]
  have := Set.ncard_le_ncard hsub (starts_finite reported_crowded)
  rw [Set.ncard_coe_finset, hcard] at this
  exact this

theorem script_crowded {i rest : ℕ} (h : i + rest = 257) :
    Script ((List.range' i rest).map crowdedResponse) := by
  induction rest generalizing i with
  | zero => trivial
  | succ rest ih =>
    rw [List.range'_succ, List.map_cons]
    refine ⟨rfl, .inr rfl, fun hlast => ?_, ih (by omega)⟩
    obtain rfl : rest = 0 := by
      simp only [crowdedResponse] at hlast
      split at hlast
      · omega
      · omega
    rfl

theorem kept_crowded (i : ℕ) : (crowdedResponse i).kept = true := by
  have hsize : (crowded i).size ≠ 0 := by
    unfold crowded
    split
    · decide
    · exact Nat.succ_ne_zero _
  have hextend : (crowded i).extend % 2 = 1 := by
    unfold crowded
    split <;> rfl
  exact decide_eq_true ⟨hsize, fun _ => hextend⟩

theorem recorded_crowded : recorded ((List.range 257).map crowdedResponse) = crowdedMap := by
  have hkept : ((List.range 257).map crowdedResponse).filter Response.kept =
      (List.range 257).map crowdedResponse := by
    refine List.filter_eq_self.mpr fun r hr => ?_
    obtain ⟨i, -, rfl⟩ := List.mem_map.mp hr
    exact kept_crowded i
  rw [recorded, hkept, List.map_map]
  rfl

/-- The 257 entries the BIOS reports here are 513 ranges, and the last one is written past the
array. -/
theorem crowded_outgrows :
    (detectMemoryE820 0x10000 e820EntryMax (fun _ => ⟨0, 0, 0, 0⟩)
      ((List.range 257).map crowdedResponse)).exact crowdedMap ∧
    .storeOut e820EntryMax ∈ ((InPlace.trimE820Entrys (·.mergeSort fun a b => a.addr ≤ b.addr)
      (fun _ => ⟨0, 0, 0, true⟩) 257).run ⟨crowded, []⟩).2.log := by
  constructor
  · have hs : Script ((List.range 257).map crowdedResponse) := by
      rw [List.range_eq_range']
      exact script_crowded (by omega)
    have hkept : ∀ r ∈ (List.range 257).map crowdedResponse, r.kept = true := by
      intro r hr
      obtain ⟨i, -, rfl⟩ := List.mem_map.mp hr
      exact kept_crowded i
    have hlen : ((List.range 257).map crowdedResponse).length < e820EntryMax := by
      rw [List.length_map, List.length_range]
      decide
    rw [← recorded_crowded]
    generalize (List.range 257).map crowdedResponse = rs at hs hkept hlen
    exact exact_of_kept _ (by decide) hs hkept hlen
  · rw [(trim_stores sorts_mergeSort _ crowded 257 reported_crowded).2]
    exact ranges_crowded

end MyosIo.E820
