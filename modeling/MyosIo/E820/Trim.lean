import Mathlib.Data.List.Chain
import MyosIo.Mm.Init

/-! `trim_e820_entrys` of the boot loader. The entries are read only until the attributes of the
boundaries are known, and written only afterwards, so the two arrays may be the same one. -/
namespace MyosIo.E820

open Mm (E820Entry)

/-- `PHY_ADDR_MAX`. -/
def phyAddrMax : ℕ := 0xffffffffffffffff

structure Block where
  addr : ℕ
  type : ℕ
  extend : ℕ
  exist : Bool
  deriving DecidableEq

/-- The addresses stored by the first loop. -/
def boundaries : List E820Entry → List ℕ
  | [] => []
  | e :: es =>
    if e.addr > phyAddrMax then boundaries es
    else if phyAddrMax - e.addr < e.size then e.addr :: boundaries es
    else e.addr :: (e.addr + e.size) :: boundaries es

/-- `blocks` on a stack whose other bytes are arbitrary. -/
def fillBlocks (stack : ℕ → Block) (addrs : List ℕ) : List Block :=
  addrs.zipIdx.map fun (addr, i) => { stack i with addr := addr }

/-- Whether an entry covers an address, as the loops test it. -/
def covers (addr : ℕ) (e : E820Entry) : Bool := addr ≥ e.addr ∧ addr - e.addr < e.size

/-- The two inner loops: the first entry found, then the others compared with it. -/
def setAttribute (entrys : List E820Entry) (b : Block) : Block :=
  match entrys.dropWhile fun e => !covers b.addr e with
  | [] => { b with exist := false }
  | e :: rest =>
    if rest.any fun e' => covers b.addr e' ∧ (e.type ≠ e'.type ∨ e.extend ≠ e'.extend) then
      { b with exist := true, type := 2, extend := 1 }
    else { b with exist := true, type := e.type, extend := e.extend }

/-- The loop over the sorted boundaries after its first turn; a boundary that repeats the one
before it is left as it is. -/
def setAttributesFrom (entrys : List E820Entry) : ℕ → List Block → List Block
  | _, [] => []
  | prev, b :: bs =>
    (if b.addr = prev then b else setAttribute entrys b) :: setAttributesFrom entrys b.addr bs

/-- The loop entered at `label_in`. -/
def setAttributes (entrys : List E820Entry) : List Block → List Block
  | [] => []
  | b :: bs => setAttribute entrys b :: setAttributesFrom entrys b.addr bs

/-- `blocks[next_i]` continues `blocks[i]`. -/
def sameAttribute (next b : Block) : Bool :=
  next.exist == b.exist && next.type == b.type && next.extend == b.extend

/-- Where the output loop is: in the loop under `label_in2`, with the entry being written, or
looking for the end of a hole. -/
inductive Place
  | entry (addr type extend : ℕ)
  | hole

/-- The top of the output loop with `i` at `b`. -/
def Place.top (b : Block) : Place :=
  if b.exist = false then .hole else .entry b.addr b.type b.extend

/-- The output loop: `cur` is `blocks[i]` and the list is `blocks` from `next_i` on. -/
def output : Place → Block → List Block → List E820Entry
  | .hole, _, [] => []
  | .hole, cur, next :: rest =>
    if next.addr = cur.addr then output .hole cur rest
    else output (.entry next.addr next.type next.extend) next rest
  | .entry addr type extend, _, [] => [⟨addr, (phyAddrMax - addr + 1) % 2 ^ 64, type, extend⟩]
  | .entry addr type extend, cur, next :: rest =>
    if next.addr = cur.addr then output (.entry addr type extend) cur rest
    else if sameAttribute next cur then output (.entry addr type extend) next rest
    else ⟨addr, next.addr - addr, type, extend⟩ :: output (.top next) next rest

/-- The loop for a first boundary at 0, with the entry that starts there. -/
def superblock (type extend : ℕ) : Block → List Block → List E820Entry
  | _, [] => [⟨0, 0, type, extend⟩]
  | cur, next :: rest =>
    if next.addr = cur.addr then superblock type extend cur rest
    else if sameAttribute next cur then superblock type extend next rest
    else ⟨0, next.addr - 0, type, extend⟩ :: output (.top next) next rest

/-- `trim_e820_entrys`. -/
def trimE820Entrys (qsort : List Block → List Block) (stack : ℕ → Block)
    (entrys : List E820Entry) : List E820Entry :=
  match setAttributes entrys (qsort (fillBlocks stack (boundaries entrys))) with
  | [] => []
  | b :: bs =>
    if b.addr ≠ 0 then output (.entry b.addr b.type b.extend) b bs
    else superblock b.type b.extend b bs

/-- What is assumed of `qsort` with `blocks_cmp`. -/
def Sorts (qsort : List Block → List Block) : Prop :=
  ∀ bs, (qsort bs).Perm bs ∧ (qsort bs).Pairwise fun a b => a.addr ≤ b.addr

/-- The bytes an entry stands for: address 0 and size 0 is all of the address space. -/
def span (e : E820Entry) : ℕ := if e.addr = 0 ∧ e.size = 0 then 2 ^ 64 else e.size

def Has (e : E820Entry) (x : ℕ) : Prop := e.addr ≤ x ∧ x < e.addr + span e

/-- The common attributes of all entries that cover `x`, or `(2, 1)`. -/
def Common (entrys : List E820Entry) (x type extend : ℕ) : Prop :=
  (∀ e ∈ entrys, Has e x → e.type = type ∧ e.extend = extend) ∨
    (type = 2 ∧ extend = 1 ∧
      ∃ e ∈ entrys, ∃ e' ∈ entrys, Has e x ∧ Has e' x ∧ (e.type ≠ e'.type ∨ e.extend ≠ e'.extend))

/-- `outs` is the map `ins` as disjoint maximal ranges. -/
structure Trimmed (ins outs : List E820Entry) : Prop where
  form : (∃ type extend, outs = [⟨0, 0, type, extend⟩]) ∨
    ∀ o ∈ outs, 0 < o.size ∧ o.addr + o.size ≤ 2 ^ 64
  sorted : outs.Pairwise fun a b => a.addr + span a ≤ b.addr
  maximal : outs.IsChain fun a b =>
    a.addr + span a = b.addr → a.type ≠ b.type ∨ a.extend ≠ b.extend
  covered : ∀ x < 2 ^ 64, (∃ o ∈ outs, Has o x) ↔ ∃ e ∈ ins, Has e x
  attributes : ∀ x < 2 ^ 64, ∀ o ∈ outs, Has o x → Common ins x o.type o.extend

/-- What the firmware may report: 64-bit words, no empty entry. -/
def Reported (entrys : List E820Entry) : Prop :=
  ∀ e ∈ entrys, e.addr < 2 ^ 64 ∧ 0 < e.size ∧ e.size < 2 ^ 64

end MyosIo.E820
