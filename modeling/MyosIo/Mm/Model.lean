import Mathlib.Algebra.Group.Nat.Defs
import Mathlib.Logic.Function.Basic
import Mathlib.Data.Nat.Notation
import Mathlib.Data.Int.Notation

/-! `pt_manage.c` and `mm.c`. Addresses, entries and counters are natural numbers; a level-3 table
is named by its virtual address, and the fields of a `PT_Page` by the virtual address of the
structure. A memory access that faults and a call of `abort` both end the run. -/
namespace MyosIo.Mm

open Function

inductive Fault
  | abort (message : String)
  | pageFault

/-- `x & -0x200000`. -/
def align2m (x : ℕ) : ℕ := x - x % 0x200000

/-- `(v_addr >> 39) & 0x1ff`. -/
def i1 (v : ℕ) : ℕ := v / 2 ^ 39 % 512

/-- `(v_addr >> 30) & 0x1ff`. -/
def i2 (v : ℕ) : ℕ := v / 2 ^ 30 % 512

/-- `(v_addr >> 21) & 0x1ff`. -/
def i3 (v : ℕ) : ℕ := v / 2 ^ 21 % 512

/-- `((uintptr_t)pt & 0x1fffff) >> 12`. -/
def tableId (pt : ℕ) : ℕ := pt % 0x200000 / 0x1000

/-- A level-3 entry: `ph_addr | ((1 << 0) | (1 << 1) | (1 << 7))`. -/
def pageEntry (ph : ℕ) : ℕ := ph ||| 0x83

/-- Store to one element of a two-dimensional array. -/
def set2 {α : Type*} (f : ℕ → ℕ → α) (a b : ℕ) (x : α) : ℕ → ℕ → α :=
  fun a' b' => if a' = a ∧ b' = b then x else f a' b'

/-- `pageTables pt i` is entry `i` of the table at `pt`; `freeIds page` is
`free_ids[0..free_num)` with the top of the stack first, as `freePages` is
`free_pages[0..free_pages_num)`. The list `free_pt_pages` starts with its head. -/
structure State where
  pageTables : ℕ → ℕ → ℕ
  phAddr : ℕ → ℕ
  freeIds : ℕ → List ℕ
  freeEntrysNum : ℕ → ℕ → ℕ
  kernelVpt2s : ℕ → ℕ → ℕ
  kernelPt2s : ℕ → ℕ → ℕ
  freePtPages : List ℕ
  freePtsNum : ℕ
  ptPagesSp : ℕ
  ptPagesSpMin : ℕ
  freePages : List ℕ

def initPtPage (s : State) (page ph : ℕ) : State :=
  { s with
    pageTables := fun pt i =>
      if align2m pt = page ∧ tableId pt < 510 then 0 else s.pageTables pt i
    phAddr := update s.phAddr page ph
    freeIds := update s.freeIds page (List.range 510) }

def ptDecFreeEntrysNum (s : State) (pt : ℕ) : State :=
  let page := align2m pt
  let id := tableId pt
  { s with
    freeEntrysNum := set2 s.freeEntrysNum page id ((s.freeEntrysNum page id + 0xffff) % 0x10000) }

def ptIncFreeEntrysNumAndFreePt (s : State) (pt : ℕ) : Bool × State :=
  let page := align2m pt
  let id := tableId pt
  let n := (s.freeEntrysNum page id + 1) % 0x10000
  let s := { s with freeEntrysNum := set2 s.freeEntrysNum page id n }
  if n = 512 then
    (true,
      { s with
        freeIds := update s.freeIds page (id :: s.freeIds page)
        freePtPages := if s.freeIds page = [] then page :: s.freePtPages else s.freePtPages
        freePtsNum := s.freePtsNum + 1 })
  else
    (false, s)

/-- The block `alloc a new pt3` of `pt_map_always_success` and `pt_try_map`. -/
def newPt3 (s : State) (a b : ℕ) : Except Fault (ℕ × State) :=
  match s.freePtPages with
  | [] => .error .pageFault
  | page :: rest =>
    match s.freeIds page with
    | [] => .error .pageFault
    | id :: ids =>
      let pt3 := page + id * 0x1000
      .ok (pt3,
        { s with
          freeIds := update s.freeIds page ids
          freeEntrysNum := set2 s.freeEntrysNum page id 511
          kernelVpt2s := set2 s.kernelVpt2s a b pt3
          kernelPt2s := set2 s.kernelPt2s a b (pt3 % 0x200000 + s.phAddr page + 3)
          freePtPages := if ids = [] then rest else s.freePtPages
          freePtsNum := s.freePtsNum - 1 })

/-- `pt3[i3] = entry`. -/
def setEntry (s : State) (pt i entry : ℕ) : State :=
  { s with pageTables := set2 s.pageTables pt i entry }

def ptMapAlwaysSuccess (s : State) (ph v : ℕ) : Except Fault State :=
  let pt3 := s.kernelVpt2s (i1 v) (i2 v)
  if pt3 ≠ 0 then
    if s.pageTables pt3 (i3 v) ≠ 0 then
      .error (.abort "remap a page!\n")
    else
      .ok (setEntry (ptDecFreeEntrysNum s pt3) pt3 (i3 v) (pageEntry ph))
  else do
    let (pt3, s) ← newPt3 s (i1 v) (i2 v)
    .ok (setEntry s pt3 (i3 v) (pageEntry ph))

def addPtPage (s : State) (freePhPage newPtPage : ℕ) : Except Fault State := do
  let s ← ptMapAlwaysSuccess s freePhPage newPtPage
  let s := initPtPage s newPtPage freePhPage
  .ok { s with
    freePtPages := s.freePtPages ++ [newPtPage]
    freePtsNum := s.freePtsNum + 510 }

/-- `hook` is `get_free_page_hook` and `parm` what its argument points to. -/
def ptTryMap {σ : Type} (hook : σ → Option ℕ × σ) (parm : σ) (s : State) (ph v : ℕ)
    (isSoft : Bool) : Except Fault (ℤ × σ × State) :=
  let pt3 := s.kernelVpt2s (i1 v) (i2 v)
  if pt3 ≠ 0 then
    if s.pageTables pt3 (i3 v) ≠ 0 then
      if isSoft then .ok (1, parm, s) else .error (.abort "remap a page!\n")
    else
      .ok (0, parm, setEntry (ptDecFreeEntrysNum s pt3) pt3 (i3 v) (pageEntry ph))
  else
    if s.freePtsNum = 1 then
      if s.ptPagesSp ≤ s.ptPagesSpMin ∨ s.ptPagesSp - s.ptPagesSpMin < 0x200000 then
        .ok (-1, parm, s)
      else
        match hook parm with
        | (none, parm) => .ok (-1, parm, s)
        | (some newFreePhPage, parm) => do
          let sp := s.ptPagesSp - 0x200000
          let s ← addPtPage { s with ptPagesSp := sp } newFreePhPage sp
          let (pt3, s) ← newPt3 s (i1 v) (i2 v)
          .ok (0, parm, setEntry s pt3 (i3 v) (pageEntry ph))
    else do
      let (pt3, s) ← newPt3 s (i1 v) (i2 v)
      .ok (0, parm, setEntry s pt3 (i3 v) (pageEntry ph))

def ptUnmap (s : State) (v : ℕ) : Except Fault (ℕ × State) :=
  let pt3 := s.kernelVpt2s (i1 v) (i2 v)
  if pt3 = 0 then
    .error .pageFault
  else if s.pageTables pt3 (i3 v) = 0 then
    .error (.abort "")
  else
    let ph := align2m (s.pageTables pt3 (i3 v))
    let (empty, s) := ptIncFreeEntrysNumAndFreePt (setEntry s pt3 (i3 v) 0) pt3
    .ok (ph,
      if empty then
        { s with
          kernelVpt2s := set2 s.kernelVpt2s (i1 v) (i2 v) 0
          kernelPt2s := set2 s.kernelPt2s (i1 v) (i2 v) 0 }
      else s)

def ptIsMap (s : State) (v : ℕ) : Bool :=
  let pt3 := s.kernelVpt2s (i1 v) (i2 v)
  if pt3 ≠ 0 then s.pageTables pt3 (i3 v) ≠ 0 else false

/-- `get_free_page_generic`, on the local copy of the stack. -/
def getFreePageGeneric : List ℕ → Option ℕ × List ℕ
  | [] => (none, [])
  | page :: stack => (some page, stack)

/-- The loop of `alloc_page_lock_routine`: whether it got to its end, the local stack, the
list `mapped_pages` and the state. -/
def allocPages (isSoft : Bool) :
    ℕ → ℕ → List ℕ → List ℕ → State → Except Fault (Bool × List ℕ × List ℕ × State)
  | 0, _, stack, mapped, s => .ok (true, stack, mapped, s)
  | _ + 1, _, [], mapped, s => .ok (false, [], mapped, s)
  | num + 1, addr, newFreePage :: stack, mapped, s => do
    let (ret, stack, s) ← ptTryMap getFreePageGeneric stack s newFreePage addr isSoft
    if ret < 0 then
      .ok (false, newFreePage :: stack, mapped, s)
    else if ret = 0 then
      allocPages isSoft num (addr + 0x200000) stack (addr :: mapped) s
    else
      allocPages isSoft num (addr + 0x200000) stack mapped s

/-- `label_failed`: every page mapped so far is unmapped and pushed. -/
def unmapPages : List ℕ → List ℕ → State → Except Fault (List ℕ × State)
  | [], stack, s => .ok (stack, s)
  | page :: mapped, stack, s => do
    let (freePage, s) ← ptUnmap s page
    unmapPages mapped (freePage :: stack) s

def allocPageLockRoutine (s : State) (addr num : ℕ) (isSoft : Bool) : Except Fault (ℤ × State) := do
  let (ok, stack, mapped, s) ← allocPages isSoft num addr s.freePages [] s
  if ok then
    .ok (0, { s with freePages := stack })
  else
    let (stack, s) ← unmapPages mapped stack s
    .ok (-1, { s with freePages := stack })

/-- The range check every entry point makes. -/
def checkRange (addr length : ℕ) : Except Fault Unit :=
  if addr % 0x200000 ≠ 0 then .error (.abort "")
  else if length % 0x200000 ≠ 0 then .error (.abort "")
  else if addr < 0x40000000000 ∨ 0x200000000000 < addr then .error (.abort "")
  else if 0x200000000000 - addr < length then .error (.abort "")
  else .ok ()

/-- `PROT_READ | PROT_WRITE | PROT_EXEC`. -/
def protAll : ℕ := 0x1 ||| 0x2 ||| 0x4

/-- `MAP_PRIVATE | MAP_ANONYMOUS`. -/
def mapFlags : ℕ := 0x02 ||| 0x20

/-- `(void *)-1`. -/
def mapFailed : ℕ := 2 ^ 64 - 1

/-- `mmap` and `mmap_soft`, which differ in `is_soft` only. -/
def mapRange (isSoft : Bool) (s : State) (addr length prot flags : ℕ) (offset : ℤ) :
    Except Fault (ℕ × State) := do
  if prot ≠ protAll then .error (.abort "")
  else if flags ≠ mapFlags then .error (.abort "")
  else if offset ≠ 0 then .error (.abort "")
  else
    checkRange addr length
    let allocPagesNum := length / 0x200000
    if allocPagesNum > s.freePages.length then
      .ok (mapFailed, s)
    else if allocPagesNum = 0 then
      .ok (addr, s)
    else
      let (ret, s) ← allocPageLockRoutine s addr allocPagesNum isSoft
      .ok (if ret = 0 then addr else mapFailed, s)

def mmap := mapRange false

def mmapSoft := mapRange true

/-- The loop of `free_page_lock_routine`; it is entered with `num ≠ 0`. -/
def freePagesLoop : ℕ → ℕ → List ℕ → State → Except Fault (List ℕ × State)
  | 0, _, stack, s => .ok (stack, s)
  | num + 1, v, stack, s => do
    let (freePage, s) ← ptUnmap s v
    freePagesLoop num (v + 0x200000) (freePage :: stack) s

def munmap (s : State) (addr length : ℕ) : Except Fault (ℤ × State) := do
  checkRange addr length
  let needFreePagesNum := length / 0x200000
  if needFreePagesNum = 0 then
    .ok (0, s)
  else
    let (stack, s) ← freePagesLoop needFreePagesNum addr s.freePages s
    .ok (0, { s with freePages := stack })

def mapNoMapped : ℤ := 0
def mapAllMapped : ℤ := 1
def mapPartMapped : ℤ := 2

/-- The loop of `check_map_lock_routine`. -/
def checkMapLoop (s : State) (isMap : Bool) : ℕ → ℕ → Bool
  | 0, _ => true
  | num + 1, v => ptIsMap s v == isMap && checkMapLoop s isMap num (v + 0x200000)

def checkMap (s : State) (addr length : ℕ) : Except Fault ℤ := do
  checkRange addr length
  let checkPagesNum := length / 0x200000
  if checkPagesNum = 0 then
    .error (.abort "")
  else
    let isMap := ptIsMap s addr
    if checkMapLoop s isMap checkPagesNum addr then
      .ok (if isMap then mapAllMapped else mapNoMapped)
    else
      .ok mapPartMapped

/-- A call with the value it returns. -/
inductive Call
  | mmap (addr length prot flags : ℕ) (offset : ℤ) (ret : ℕ)
  | mmapSoft (addr length prot flags : ℕ) (offset : ℤ) (ret : ℕ)
  | munmap (addr length : ℕ) (ret : ℤ)
  | checkMap (addr length : ℕ) (ret : ℤ)

/-- The calls that come back. -/
inductive Step : State → Call → State → Prop
  | mmap {s t : State} {addr length prot flags ret : ℕ} {offset : ℤ}
      (h : mmap s addr length prot flags offset = .ok (ret, t)) :
      Step s (.mmap addr length prot flags offset ret) t
  | mmapSoft {s t : State} {addr length prot flags ret : ℕ} {offset : ℤ}
      (h : mmapSoft s addr length prot flags offset = .ok (ret, t)) :
      Step s (.mmapSoft addr length prot flags offset ret) t
  | munmap {s t : State} {addr length : ℕ} {ret : ℤ} (h : munmap s addr length = .ok (ret, t)) :
      Step s (.munmap addr length ret) t
  | checkMap {s : State} {addr length : ℕ} {ret : ℤ} (h : checkMap s addr length = .ok ret) :
      Step s (.checkMap addr length ret) s

end MyosIo.Mm
