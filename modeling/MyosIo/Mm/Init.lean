import MyosIo.Mm.Model

/-! The free blocks are built from the E820 array, the first block gives the first `PT_Page`, the
kernel image and that page are mapped, and after the switch of `cr3` every other page goes on the
stack `free_pages`, whose array is mapped as it grows. -/
namespace MyosIo.Mm

open Function

/-- Where the parts of the kernel image are. `_kernel` is 2 MiB aligned relative to
`__virtual_null` (`ASSERT` in `kernel.ld`), and `null_pt3` in `.data` comes before the 4 MiB of
`keyboard_buf` in `.bss`. -/
structure Layout where
  virtualNull : ℕ
  kernel : ℕ
  ekernel : ℕ
  nullPt3 : ℕ
  nullPt4 : ℕ
  kernel_mod : kernel % 0x200000 = virtualNull % 0x200000
  nullPt3_mod : nullPt3 % 0x1000 = 0
  kernel_le_nullPt3 : kernel ≤ nullPt3
  nullPt3_page_le : align2m nullPt3 + 0x200000 ≤ ekernel

namespace Layout

theorem nullPt3_lt (L : Layout) : L.nullPt3 < L.ekernel := by
  have h := L.nullPt3_page_le
  unfold align2m at h
  omega

/-- `. = ALIGN(8)`. -/
def ekernelAlign8 (L : Layout) : ℕ := (L.ekernel + 7) / 8 * 8

/-- `. = ALIGN(0x200000)`. -/
def ekernelAlign2m (L : Layout) : ℕ := (L.ekernelAlign8 + 0x1fffff) / 0x200000 * 0x200000

def kernelAlign2m (L : Layout) : ℕ := align2m L.kernel

end Layout

structure E820Entry where
  addr : ℕ
  size : ℕ
  type : ℕ
  extend : ℕ

structure FreeMemoryBlock where
  addr : ℕ
  size : ℕ

/-- `FREE_MEMORY_BLOCKS_MAX`. -/
def freeMemoryBlocksMax : ℕ := 2048

/-- `FIRST_PT_PAGE_V_ADDR`. -/
def firstPtPageVAddr : ℕ := 0x40000000000 - 0x200000

/-- `FREE_PAGES_V_ADDR_MAX`. -/
def freePagesVAddrMax : ℕ := 0x10000000000

/-- Subtraction of 64-bit words. -/
def sub64 (a b : ℕ) : ℕ := (a + (2 ^ 64 - b)) % 2 ^ 64

def addBlock (blocks : List FreeMemoryBlock) (addr size : ℕ) :
    Except Fault (List FreeMemoryBlock) :=
  if blocks.length = freeMemoryBlocksMax then
    .error (.abort "too many memory blocks!\n")
  else
    .ok (blocks ++ [⟨addr, size⟩])

def pad (e : E820Entry) : ℕ :=
  if e.addr ≤ 0x1000000 then 0x1000000 - e.addr else 0x200000 - e.addr % 0x200000

/-- One round of the loop over `e820_entrys`. -/
def addEntry (L : Layout) (blocks : List FreeMemoryBlock) (e : E820Entry) :
    Except Fault (List FreeMemoryBlock) :=
  if e.type ≠ 1 ∨ e.extend ≠ 1 then .ok blocks
  else if pad e ≥ e.size then .ok blocks
  else
    let size := align2m (e.size - pad e)
    if size = 0 then .ok blocks
    else
      let addr := (e.addr + pad e) % 2 ^ 64
      if L.kernel ≥ e.addr ∧ sub64 L.ekernelAlign2m addr ≤ size then do
        let blocks ←
          if L.kernelAlign2m > addr then addBlock blocks addr (L.kernelAlign2m - addr)
          else .ok blocks
        if sub64 L.ekernelAlign2m addr ≠ size then
          addBlock blocks L.ekernelAlign2m (size - sub64 L.ekernelAlign2m addr)
        else .ok blocks
      else
        addBlock blocks addr size

def addEntries (L : Layout) :
    List FreeMemoryBlock → List E820Entry → Except Fault (List FreeMemoryBlock)
  | blocks, [] => .ok blocks
  | blocks, e :: es => do
    let blocks ← addEntry L blocks e
    addEntries L blocks es

/-- The blocks of the superblock, which covers the whole address space. -/
def superBlocks (L : Layout) (e : E820Entry) : Except Fault (List FreeMemoryBlock) :=
  if e.type ≠ 1 ∨ e.extend ≠ 1 then .error (.abort "can't find free page!\n")
  else do
    let blocks ←
      if L.kernelAlign2m ≠ 0x1000000 then
        addBlock [] 0x1000000 (L.kernelAlign2m - 0x1000000)
      else .ok []
    addBlock blocks L.ekernelAlign2m (2 ^ 64 - 1 - L.ekernelAlign2m + 1)

def freeBlocks (L : Layout) : List E820Entry → Except Fault (List FreeMemoryBlock)
  | [e] => if e.size = 0 then superBlocks L e else addEntries L [] [e]
  | es => addEntries L [] es

/-- The current block is the head of `blocks`. -/
structure FreePagesIterator where
  blocks : List FreeMemoryBlock
  addr : ℕ
  addrMax : ℕ

/-- `init_free_pages_iterator`, and the move to the next block. -/
def initFreePagesIterator : List FreeMemoryBlock → FreePagesIterator
  | [] => ⟨[], 0, 0⟩
  | block :: blocks => ⟨block :: blocks, block.addr, (block.addr + block.size) % 2 ^ 64⟩

def getFreePageInInit (it : FreePagesIterator) : Option ℕ × FreePagesIterator :=
  match it.blocks with
  | [] => (none, it)
  | _ :: rest =>
    let newAddr := (it.addr + 0x200000) % 2 ^ 64
    (some it.addr,
      if newAddr = it.addrMax then initFreePagesIterator rest else { it with addr := newAddr })

/-- The virtual address, after the switch of `cr3`, of what the boot code reaches at physical
address `a`: the first `PT_Page` moves, the kernel image does not. -/
def firstVirt (first a : ℕ) : ℕ :=
  if align2m a = first then firstPtPageVAddr + a % 0x200000 else a

/-- `map_in_first_pt_page`; `first` is the physical address of the page. -/
def mapInFirstPtPage (first : ℕ) (s : State) (ph v : ℕ) : Except Fault State :=
  if s.kernelPt2s (i1 v) (i2 v) ≠ 0 then
    let a := s.kernelPt2s (i1 v) (i2 v)
    let pt3 := firstVirt first (a - a % 0x1000)
    if s.pageTables pt3 (i3 v) ≠ 0 then
      .error (.abort "remap a page!\n")
    else
      .ok (setEntry (ptDecFreeEntrysNum s pt3) pt3 (i3 v) (pageEntry ph))
  else if (s.freeIds firstPtPageVAddr).length ≤ 1 then
    .error (.abort "too many page to map!\n")
  else do
    let (pt3, s) ← newPt3 s (i1 v) (i2 v)
    .ok (setEntry s pt3 (i3 v) (pageEntry ph))

/-- The loop `for (addr = _kernel_align2m; addr < _ekernel; addr += 0x200000)`. -/
def mapKernel (first : ℕ) : ℕ → ℕ → State → Except Fault State
  | 0, _, s => .ok s
  | num + 1, addr, s => do
    let s ← mapInFirstPtPage first s addr addr
    mapKernel first num (addr + 0x200000) s

/-- The static data before `kernel_init_part2`; what memory holds outside it is `ram`. -/
def boot (L : Layout) (ram : State) : State where
  pageTables pt i :=
    if pt = L.nullPt3 then
      if i = 0 then L.nullPt4 + 3
      else if i < 8 then pageEntry (i * 0x200000)
      else 0
    else ram.pageTables pt i
  phAddr := ram.phAddr
  freeIds := ram.freeIds
  freeEntrysNum := ram.freeEntrysNum
  kernelVpt2s := set2 (fun _ _ => 0) 0 0 L.nullPt3
  kernelPt2s := set2 (fun _ _ => 0) 0 0 (L.nullPt3 + 3)
  freePtPages := [firstPtPageVAddr]
  freePtsNum := 0
  ptPagesSp := firstPtPageVAddr
  ptPagesSpMin := 0
  freePages := []

def mapFirst (L : Layout) (ram : State) (first : ℕ) : Except Fault State := do
  let s := initPtPage (boot L ram) firstPtPageVAddr first
  let num := (L.ekernel - L.kernelAlign2m + 0x1fffff) / 0x200000
  let s ← mapKernel first num L.kernelAlign2m s
  let s ← mapInFirstPtPage first s first firstPtPageVAddr
  .ok { s with freePtsNum := (s.freeIds firstPtPageVAddr).length }

/-- `add_pt_page(free_page, --pt_pages_sp)`. -/
def pushPtPage (s : State) (freePage : ℕ) : Except Fault State :=
  let sp := s.ptPagesSp - 0x200000
  addPtPage { s with ptPagesSp := sp } freePage sp

/-- The loop that fills `free_pages`; `room` entries are left below `FREE_PAGES_V_ADDR_MAX`. -/
def buildStack (L : Layout) : ℕ → FreePagesIterator → State → Except Fault State
  | 0, _, s => .ok s
  | room + 1, it, s =>
    match getFreePageInInit it with
    | (none, _) => .ok s
    | (some freePage, it) =>
      let slot := L.ekernelAlign8 + 8 * s.freePages.length
      if slot % 0x200000 = 0 then
        match getFreePageInInit it with
        | (none, _) => pushPtPage s freePage
        | (some freePageForArray, it) => do
          let (ret, it, s) ← ptTryMap getFreePageInInit it s freePageForArray slot false
          if ret ≠ 0 then do
            let s ← pushPtPage s freePage
            pushPtPage s freePageForArray
          else
            buildStack L room it { s with freePages := freePage :: s.freePages }
      else
        buildStack L room it { s with freePages := freePage :: s.freePages }

def kernelInitPart2 (L : Layout) (ram : State) (e820Entrys : List E820Entry) :
    Except Fault State :=
  if L.kernel < 0x1000000 ∨ L.ekernel > 0x100000000 then
    .error (.abort "kernel is not load in [16M, 4G] !\n")
  else if L.virtualNull % 0x200000 ≠ 0 then
    .error (.abort "kernel is not align 2m !\n")
  else do
    let blocks ← freeBlocks L e820Entrys
    match blocks with
    | [] => .error (.abort "can't find free page!\n")
    | block :: rest =>
      if block.addr ≥ 0x8000000000 then
        .error (.abort "can't find free page!\n")
      else
        let blocks :=
          if block.size = 0x200000 then rest
          else ⟨block.addr + 0x200000, block.size - 0x200000⟩ :: rest
        let s ← mapFirst L ram block.addr
        let room := (freePagesVAddrMax - L.ekernelAlign8) / 8
        let s ← buildStack L room (initFreePagesIterator blocks) s
        .ok { s with ptPagesSpMin := L.ekernelAlign8 + 8 * s.freePages.length }

/-- `kernel_init_part2` up to the switch of `cr3`: the free pages that are left, and the state. -/
def beforeStack (L : Layout) (ram : State) (e820Entrys : List E820Entry) :
    Except Fault (FreePagesIterator × State) :=
  if L.kernel < 0x1000000 ∨ L.ekernel > 0x100000000 then
    .error (.abort "kernel is not load in [16M, 4G] !\n")
  else if L.virtualNull % 0x200000 ≠ 0 then
    .error (.abort "kernel is not align 2m !\n")
  else do
    let blocks ← freeBlocks L e820Entrys
    match blocks with
    | [] => .error (.abort "can't find free page!\n")
    | block :: rest =>
      if block.addr ≥ 0x8000000000 then
        .error (.abort "can't find free page!\n")
      else
        let blocks :=
          if block.size = 0x200000 then rest
          else ⟨block.addr + 0x200000, block.size - 0x200000⟩ :: rest
        let s ← mapFirst L ram block.addr
        .ok (initFreePagesIterator blocks, s)

/-- The entries between `_ekernel_align8` and `FREE_PAGES_V_ADDR_MAX`. -/
def stackRoom (L : Layout) : ℕ := (freePagesVAddrMax - L.ekernelAlign8) / 8

theorem kernelInitPart2_eq (L : Layout) (ram : State) (es : List E820Entry) :
    kernelInitPart2 L ram es = (beforeStack L ram es >>= fun r =>
      buildStack L (stackRoom L) r.1 r.2 >>= fun s =>
        .ok { s with ptPagesSpMin := L.ekernelAlign8 + 8 * s.freePages.length }) := by
  unfold kernelInitPart2 beforeStack stackRoom
  generalize buildStack L = build
  split
  · rfl
  split
  · rfl
  cases freeBlocks L es with
  | error f => rfl
  | ok blocks =>
    cases blocks with
    | nil => rfl
    | cons block rest =>
      change (if _ then _ else _) = (if _ then _ else _ : Except Fault _) >>= _
      split
      · rfl
      · cases mapFirst L ram block.addr with
        | error f => rfl
        | ok s => rfl

/-- What the boot loader hands over: the superblock, or a sorted array of disjoint entries, with
the kernel image inside one usable entry. -/
inductive MemoryMap (L : Layout) : List E820Entry → Prop
  | super {e : E820Entry} (h : e.size = 0) : MemoryMap L [e]
  | sorted {es : List E820Entry}
      (hs : es.Pairwise fun a b => a.addr + a.size ≤ b.addr)
      (hb : ∀ e ∈ es, e.addr + e.size ≤ 2 ^ 64)
      (hk : ∃ e ∈ es, e.type = 1 ∧ e.extend = 1 ∧ e.addr ≤ L.kernelAlign2m ∧
        L.ekernelAlign2m ≤ e.addr + e.size) : MemoryMap L es

/-- A machine with 16 MiB of memory from 16M on and a kernel of a little more than 4 MiB. -/
def sampleLayout : Layout where
  virtualNull := 0
  kernel := 0x1000000
  ekernel := 0x1411000
  nullPt3 := 0x1004000
  nullPt4 := 0x1003000
  kernel_mod := by decide
  nullPt3_mod := by decide
  kernel_le_nullPt3 := by decide
  nullPt3_page_le := by decide

def sampleMap : List E820Entry := [⟨0x1000000, 0x1000000, 1, 1⟩]

theorem sampleMap_ok : MemoryMap sampleLayout sampleMap :=
  .sorted (List.pairwise_singleton _ _) (by decide) ⟨_, List.mem_singleton_self _, by decide⟩

/-- Memory as it is when all of it is zero. -/
def zeroRam : State where
  pageTables _ _ := 0
  phAddr _ := 0
  freeIds _ := []
  freeEntrysNum _ _ := 0
  kernelVpt2s _ _ := 0
  kernelPt2s _ _ := 0
  freePtPages := []
  freePtsNum := 0
  ptPagesSp := 0
  ptPagesSpMin := 0
  freePages := []

end MyosIo.Mm
