import Mathlib.Algebra.Group.Nat.Defs
import Mathlib.Data.List.Basic
import Mathlib.Data.UInt
import MyosIo.Mm.Model

/-! The boot loader first loads the rest of itself (`code16.s`), then `load_kernel` loads the
kernel through a buffer behind the boot loader. The BIOS reads whole sectors; the variables of the
boot loader that change on the way (`ldap`, `next_load_sec_id` and the next address) are kept
apart from the memory. -/
namespace MyosIo.Boot

open Mm (Fault)

/-- The bytes of each sector. -/
abbrev Disk := ℕ → ℕ → UInt8

structure LDAP where
  size : ℕ
  pad : ℕ
  secsNum : ℕ
  offset : ℕ
  segment : ℕ
  secId : ℕ

/-- The carry flag and `ah` after a call of the BIOS. -/
structure Answer where
  carry : Bool
  ah : ℕ

def Answer.failed (a : Answer) : Bool := a.carry ∨ a.ah ≠ 0

/-- What the `n`-th call of `int 0x13` answers, and what it makes of the memory. -/
structure Bios where
  answer : ℕ → Answer
  read : ℕ → LDAP → (ℕ → UInt8) → ℕ → UInt8

structure Machine where
  mem : ℕ → UInt8
  nextLoadSecId : ℕ
  /-- The requests the BIOS has fulfilled. -/
  requests : List LDAP

/-- Memory with the sectors of a request where they are to be. -/
def readSectors (disk : Disk) (l : LDAP) (mem : ℕ → UInt8) : ℕ → UInt8 := fun a =>
  let start := l.segment * 16 + l.offset
  if start ≤ a ∧ a < start + 512 * l.secsNum then
    disk (l.secId + (a - start) / 512) ((a - start) % 512)
  else mem a

/-- `memcpy`. -/
def memcpy (dst src n : ℕ) (mem : ℕ → UInt8) : ℕ → UInt8 := fun a =>
  if dst ≤ a ∧ a < dst + n then mem (src + (a - dst)) else mem a

/-- The BIOS reads sectors of the disk: a call that does not fail has read what was asked for. -/
def Bios.Serves (bios : Bios) (disk : Disk) : Prop :=
  ∀ n l mem, ¬ (bios.answer n).failed → bios.read n l mem = readSectors disk l mem

section
variable (bios : Bios)

/-- A read and the check of its result. -/
def int13 (message : String) (l : LDAP) (m : Machine) : Except Fault Machine :=
  let n := m.requests.length
  if (bios.answer n).failed then .error (.abort message)
  else .ok { m with mem := bios.read n l m.mem, requests := m.requests ++ [l] }

/-- `.Lerror`. -/
def bootSectorError : String := "Error in boot sector, abort!"

/-- The sectors after the first one, up to `0x10000` at most, for an `_ebootloader_align512` of
`stop`. -/
def loadPart1 (stop : ℕ) (m : Machine) : Except Fault Machine :=
  if stop ≥ 0x10000 then
    int13 bios bootSectorError ⟨0x10, 0, 0x41, 0, 0x7e0, 1⟩ { m with nextLoadSecId := 0x42 }
  else
    let secs := (stop / 512 + 2 ^ 16 - 0x3e) % 2 ^ 16
    int13 bios bootSectorError ⟨0x10, 0, (secs + 2 ^ 16 - 1) % 2 ^ 16, 0, 0x7e0, 1⟩
      { m with nextLoadSecId := secs }

/-- The request at `.LBB0_7`. -/
def loadLast (size address secId : ℕ) (m : Machine) : Except Fault Machine :=
  int13 bios bootSectorError ⟨16, 0, size / 512 % 2 ^ 16, 0, address / 16 % 2 ^ 16, secId⟩
    { m with nextLoadSecId := (secId + size / 512) % 2 ^ 32 }

/-- The loop at `.LBB0_4`. -/
def loadRest (stop address secId : ℕ) (m : Machine) : Except Fault Machine := do
  let m ← int13 bios bootSectorError ⟨16, 0, 127, 0, address / 16 % 2 ^ 16, secId⟩
    { m with nextLoadSecId := (secId + 127) % 2 ^ 32 }
  if h : stop - address - 65024 < 65025 then
    loadLast bios (stop - address - 65024) (address + 65024) m.nextLoadSecId m
  else loadRest stop (address + 65024) m.nextLoadSecId m
termination_by stop - address

/-- `_start_part2`: the part above `0x10000`. -/
def loadPart2 (stop : ℕ) (m : Machine) : Except Fault Machine :=
  if stop < 65537 then .ok m
  else if stop - 65536 < 65025 then loadLast bios (stop - 65536) 65536 66 m
  else loadRest bios stop 65536 66 m

/-- `KERNEL_SIZE_ALIGN512`. -/
def kernelSizeAlign512 (kernelSize : ℕ) : ℕ := (kernelSize + 0x1ff) / 0x200 * 0x200

def loadKernelError : String := "failed to load kernel!\n"

/-- The loop of `load_kernel`, with the buffer at `_ebootloader_align16`. -/
def loadKernelFrom (buffer secsNumNeedLoad pos : ℕ) (m : Machine) : Except Fault Machine :=
  if h : secsNumNeedLoad > 127 then do
    let m ← int13 bios loadKernelError
      ⟨16, 0, 127, 0, buffer / 16 % 2 ^ 16, m.nextLoadSecId⟩ m
    loadKernelFrom buffer (secsNumNeedLoad - 127) ((pos + 127 * 512) % 2 ^ 32)
      { m with
        mem := memcpy pos buffer (127 * 512) m.mem
        nextLoadSecId := (m.nextLoadSecId + 127) % 2 ^ 32 }
  else do
    let m ← int13 bios loadKernelError
      ⟨16, 0, secsNumNeedLoad % 2 ^ 16, 0, buffer / 16 % 2 ^ 16, m.nextLoadSecId⟩ m
    .ok { m with mem := memcpy pos buffer (secsNumNeedLoad * 512) m.mem }
termination_by secsNumNeedLoad
decreasing_by omega

/-- `load_kernel`. -/
def loadKernel (buffer kernelSize pos : ℕ) (m : Machine) : Except Fault Machine :=
  loadKernelFrom bios buffer (kernelSizeAlign512 kernelSize / 512) pos m

end

/-- Sectors from `first` on are in memory from `pos` on. -/
def Holds (disk : Disk) (mem : ℕ → UInt8) (first pos secs : ℕ) : Prop :=
  ∀ i < 512 * secs, mem (pos + i) = disk (first + i / 512) (i % 512)

/-- The sectors of a request. -/
def LDAP.sectors (l : LDAP) : List ℕ := List.range' l.secId l.secsNum

/-- From `m` to `m'` the sectors from `first` on are read once each, in order, at most 127 at a
time. -/
def ReadOnce (first secs : ℕ) (m m' : Machine) : Prop :=
  ∃ rs, m'.requests = m.requests ++ rs ∧ rs.flatMap LDAP.sectors = List.range' first secs ∧
    ∀ l ∈ rs, l.secsNum ≤ 127

end MyosIo.Boot
