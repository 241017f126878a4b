import Mathlib.Logic.Function.Basic
import MyosIo.Acpi.Tables

/-! `map_keyboard_interrupt_to_vector` of the boot loader. The registers of the I/O APICs are
behind two words of memory each, one that selects a register and one that accesses it; they are
kept apart from the memory that holds the tables. -/
namespace MyosIo.Acpi

open Function

/-- An I/O APIC: the selected register and the registers. -/
structure IoApic where
  select : ℕ
  regs : ℕ → BitVec 32

/-- The I/O APICs by their addresses. -/
abbrev Devices := ℕ → IoApic

/-- `read_ioapic_register`. -/
def readIoapicRegister (base offset : ℕ) : StateM Devices (BitVec 32) := fun d =>
  ((d base).regs offset, update d base { d base with select := offset })

/-- `write_ioapic_register`. -/
def writeIoapicRegister (base offset : ℕ) (val : BitVec 32) : StateM Devices Unit := fun d =>
  ((), update d base ⟨offset, update (d base).regs offset val⟩)

section
variable (madt : ℕ → UInt8)

/-- `address` of an I/O APIC. -/
def address (o : ℕ) : ℕ := number madt (o + 4) 4

def gsiBase (o : ℕ) : ℕ := number madt (o + 8) 4

/-- `irq` of an interrupt source override. -/
def overrideIrq (o : ℕ) : ℕ := (madt (o + 3)).toNat

def overrideGsi (o : ℕ) : ℕ := number madt (o + 4) 4

/-- `irq2gsi`; none for a second override. -/
def irq2gsi (irq : ℕ) (overrides : List ℕ) : Option ℕ :=
  match Only.search (fun o => overrideIrq madt o = irq) .none overrides with
  | .none => some irq
  | .one o => some (overrideGsi madt o)
  | .several => none

/-- The largest entry an I/O APIC redirects, in its version register. -/
def maxEntry (reg : BitVec 32) : ℕ := reg.toNat / 2 ^ 16 % 2 ^ 8

/-- The loop of `get_correspond_io_apic`. -/
def correspondFrom (gsi : ℕ) : Only ℕ → List ℕ → StateM Devices (Only ℕ)
  | found, [] => pure found
  | found, o :: ioApics =>
    if gsiBase madt o ≤ gsi then do
      let reg ← readIoapicRegister (address madt o) 1
      if (maxEntry reg + gsiBase madt o) % 2 ^ 32 ≥ gsi then
        if found.add o = .several then pure .several else correspondFrom gsi (found.add o) ioApics
      else correspondFrom gsi found ioApics
    else correspondFrom gsi found ioApics

/-- `parse_madt` as it is called here; it returns within so many turns. -/
def parsed : ℤ × Walk :=
  (parseMadt madt 512 512 (length madt + 1)).getD (0, ⟨0, ⟨[], [], 0⟩, []⟩)

end

/-- The fields of `ret` but `status`. -/
structure Route where
  base : ℕ
  index : ℕ
  coresNum : ℕ

/-- The end of `get_keyboard_ioapic_base_and_index`. -/
def routeOf (madt : ℕ → UInt8) (gsi coresNum : ℕ) : Only ℕ → Except ℤ Route
  | .one o =>
    .ok ⟨address madt o, (gsi + 2 ^ 32 - gsiBase madt o) % 2 ^ 32 % 2 ^ 8, coresNum⟩
  | _ => .error (-9)

/-- What is found out about the MADT. -/
def getRoute (madt : ℕ → UInt8) : StateM Devices (Except ℤ Route) :=
  let (status, w) := parsed madt
  if status ≠ 0 then pure (.error (-6))
  else if w.ret.ioApicPtrList = [] then pure (.error (-7))
  else
    match irq2gsi madt 1 w.ret.interruptSourceOverridePtrList with
    | none => pure (.error (-8))
    | some gsi =>
      routeOf madt gsi w.ret.coresNum <$> correspondFrom madt gsi .none w.ret.ioApicPtrList

/-- The way to the MADT. -/
def findMadt (mem : Memory) : Except ℤ ℕ :=
  match findRSDP mem with
  | .error _ => .error (-1)
  | .ok rsdp =>
    let xsdt := number mem (rsdp + 24) 8 % 2 ^ 32
    if revision mem rsdp ≠ 2 then .error (-2)
    else if validACPISDT (view mem xsdt) = false then .error (-3)
    else if strncmp (view mem xsdt) (text xsdtSignature) 4 ≠ 0 then .error (-4)
    else
      match getMadt mem xsdt with
      | .error _ => .error (-5)
      | .ok madt => .ok madt

/-- `get_keyboard_ioapic_base_and_index`. -/
def getKeyboardIoapicBaseAndIndex (mem : Memory) : StateM Devices (Except ℤ Route) :=
  match findMadt mem with
  | .error status => pure (.error status)
  | .ok madt => getRoute (view mem madt)

/-- The end of `map_keyboard_interrupt_to_vector`. -/
def redirect (ret : Route) (apicId vector : BitVec 8) : StateM Devices Unit := do
  let low ← readIoapicRegister ret.base (0x10 + ret.index * 2)
  let high ← readIoapicRegister ret.base (0x10 + ret.index * 2 + 1)
  let low := low &&& 0xFFFE5000#32 ||| vector.setWidth 32
  let high := high &&& 0x00ffffff#32 ||| apicId.setWidth 32 <<< 24
  writeIoapicRegister ret.base (0x10 + ret.index * 2) low
  writeIoapicRegister ret.base (0x10 + ret.index * 2 + 1) high

/-- `map_keyboard_interrupt_to_vector`: `*cores_num`, or none for the status -1. -/
def mapKeyboardInterruptToVector (mem : Memory) (apicId vector : BitVec 8) :
    StateM Devices (Option ℕ) := do
  match ← getKeyboardIoapicBaseAndIndex mem with
  | .error _ => pure none
  | .ok ret =>
    redirect ret apicId vector
    pure (some ret.coresNum)

end MyosIo.Acpi
