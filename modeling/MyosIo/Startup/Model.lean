import Mathlib.Data.Fintype.Card
import Mathlib.Logic.Function.Basic
import MyosIo.Lib.Run

/-! `kernel_init_part4` on the boot processor and `ap_start64` with `ap_init0` on the others,
every access to a variable they share one step. `C` are the application processors that come to
`ap_start64`. -/
namespace MyosIo.Startup

open Function

variable {C : Type*}

/-- What `__ap_startup_code_xcr0_usable_bits` starts with. -/
def initBits : BitVec 32 := 0b11100111#32

/-- The processors: what `ap_start16` found them to support (`%esi`), whether `cpuid` reports
`syscall` and `IA32_APIC_BASE` an enabled local APIC, and the size of the save area under an
`XCR0`. -/
structure Machine (C : Type*) where
  expectCoresNum : ℕ
  usable : C → BitVec 32
  syscall : C → Bool
  apic : C → Bool
  xsaveSize : C → BitVec 32 → ℕ
  bspUsable : BitVec 32
  bspXsaveSize : BitVec 32 → ℕ

/-- Why a processor is at `.Lerror`. -/
inductive Fault
  | syscall
  | surplus
  | apic
  deriving DecidableEq

/-- Where an application processor is; `all` is `%rsi` and `written` is `%rax`. -/
inductive Ap
  | off
  -- ap_start64
  | andl
  | loadAll
  | loadWritten (all : ℕ)
  | cmp (all written : ℕ)
  | apicBase (all : ℕ)
  | xadd (all : ℕ)
  -- ap_init0
  | barrier (all : ℕ)
  | load
  | loadMax (size : ℕ)
  | raise (size cur : ℕ)
  | finish
  | emptyLoop
  -- .Lerror
  | error (why : Fault)
  | halted (why : Fault)

/-- Where `kernel_init_part4` is; `size` is its own `this_xsave_size`. -/
inductive Bsp
  | start
  | fetchAnd
  | sipi
  | barrier
  | load
  | wait (size : ℕ)
  | loadMax (size : ℕ)
  | check
  | returned
  | aborted

/-- `coreDatas` counts the `Core_Data` taken from the array, and `coreData c` is the one `c`
took. -/
structure State (C : Type*) where
  allCoresNum : ℕ
  usableBits : BitVec 32
  writtenNum : ℕ
  coreDatas : ℕ
  coreData : C → Option ℕ
  maxXsaveSize : ℕ
  finishedNum : ℕ
  errorFlag : Bool
  xsaveAreaSize : ℕ
  sipi : Bool
  xcr0 : C → Option (BitVec 32)
  bspXcr0 : Option (BitVec 32)
  ap : C → Ap
  bsp : Bsp

def boot : State C where
  allCoresNum := 0
  usableBits := initBits
  writtenNum := 1
  coreDatas := 0
  coreData _ := none
  maxXsaveSize := 0
  finishedNum := 0
  errorFlag := false
  xsaveAreaSize := 0
  sipi := false
  xcr0 _ := none
  bspXcr0 := none
  ap _ := .off
  bsp := .start

variable [DecidableEq C]

def State.setAp (s : State C) (c : C) (p : Ap) : State C := { s with ap := update s.ap c p }

/-- The steps of the boot processor and of the others. -/
inductive Step (m : Machine C) (s : State C) : Option C → State C → Prop
  | alone (h : s.bsp = .start) (hn : m.expectCoresNum ≤ 1) :
      Step m s none { s with
        bspXcr0 := some (m.bspUsable &&& initBits)
        xsaveAreaSize := m.bspXsaveSize (m.bspUsable &&& initBits)
        bsp := .returned }
  | storeAll (h : s.bsp = .start) (hn : ¬m.expectCoresNum ≤ 1) :
      Step m s none { s with allCoresNum := m.expectCoresNum, bsp := .fetchAnd }
  | fetchAnd (h : s.bsp = .fetchAnd) :
      Step m s none { s with usableBits := s.usableBits &&& m.bspUsable, bsp := .sipi }
  | sipi (h : s.bsp = .sipi) : Step m s none { s with sipi := true, bsp := .barrier }
  | bspBarrier (h : s.bsp = .barrier) (hw : s.writtenNum = m.expectCoresNum) :
      Step m s none { s with bsp := .load }
  | bspLoad (h : s.bsp = .load) :
      Step m s none { s with
        bspXcr0 := some s.usableBits
        bsp := .wait (m.bspXsaveSize s.usableBits) }
  | bspWait (size : ℕ) (h : s.bsp = .wait size) (hf : s.finishedNum = m.expectCoresNum - 1) :
      Step m s none { s with bsp := .loadMax size }
  | bspMax (size : ℕ) (h : s.bsp = .loadMax size) :
      Step m s none { s with
        xsaveAreaSize := if size > s.maxXsaveSize then size else s.maxXsaveSize
        bsp := .check }
  | bspReturn (h : s.bsp = .check) (he : s.errorFlag = false) :
      Step m s none { s with bsp := .returned }
  | bspAbort (h : s.bsp = .check) (he : s.errorFlag = true) :
      Step m s none { s with bsp := .aborted }
  | start (c : C) (h : s.ap c = .off) (hs : s.sipi = true) (hc : m.syscall c = true) :
      Step m s c (s.setAp c .andl)
  | noSyscall (c : C) (h : s.ap c = .off) (hs : s.sipi = true) (hc : m.syscall c = false) :
      Step m s c (s.setAp c (.error .syscall))
  | andl (c : C) (h : s.ap c = .andl) :
      Step m s c ({ s with usableBits := s.usableBits &&& m.usable c }.setAp c .loadAll)
  | loadAll (c : C) (h : s.ap c = .loadAll) :
      Step m s c (s.setAp c (.loadWritten s.allCoresNum))
  | loadWritten (c : C) (all : ℕ) (h : s.ap c = .loadWritten all) :
      Step m s c (s.setAp c (.cmp all s.writtenNum))
  | reject (c : C) (all written : ℕ) (h : s.ap c = .cmp all written) (hw : written ≥ all) :
      Step m s c (s.setAp c (.error .surplus))
  | cas (c : C) (all written : ℕ) (h : s.ap c = .cmp all written) (hw : ¬written ≥ all)
      (he : s.writtenNum = written) :
      Step m s c ({ s with writtenNum := written + 1 }.setAp c (.apicBase all))
  | casFail (c : C) (all written : ℕ) (h : s.ap c = .cmp all written) (hw : ¬written ≥ all)
      (he : s.writtenNum ≠ written) : Step m s c (s.setAp c (.cmp all s.writtenNum))
  | apicOn (c : C) (all : ℕ) (h : s.ap c = .apicBase all) (hc : m.apic c = true) :
      Step m s c (s.setAp c (.xadd all))
  | apicOff (c : C) (all : ℕ) (h : s.ap c = .apicBase all) (hc : m.apic c = false) :
      Step m s c (s.setAp c (.error .apic))
  | xadd (c : C) (all : ℕ) (h : s.ap c = .xadd all) :
      Step m s c ({ s with
        coreDatas := s.coreDatas + 1
        coreData := update s.coreData c (some s.coreDatas) }.setAp c (.barrier all))
  | barrier (c : C) (all : ℕ) (h : s.ap c = .barrier all) (hw : s.writtenNum = all) :
      Step m s c (s.setAp c .load)
  | load (c : C) (h : s.ap c = .load) :
      Step m s c ({ s with xcr0 := update s.xcr0 c (some s.usableBits) }.setAp c
        (.loadMax (m.xsaveSize c s.usableBits)))
  | loadMax (c : C) (size : ℕ) (h : s.ap c = .loadMax size) :
      Step m s c (s.setAp c (.raise size s.maxXsaveSize))
  | keep (c : C) (size cur : ℕ) (h : s.ap c = .raise size cur) (hc : ¬size > cur) :
      Step m s c (s.setAp c .finish)
  | raise (c : C) (size cur : ℕ) (h : s.ap c = .raise size cur) (hc : size > cur)
      (he : s.maxXsaveSize = cur) :
      Step m s c ({ s with maxXsaveSize := size }.setAp c .finish)
  | raiseFail (c : C) (size cur : ℕ) (h : s.ap c = .raise size cur) (hc : size > cur)
      (he : s.maxXsaveSize ≠ cur) : Step m s c (s.setAp c (.raise size s.maxXsaveSize))
  | finish (c : C) (h : s.ap c = .finish) :
      Step m s c ({ s with finishedNum := s.finishedNum + 1 }.setAp c .emptyLoop)
  | error (c : C) (why : Fault) (h : s.ap c = .error why) :
      Step m s c ({ s with errorFlag := true }.setAp c (.halted why))

/-- The processor is counted in `writtenNum`. -/
def Ap.counted : Ap → ℕ
  | .apicBase _ | .xadd _ | .barrier _ | .load | .loadMax _ | .raise _ _ | .finish | .emptyLoop => 1
  | .error why | .halted why => if why = .apic then 1 else 0
  | _ => 0

/-- The processor is in `ap_init0` or on its way there. -/
def Joined (m : Machine C) (s : State C) (c : C) : Prop :=
  (s.ap c).counted = 1 ∧ m.apic c = true

/-- The bits that are in `initBits` and usable on the boot processor and on every processor in
`ap_init0`. -/
def Common (m : Machine C) (s : State C) (v : BitVec 32) : Prop :=
  ∀ i, v.getLsbD i = true ↔ initBits.getLsbD i = true ∧ m.bspUsable.getLsbD i = true ∧
    ∀ c, Joined m s c → (m.usable c).getLsbD i = true

/-- Every `XCR0` that has been set is the common one, and the save area `kernel_init_part4`
leaves behind is large enough for every processor. -/
structure Agreed (m : Machine C) (s : State C) : Prop where
  xcr0 : ∀ c v, s.xcr0 c = some v → Common m s v
  bspXcr0 : ∀ v, s.bspXcr0 = some v → Common m s v
  area : s.bsp = .returned → ∀ c, Joined m s c →
    ∃ v, s.xcr0 c = some v ∧ m.xsaveSize c v ≤ s.xsaveAreaSize
  bspArea : s.bsp = .returned →
    ∃ v, s.bspXcr0 = some v ∧ m.bspXsaveSize v ≤ s.xsaveAreaSize

end MyosIo.Startup
