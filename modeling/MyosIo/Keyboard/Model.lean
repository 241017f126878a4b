import Mathlib.Algebra.Group.Nat.Defs
import Mathlib.Logic.Function.Basic
import MyosIo.Lib.Run

/-! `keyboard_isr` (one core, one invocation at a time) and `keyboard_thread`, every access to
`keyboard_buf`, `keyboard_buf_used`, `keyboard_buf_ii` and `keyboard_sleeping_thread` one step.
`keyboard_buf_ii` and `keyboard_buf_used` are 32 bits wide, and the index the ISR stores to is
kept in a `const uint16_t`. -/
namespace MyosIo.Keyboard

open Function

abbrev Code := UInt16

/-- `KEYBOARD_BUF_SIZE`. -/
def bufSize : ℕ := 0x200000

/-- `KEYBOARD_THREAD_BUF_SIZE`. -/
def threadBufSize : ℕ := 65536

/-- `const uint16_t temp_i = ii & (KEYBOARD_BUF_SIZE - 1)`. -/
def tempI (ii : ℕ) : ℕ := (ii &&& (bufSize - 1)) % 2 ^ 16

/-- What `keyboard_sleeping_thread` holds. -/
inductive Sleeping
  | null
  | one
  | thread
  deriving DecidableEq

/-- Where `keyboard_isr` is; `direct` says that it interrupted an idle core and will switch to
the woken thread itself. -/
inductive Isr
  | idle
  | reserve (tempUsed : ℕ)
  | wake
  | rouse
  | inb (direct : Bool)
  | index (code : Code) (direct : Bool)
  | store (i : ℕ) (code : Code) (direct : Bool)
  | switchTo
  | abort

/-- Where `keyboard_thread` is; `num` is `key_codes_num`. -/
inductive Thread
  | sleep
  | clear
  | first
  | firstZero (code : Code)
  | firstSub
  | next (num : ℕ)
  | nextClear (num : ℕ) (code : Code)
  | nextZero (num : ℕ) (code : Code)
  | nextSub (num : ℕ)
  | translate

/-- Whether `keyboard_thread` has a core, has given it up, or is on `schedulable_threads`. -/
inductive Place
  | running
  | asleep
  | schedulable
  | resuming
  deriving DecidableEq

structure State where
  buf : ℕ → Code
  used : ℕ
  ii : ℕ
  sleeping : Sleeping
  isr : Isr
  thread : Thread
  place : Place
  oi : ℕ
  lastUsed : ℕ

/-- The events of a run: a key code accepted, stored to a slot, taken out of a slot. -/
inductive Event
  | accept (code : Code)
  | store (slot : ℕ)
  | take (slot : ℕ) (code : Code)
  | silent

def initial : State where
  buf _ := 0
  used := 0
  ii := 0
  sleeping := .null
  isr := .idle
  thread := .sleep
  place := .running
  oi := 0
  lastUsed := 0

/-- After the reservation, `if (temp_used == 0)` wakes the thread. -/
def afterReserve (tempUsed : ℕ) : Isr := if tempUsed = 0 then .wake else .inb false

inductive Step : State → Event → State → Prop
  -- keyboard_isr
  | load {s : State} (hp : s.isr = .idle) :
      Step s .silent { s with isr := .reserve s.used }
  | full {s : State} (hp : s.isr = .reserve bufSize) : Step s .silent { s with isr := .idle }
  | reserve {s : State} {tempUsed : ℕ} (hp : s.isr = .reserve tempUsed) (hn : tempUsed ≠ bufSize)
      (hc : s.used = tempUsed) :
      Step s .silent
        { s with used := (tempUsed + 1) % 2 ^ 32, isr := afterReserve tempUsed }
  | reserveFail {s : State} {tempUsed : ℕ} (hp : s.isr = .reserve tempUsed)
      (hn : tempUsed ≠ bufSize) (hc : s.used ≠ tempUsed) :
      Step s .silent { s with isr := .reserve s.used }
  | wakeAwake {s : State} (hp : s.isr = .wake) (hs : s.sleeping = .null) :
      Step s .silent { s with sleeping := .one, isr := .inb false }
  | wakeAsleep {s : State} (hp : s.isr = .wake) (hs : s.sleeping ≠ .null) :
      Step s .silent { s with isr := .rouse }
  | rouseBusy {s : State} (hp : s.isr = .rouse) (hs : s.sleeping = .thread) :
      Step s .silent { s with place := .schedulable, isr := .inb false }
  | rouseIdle {s : State} (hp : s.isr = .rouse) (hs : s.sleeping = .thread) :
      Step s .silent { s with place := .resuming, isr := .inb true }
  | rouseWild {s : State} (hp : s.isr = .rouse) (hs : s.sleeping ≠ .thread) :
      Step s .silent { s with isr := .abort }
  | inb {s : State} {direct : Bool} {code : Code} (hp : s.isr = .inb direct) (hc : code ≠ 0) :
      Step s (.accept code) { s with isr := .index code direct }
  | inbAbort {s : State} {direct : Bool} (hp : s.isr = .inb direct) :
      Step s .silent { s with isr := .abort }
  | index {s : State} {code : Code} {direct : Bool} (hp : s.isr = .index code direct) :
      Step s .silent
        { s with ii := (s.ii + 1) % 2 ^ 32, isr := .store (tempI s.ii) code direct }
  | store {s : State} {i : ℕ} {code : Code} {direct : Bool} (hp : s.isr = .store i code direct) :
      Step s (.store i)
        { s with buf := update s.buf i code, isr := if direct then .switchTo else .idle }
  | switchTo {s : State} (hp : s.isr = .switchTo) :
      Step s .silent { s with place := .running, isr := .idle }
  -- the scheduler
  | dispatch {s : State} (hp : s.place = .schedulable) :
      Step s .silent { s with place := .running }
  -- keyboard_thread
  | sleepOk {s : State} (hr : s.place = .running) (ht : s.thread = .sleep)
      (hs : s.sleeping = .null) :
      Step s .silent { s with sleeping := .thread, thread := .clear, place := .asleep }
  | sleepFail {s : State} (hr : s.place = .running) (ht : s.thread = .sleep)
      (hs : s.sleeping ≠ .null) :
      Step s .silent { s with thread := .clear }
  | clear {s : State} (hr : s.place = .running) (ht : s.thread = .clear) :
      Step s .silent { s with sleeping := .null, thread := .first }
  | first {s : State} (hr : s.place = .running) (ht : s.thread = .first) (hb : s.buf s.oi ≠ 0) :
      Step s .silent { s with thread := .firstZero (s.buf s.oi) }
  | firstZero {s : State} {code : Code} (hr : s.place = .running)
      (ht : s.thread = .firstZero code) :
      Step s (.take s.oi code)
        { s with buf := update s.buf s.oi 0, oi := s.oi + 1, thread := .firstSub }
  | firstSub {s : State} (hr : s.place = .running) (ht : s.thread = .firstSub) :
      Step s .silent
        { s with
          lastUsed := s.used
          used := (s.used + (2 ^ 32 - 1)) % 2 ^ 32
          oi := s.oi &&& (bufSize - 1)
          thread := .next 1 }
  | nextEmpty {s : State} {num : ℕ} (hr : s.place = .running) (ht : s.thread = .next num)
      (hb : s.buf s.oi = 0) :
      Step s .silent { s with thread := .translate }
  | next {s : State} {num : ℕ} (hr : s.place = .running) (ht : s.thread = .next num)
      (hb : s.buf s.oi ≠ 0) :
      Step s .silent
        { s with
          thread :=
            if s.lastUsed = 1 then .nextClear num (s.buf s.oi) else .nextZero num (s.buf s.oi) }
  | nextClear {s : State} {num : ℕ} {code : Code} (hr : s.place = .running)
      (ht : s.thread = .nextClear num code) :
      Step s .silent { s with sleeping := .null, thread := .nextZero num code }
  | nextZero {s : State} {num : ℕ} {code : Code} (hr : s.place = .running)
      (ht : s.thread = .nextZero num code) :
      Step s (.take s.oi code)
        { s with buf := update s.buf s.oi 0, oi := s.oi + 1, thread := .nextSub num }
  | nextSub {s : State} {num : ℕ} (hr : s.place = .running) (ht : s.thread = .nextSub num) :
      Step s .silent
        { s with
          lastUsed := s.used
          used := (s.used + (2 ^ 32 - 1)) % 2 ^ 32
          oi := s.oi &&& (bufSize - 1)
          thread := if num + 1 = threadBufSize then .translate else .next (num + 1) }
  | translate {s : State} (hr : s.place = .running) (ht : s.thread = .translate) :
      Step s .silent { s with thread := if s.lastUsed = 1 then .sleep else .first }

/-- The key codes the ISR accepted, in order. -/
def accepted (xs : List Event) : List Code :=
  xs.filterMap fun | .accept c => some c | _ => none

/-- The slots the ISR stored to, in order. -/
def stored (xs : List Event) : List ℕ :=
  xs.filterMap fun | .store i => some i | _ => none

/-- The key codes the thread took out, in order. -/
def taken (xs : List Event) : List Code :=
  xs.filterMap fun | .take _ c => some c | _ => none

/-- The slot `keyboard_thread` reads for its `k`-th event. -/
def threadSlot : ℕ → ℕ
  | 0 => 0
  | k + 1 => (threadSlot k + 1) &&& (bufSize - 1)

/-- The slot `keyboard_isr` stores its `k`-th event to. -/
def isrSlot (k : ℕ) : ℕ := tempI (k % 2 ^ 32)

/-- The ring as a lossless queue: what was taken is what was accepted first, an event that was
stored and not taken is in the slot the thread will read, and the slots agree. -/
structure Lossless (xs : List Event) (s : State) : Prop where
  order : taken xs <+: accepted xs
  kept : ∀ k, (taken xs).length ≤ k → k < (stored xs).length →
    (accepted xs)[k]? = some (s.buf (threadSlot k))
  slots : ∀ k (h : k < (stored xs).length), (stored xs)[k] = threadSlot k

end MyosIo.Keyboard
