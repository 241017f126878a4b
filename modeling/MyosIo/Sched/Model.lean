import Mathlib.Logic.Function.Basic
import Mathlib.Data.Fintype.Card
import MyosIo.Lib.Run

/-! `set_thread_schedulable.s`, `empty_switch.s`, `timer_isr.s`, `new_thread_isr.s` and the
wake-up in `keyboard_isr.s`, any number of cores: every access to the three counters, to the
`running_thread` of a core and to the `proc` of a thread is one step. The list is appended to by
an exchange and a later link; the spinlock under which its front is removed serves in order, as it
does in `Sched.Memory` while no node of it is used twice. All threads are kernel threads. -/
namespace MyosIo.Sched

open Function

variable {C T P : Type*}

/-- Where a core is. `ts` are the threads being made schedulable and `n` is their number; `cur`
is the thread `timer_isr` has interrupted, and `none` for `switch_to_empty`. -/
inductive Pc (T : Type*)
  | run
  -- set_thread_schedulable
  | link (ts : List T)
  | incNum (n : ℕ)
  | testNum (n : ℕ)
  | testIdle (n : ℕ)
  | ipi (n : ℕ)
  | incOld (n : ℕ)
  -- leaving a thread that is on a wait queue already
  | leave
  | handOff (u : T)
  -- switch_to_empty
  | announce
  | setNull
  | window
  | withdraw
  | load
  | reserve (v : ℕ)
  | reannounce
  | idle
  | decOld
  -- al_delete_front_force under the lock
  | lock (cur : Option T)
  | spin (cur : Option T)
  | pop (cur : Option T)
  | unlock (cur : Option T) (t : T)
  | clear (cur : Option T) (t : T)
  -- timer_isr
  | tickFail
  | tick
  | tickAppend (me : T)
  | tickLink (me : T)
  | finish (me t : T)
  -- keyboard_isr on an idle core
  | wake (t : T)
  -- switch_to
  | switch (t : T)
  deriving DecidableEq

/-- `blocked t` says that `t` is on a wait queue, from where one operation may take it.
`coreProc c` is the process pointer core `c` carries while it is between two threads. -/
structure State (C T P : Type*) where
  queue : List T
  blocked : T → Bool
  num : ℕ
  old : ℤ
  idle : ℕ
  lock : List C
  pending : C → Bool
  running : C → Option T
  coreProc : C → P
  threadProc : T → P
  pc : C → Pc T

inductive Event (C T : Type*)
  | tick (c : C)
  | keyboard (c : C)
  | skip (c : C)
  | remove (c : C) (t : T)
  | dispatch (c : C) (t : T)
  | silent
  deriving DecidableEq

variable [DecidableEq C] [DecidableEq T]

/-- The first core runs the main thread, the others are in `empty_loop`. -/
def boot [Fintype C] (bsp : C) (main : T) (proc : C → P) : State C T P where
  queue := []
  blocked t := t ≠ main
  num := 0
  old := 0
  idle := Fintype.card C - 1
  lock := []
  pending _ := false
  running c := if c = bsp then some main else none
  coreProc := proc
  threadProc _ := proc bsp
  pc c := if c = bsp then .run else .idle

def State.setPc (s : State C T P) (c : C) (p : Pc T) : State C T P :=
  { s with pc := update s.pc c p }

/-- The thread whose node the core still has to link. -/
def Pc.owes : Pc T → Option T
  | .link ts => ts.head?
  | .tickLink me => some me
  | _ => none

def State.linked (s : State C T P) (t : T) : Prop := ∀ c, (s.pc c).owes ≠ some t

instance [Fintype C] {s : State C T P} {t : T} : Decidable (s.linked t) :=
  inferInstanceAs (Decidable (∀ c, (s.pc c).owes ≠ some t))

/-- `schedulable_threads` and the wait queues after the exchange that appends `ts`. -/
def State.append (s : State C T P) (ts : List T) : State C T P :=
  { s with
    queue := s.queue ++ ts
    blocked := fun t => if t ∈ ts then false else s.blocked t }

inductive Step : State C T P → Event C T → State C T P → Prop
  -- set_thread_schedulable, set_threads_schedulable, and the same in keyboard_isr
  | append {s : State C T P} {c : C} {ts : List T} (hp : s.pc c = .run) (hne : ts ≠ [])
      (hnd : ts.Nodup) (hb : ∀ t ∈ ts, s.blocked t = true) :
      Step s .silent ((s.append ts).setPc c (.link ts))
  | keyboardBusy {s : State C T P} {c : C} {t : T} (hp : s.pc c = .run)
      (hb : s.blocked t = true) :
      Step s (.keyboard c) ((s.append [t]).setPc c (.link [t]))
  | link {s : State C T P} {c : C} {ts : List T} (hp : s.pc c = .link ts) :
      Step s .silent (s.setPc c (.incNum ts.length))
  | incNum {s : State C T P} {c : C} {n : ℕ} (hp : s.pc c = .incNum n) :
      Step s .silent { s.setPc c (.testNum n) with num := s.num + n }
  | testNum {s : State C T P} {c : C} {n : ℕ} (hp : s.pc c = .testNum n) :
      Step s .silent (s.setPc c (if s.num = 0 then .incOld n else .testIdle n))
  | skip {s : State C T P} {c : C} {n : ℕ} (hp : s.pc c = .testIdle n) (hi : s.idle = 0) :
      Step s (.skip c) (s.setPc c (.incOld n))
  | testIdle {s : State C T P} {c : C} {n : ℕ} (hp : s.pc c = .testIdle n) (hi : s.idle ≠ 0) :
      Step s .silent (s.setPc c (.ipi n))
  | ipi {s : State C T P} {c : C} {n : ℕ} (hp : s.pc c = .ipi n) :
      Step s .silent
        { s.setPc c (.incOld n) with pending := fun d => d ≠ c || s.pending d }
  | incOld {s : State C T P} {c : C} {n : ℕ} (hp : s.pc c = .incOld n) :
      Step s .silent { s.setPc c .run with old := s.old + n }
  -- mtx_lock, cnd_wait and keyboard_thread give up the core
  | publish {s : State C T P} {c : C} {t : T} (hp : s.pc c = .run) (hr : s.running c = some t) :
      Step s .silent { s.setPc c .leave with blocked := update s.blocked t true }
  | giveTo {s : State C T P} {c : C} {u : T} (hp : s.pc c = .leave) (hb : s.blocked u = true) :
      Step s .silent { s.setPc c (.handOff u) with blocked := update s.blocked u false }
  | readProc {s : State C T P} {c : C} {t : T} (hp : s.pc c = .leave)
      (hr : s.running c = some t) :
      Step s .silent
        { s.setPc c .announce with coreProc := update s.coreProc c (s.threadProc t) }
  | readProcHandOff {s : State C T P} {c : C} {t u : T} (hp : s.pc c = .handOff u)
      (hr : s.running c = some t) :
      Step s .silent
        { s.setPc c (.switch u) with coreProc := update s.coreProc c (s.threadProc t) }
  -- switch_to_empty
  | announce {s : State C T P} {c : C} (hp : s.pc c = .announce) :
      Step s .silent { s.setPc c .setNull with idle := s.idle + 1 }
  | setNull {s : State C T P} {c : C} (hp : s.pc c = .setNull) :
      Step s .silent { s.setPc c .window with running := update s.running c none }
  | cli {s : State C T P} {c : C} (hp : s.pc c = .window) :
      Step s .silent (s.setPc c .withdraw)
  | withdraw {s : State C T P} {c : C} (hp : s.pc c = .withdraw) :
      Step s .silent { s.setPc c .load with idle := s.idle - 1 }
  | load {s : State C T P} {c : C} (hp : s.pc c = .load) :
      Step s .silent (s.setPc c (if s.num = 0 then .reannounce else .reserve s.num))
  | casOk {s : State C T P} {c : C} {v : ℕ} (hp : s.pc c = .reserve v) (hn : s.num = v) :
      Step s .silent { s.setPc c .decOld with num := v - 1 }
  | casFail {s : State C T P} {c : C} {v : ℕ} (hp : s.pc c = .reserve v) (hn : s.num ≠ v) :
      Step s .silent (s.setPc c (if s.num = 0 then .reannounce else .reserve s.num))
  | reannounce {s : State C T P} {c : C} (hp : s.pc c = .reannounce) :
      Step s .silent { s.setPc c .idle with idle := s.idle + 1 }
  | decOld {s : State C T P} {c : C} (hp : s.pc c = .decOld) :
      Step s .silent { s.setPc c (.lock none) with old := s.old - 1 }
  -- al_delete_front_force under schedulable_threads_lock
  | lock {s : State C T P} {c : C} {cur : Option T} (hp : s.pc c = .lock cur) :
      Step s .silent { s.setPc c (.spin cur) with lock := s.lock ++ [c] }
  | grant {s : State C T P} {c : C} {cur : Option T} (hp : s.pc c = .spin cur)
      (hl : s.lock.head? = some c) : Step s .silent (s.setPc c (.pop cur))
  | remove {s : State C T P} {c : C} {cur : Option T} {t : T} {q : List T}
      (hp : s.pc c = .pop cur) (hq : s.queue = t :: q) (hl : ∀ u ∈ s.queue.take 2, s.linked u) :
      Step s (.remove c t) { s.setPc c (.unlock cur t) with queue := q }
  | unlock {s : State C T P} {c : C} {cur : Option T} {t : T} (hp : s.pc c = .unlock cur t) :
      Step s .silent { s.setPc c (.clear cur t) with lock := s.lock.tail }
  | clear {s : State C T P} {c : C} {cur : Option T} {t : T} (hp : s.pc c = .clear cur t) :
      Step s .silent
        (s.setPc c (match cur with | none => .switch t | some me => .finish me t))
  -- switch_to, switch_to_interrupt
  | switch {s : State C T P} {c : C} {t : T} (hp : s.pc c = .switch t) :
      Step s (.dispatch c t)
        { s.setPc c .run with
          threadProc := update s.threadProc t (s.coreProc c)
          running := update s.running c (some t) }
  -- timer_isr
  | timerIdle {s : State C T P} {c : C} (hp : s.pc c = .idle ∨ s.pc c = .window) :
      Step s (.tick c) (s.setPc c .window)
  | timer {s : State C T P} {c : C} (hp : s.pc c = .run) :
      Step s (.tick c)
        { s.setPc c (if s.old ≤ 0 then .tickFail else .tick) with old := s.old - 1 }
  | tickFail {s : State C T P} {c : C} (hp : s.pc c = .tickFail) :
      Step s .silent { s.setPc c .run with old := s.old + 1 }
  | tick {s : State C T P} {c : C} {me : T} (hp : s.pc c = .tick) (hr : s.running c = some me) :
      Step s .silent
        { s.setPc c (.tickAppend me) with coreProc := update s.coreProc c (s.threadProc me) }
  | tickAppend {s : State C T P} {c : C} {me : T} (hp : s.pc c = .tickAppend me) :
      Step s .silent { s.setPc c (.tickLink me) with queue := s.queue ++ [me] }
  | tickLink {s : State C T P} {c : C} {me : T} (hp : s.pc c = .tickLink me) :
      Step s .silent (s.setPc c (.lock (some me)))
  | finish {s : State C T P} {c : C} {me t : T} (hp : s.pc c = .finish me t) :
      Step s .silent { s.setPc c (if t = me then .run else .switch t) with old := s.old + 1 }
  -- new_thread_isr
  | deliverIdle {s : State C T P} {c : C} (hp : s.pc c = .idle ∨ s.pc c = .window)
      (hi : s.pending c = true) :
      Step s .silent { s.setPc c .window with pending := update s.pending c false }
  | deliverRun {s : State C T P} {c : C} (hp : s.pc c = .run) (hi : s.pending c = true) :
      Step s .silent { s with pending := update s.pending c false }
  -- keyboard_isr on an idle core
  | keyboardIdle {s : State C T P} {c : C} {t : T} (hp : s.pc c = .idle ∨ s.pc c = .window)
      (hb : s.blocked t = true) :
      Step s (.keyboard c) { s.setPc c (.wake t) with blocked := update s.blocked t false }
  | wake {s : State C T P} {c : C} {t : T} (hp : s.pc c = .wake t) :
      Step s .silent { s.setPc c (.switch t) with idle := s.idle - 1 }

end MyosIo.Sched
