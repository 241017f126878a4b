import MyosIo.AlList.Model
import MyosIo.Spinlock.Model
import MyosIo.Sched.Order

/-! `schedulable_threads`, its lock and the nodes of both, as the cores read and write them: every
access of `al_append`, `al_delete_front_force`, `spin_lock` and `spin_unlock` is a step of its
own, in the order of `timer_isr.s`, `empty_switch.s` and `set_thread_schedulable.s`. What touches
neither the list nor the lock is a step of `Sched.Step`. -/
namespace MyosIo.Sched.Memory

open Function AlList

variable {C T P : Type*}

/-- A member of the lock lies on the stack that a core has for itself, or at `-24(%rsp)` on the
stack of a thread that has been interrupted at `sp`. -/
inductive Node (C T : Type*)
  | core (c : C)
  | below (t : T) (sp : ℕ)
  deriving DecidableEq

/-- In `sched`, `queue` are the threads that have been appended and not been removed and `lock` the
cores that have entered the lock and not left it; no step reads them. `got c` is what followed the
thread that core `c` has removed. -/
structure State (C T P : Type*) where
  sched : Sched.State C T P
  mem : Cell Unit T → Option T
  last : Option T
  mtx : Spinlock.State C (Node C T)
  prod : C → Producer Unit T
  cons : C → Consumer T
  got : C → Option T

/-- `enter` is the exchange on the lock. -/
inductive Event (C T : Type*)
  | sched (e : Sched.Event C T)
  | enter (c : C)
  deriving DecidableEq

/-- A core at such a place is outside of `schedulable_threads` and its lock. -/
def aside : Pc T → Bool
  | .link _ | .tickLink _ | .spin _ | .pop _ | .unlock _ _ | .clear _ _ => false
  | _ => true

/-- A core leaves the place where it initialises its member with the member ready. -/
def Prepared (c : C) (p : Spinlock.Pc (Node C T)) : Pc T → Prop
  | .withdraw => p = .ready (.core c)
  | .tickAppend me => ∃ sp, p = .ready (.below me sp)
  | _ => True

/-- The member that a core initialises. -/
def State.places (s : State C T P) (c : C) (m : Node C T) : Prop :=
  s.sched.pc c = .window ∧ m = .core c ∨
    s.sched.pc c = .tick ∧ ∃ me sp, s.sched.running c = some me ∧ m = .below me sp

/-- Where a core goes on with the thread it has removed. -/
def chosen (cur : Option T) (t : T) : Pc T :=
  match cur with
  | none => .switch t
  | some me => .finish me t

variable [DecidableEq C] [DecidableEq T]

def boot [Fintype C] (bsp : C) (main : T) (proc : C → P) (isLocked : Node C T → Bool)
    (next : Node C T → Option (Node C T)) : State C T P where
  sched := Sched.boot bsp main proc
  mem _ := none
  last := none
  mtx := Spinlock.initial isLocked next
  prod _ := .idle
  cons _ := .idle
  got _ := none

def State.setPc (s : State C T P) (c : C) (p : Pc T) : State C T P :=
  { s with sched := s.sched.setPc c p }

def State.setMtx (s : State C T P) (c : C) (p : Spinlock.Pc (Node C T)) : State C T P :=
  { s with mtx := s.mtx.setPc c p }

def State.setCons (s : State C T P) (c : C) (p : Consumer T) : State C T P :=
  { s with cons := update s.cons c p }

def State.store (s : State C T P) (d : Cell Unit T) (v : Option T) : State C T P :=
  { s with mem := update s.mem d v }

/-- The exchange on `schedulable_threads+8` with the end of a chain that starts at `t`. -/
def State.exchangeEnd (s : State C T P) (c : C) (t last : T) : State C T P :=
  { s with last := some last, prod := update s.prod c (.store t (linkCell () s.last)) }

/-- The store that links what has been appended. -/
def State.linkEnd (s : State C T P) (c : C) (t : T) (d : Cell Unit T) : State C T P :=
  { s.store d (some t) with prod := update s.prod c .idle }

/-- `al_delete_front_force` has taken thread `t`, behind which there is `next`. -/
def State.removed (s : State C T P) (c : C) (cur : Option T) (t : T) (next : Option T) :
    State C T P :=
  { s.setCons c (.ret t next) with
    sched := { s.sched.setPc c (.unlock cur t) with queue := s.sched.queue.erase t } }

/-- The core has left the lock. -/
def State.released (s : State C T P) (c : C) (cur : Option T) (t : T) (next : Option T) :
    State C T P :=
  { s.setCons c .idle with
    sched := { s.sched.setPc c (.clear cur t) with lock := s.sched.lock.erase c }
    got := update s.got c next }

inductive Step : State C T P → Event C T → State C T P → Prop
  | aside {s : State C T P} {e : Sched.Event C T} {t : Sched.State C T P}
      (hs : Sched.Step s.sched e t)
      (hpc : ∀ c, t.pc c = s.sched.pc c ∨
        aside (s.sched.pc c) ∧ aside (t.pc c) ∧ Prepared c (s.mtx.pc c) (t.pc c))
      (hword : ∀ u, s.sched.blocked u = true → t.blocked u = false → s.mem (.node u) = none) :
      Step s (.sched e) { s with sched := t }
  -- whoever has a thread on a wait queue writes its `al_node`
  | client {s : State C T P} {t : T} {v : Option T} (hb : s.sched.blocked t = true) :
      Step s (.sched .silent) (s.store (.node t) v)
  -- a thread that runs writes below its stack pointer
  | stack {s : State C T P} {c : C} {t : T} {sp : ℕ} {b : Bool} {n : Option (Node C T)}
      (hp : s.sched.pc c = .run) (hr : s.sched.running c = some t) :
      Step s (.sched .silent)
        { s with mtx := { s.mtx with
          isLocked := update s.mtx.isLocked (.below t sp) b
          next := update s.mtx.next (.below t sp) n } }
  -- set_thread_schedulable, set_threads_schedulable, and the same in keyboard_isr
  | append {s : State C T P} {c : C} {t : T} {ts : List T} {e : Sched.Event C T}
      (he : e = .silent ∨ e = .keyboard c ∧ ts = []) (hp : s.sched.pc c = .run)
      (hnd : (t :: ts).Nodup) (hb : ∀ u ∈ t :: ts, s.sched.blocked u = true)
      (hlinks : (links Unit T).Stored s.mem (.node t) ts) :
      Step s (.sched e) { s.exchangeEnd c t ((t :: ts).getLast (List.cons_ne_nil t ts)) with
        sched := (s.sched.append (t :: ts)).setPc c (.link (t :: ts)) }
  | link {s : State C T P} {c : C} {t : T} {ts : List T} {d : Cell Unit T}
      (hp : s.sched.pc c = .link ts) (hl : s.prod c = .store t d) :
      Step s (.sched .silent) ((s.linkEnd c t d).setPc c (.incNum ts.length))
  -- spin_mutex_member_init in switch_to_empty and in timer_isr
  | initLocked {s : State C T P} {c : C} {m : Node C T} (hm : s.places c m)
      (hold : (s.mtx.pc c).member = none ∨ (s.mtx.pc c).member = some (.core c)) :
      Step s (.sched .silent) { s with mtx :=
        { s.mtx.setPc c (.initNext m) with isLocked := update s.mtx.isLocked m false } }
  | initNext {s : State C T P} {c : C} {m : Node C T} (hm : s.places c m)
      (hp : s.mtx.pc c = .initNext m) :
      Step s (.sched .silent) { s with mtx :=
        { s.mtx.setPc c (.ready m) with next := update s.mtx.next m none } }
  -- timer_isr
  | tickAppend {s : State C T P} {c : C} {me : T} (hp : s.sched.pc c = .tickAppend me) :
      Step s (.sched .silent) { s.exchangeEnd c me me with
        sched := { s.sched.setPc c (.tickLink me) with queue := s.sched.queue ++ [me] } }
  | tickLink {s : State C T P} {c : C} {me : T} {d : Cell Unit T}
      (hp : s.sched.pc c = .tickLink me) (hl : s.prod c = .store me d) :
      Step s (.sched .silent) ((s.linkEnd c me d).setPc c (.lock (some me)))
  -- spin_lock
  | exchange {s : State C T P} {c : C} {cur : Option T} {m : Node C T}
      (hp : s.sched.pc c = .lock cur) (hm : s.mtx.pc c = .ready m) :
      Step s (.enter c) { s with
        sched := { s.sched.setPc c (.spin cur) with lock := s.sched.lock ++ [c] }
        mtx := { s.mtx.setPc c (.exchanged m s.mtx.lock) with lock := some m } }
  | fast {s : State C T P} {c : C} {cur : Option T} {m : Node C T}
      (hp : s.sched.pc c = .spin cur) (hm : s.mtx.pc c = .exchanged m none) :
      Step s (.sched .silent) (((s.setMtx c (.held m)).setPc c (.pop cur)).setCons c .forceLoadHead)
  | linkLock {s : State C T P} {c : C} {m last : Node C T}
      (hm : s.mtx.pc c = .exchanged m (some last)) :
      Step s (.sched .silent) { s with mtx :=
        { s.mtx.setPc c (.spin m) with next := update s.mtx.next last (some m) } }
  | spin {s : State C T P} {c : C} {cur : Option T} {m : Node C T}
      (hp : s.sched.pc c = .spin cur) (hm : s.mtx.pc c = .spin m)
      (hl : s.mtx.isLocked m = true) :
      Step s (.sched .silent) (((s.setMtx c (.held m)).setPc c (.pop cur)).setCons c .forceLoadHead)
  -- al_delete_front_force
  | loadHead {s : State C T P} {c : C} {h : T} (hc : s.cons c = .forceLoadHead)
      (hm : s.mem (.head ()) = some h) :
      Step s (.sched .silent) (s.setCons c (.forceLoadEnd h))
  | loadEnd {s : State C T P} {c : C} {h : T} (hc : s.cons c = .forceLoadEnd h) :
      Step s (.sched .silent)
        (s.setCons c (if s.last = some h then .storeNull h else .loadNext h))
  | storeNull {s : State C T P} {c : C} {h : T} (hc : s.cons c = .storeNull h) :
      Step s (.sched .silent) ((s.store (.head ()) none).setCons c (.casEnd h))
  | casOk {s : State C T P} {c : C} {cur : Option T} {h : T} (hp : s.sched.pc c = .pop cur)
      (hc : s.cons c = .casEnd h) (he : s.last = some h) :
      Step s (.sched (.remove c h)) (State.removed { s with last := none } c cur h none)
  | casFail {s : State C T P} {c : C} {h : T} (hc : s.cons c = .casEnd h)
      (he : s.last ≠ some h) :
      Step s (.sched .silent) (s.setCons c (.loadNext h))
  | loadNext {s : State C T P} {c : C} {h n : T} (hc : s.cons c = .loadNext h)
      (hm : s.mem (.node h) = some n) :
      Step s (.sched .silent) (s.setCons c (.storeHead h n))
  | storeHead {s : State C T P} {c : C} {cur : Option T} {h n : T} (hp : s.sched.pc c = .pop cur)
      (hc : s.cons c = .storeHead h n) :
      Step s (.sched (.remove c h))
        (State.removed (s.store (.head ()) (some n)) c cur h (some n))
  -- spin_unlock
  | load {s : State C T P} {c : C} {cur : Option T} {t : T} {m : Node C T}
      (hp : s.sched.pc c = .unlock cur t) (hm : s.mtx.pc c = .held m) :
      Step s (.sched .silent)
        (s.setMtx c (if s.mtx.lock = some m then .cas m else .waitNext m))
  | cas {s : State C T P} {c : C} {cur : Option T} {t : T} {next : Option T} {m : Node C T}
      (hp : s.sched.pc c = .unlock cur t) (hc : s.cons c = .ret t next)
      (hm : s.mtx.pc c = .cas m) (hl : s.mtx.lock = some m) :
      Step s (.sched .silent) (State.released { s with mtx :=
        { s.mtx.setPc c .idle with lock := none } } c cur t next)
  | casLost {s : State C T P} {c : C} {m : Node C T} (hm : s.mtx.pc c = .cas m)
      (hl : s.mtx.lock ≠ some m) :
      Step s (.sched .silent) (s.setMtx c (.waitNext m))
  | waitNext {s : State C T P} {c : C} {m n : Node C T} (hm : s.mtx.pc c = .waitNext m)
      (hn : s.mtx.next m = some n) :
      Step s (.sched .silent) (s.setMtx c (.grant m n))
  | grant {s : State C T P} {c : C} {cur : Option T} {t : T} {next : Option T} {m n : Node C T}
      (hp : s.sched.pc c = .unlock cur t) (hc : s.cons c = .ret t next)
      (hm : s.mtx.pc c = .grant m n) :
      Step s (.sched .silent) (State.released { s with mtx :=
        { s.mtx.setPc c .idle with isLocked := update s.mtx.isLocked n true } } c cur t next)
  -- the word of the thread is cleared if there is another one behind it
  | clear {s : State C T P} {c : C} {cur : Option T} {t : T} (hp : s.sched.pc c = .clear cur t) :
      Step s (.sched .silent)
        { s.setPc c (chosen cur t) with
          mem := if s.got c = none then s.mem else update s.mem (.node t) none }

/-- The step as `Sched.Step` has it. -/
def Event.base : Event C T → Sched.Event C T
  | .sched e => e
  | .enter _ => .silent

/-- No core enters the lock between the publication of a thread by `timer_isr` on another core and
the moment when that core enters it. -/
def Ordered (s : State C T P) : Event C T → Prop
  | .enter c => ∀ d ≠ c, (s.sched.pc d).published = none
  | _ => True

def OrderedStep (s : State C T P) (e : Event C T) (t : State C T P) : Prop :=
  Step s e t ∧ Ordered s e

end MyosIo.Sched.Memory
