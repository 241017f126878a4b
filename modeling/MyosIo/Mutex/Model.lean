import MyosIo.Lib.Run
import MyosIo.Mutex.Words

/-! `mtx_lock`, `mtx_trylock`, `mtx_unlock`, `cnd_wait` and `cnd_broadcast`, any number of threads
that use one mutex and any number of condition variables with it. The accesses to the words of the
mutex are those of `Core.Step`. `cond->threads` is an atomic list: a thread is appended by an
exchange and linked later, and a broadcast waits for the links. -/
namespace MyosIo.Mutex

open Function

variable {K T : Type*}

/-- Where a thread is. `out` is outside the routines and `ret` is about to return
`thrd_success` with the mutex; `deep` says that a waiting thread keeps a recursive mutex. -/
inductive Pc (K T : Type*)
  | out
  | ret
  | asleep (deep : Bool)
  | ready
  | unreachable
  -- mtx_lock, mtx_trylock
  | lockFast (trylock : Bool)
  | lockSlow
  -- mtx_unlock, and the release inside cnd_wait
  | unlock
  | release
  -- cnd_wait
  | waitOwner (k : K)
  | waitTemp (k : K)
  | waitAppend (k : K) (deep : Bool)
  | waitLink (k : K) (deep : Bool)
  -- cnd_broadcast; `n` is the thread it is moving
  | clearEnd (k : K)
  | clearHead (k : K)
  | clearExchange (k : K)
  | clearUnlock (k : K)
  | next
  | temp (n : T)
  | move (n : T)

/-- `chain b` is what broadcast `b` still has to go through, and `batch b` what it is going to
make schedulable. `alNode` is the word of a node while it is in none of the lists. -/
structure State (K T : Type*) where
  core : Core T T
  count : ℕ
  cond : K → List T
  condLock : K → Option T
  chain : T → List T
  batch : T → List T
  alNode : T → Option T
  pc : T → Pc K T

/-- How a broadcast moves a thread. -/
inductive How
  | owner
  | queued
  | untouched
  deriving DecidableEq

inductive Act (K T : Type*)
  | words (e : Ev T)
  | success
  | release
  | append (k : K)
  | clear (k : K)
  | moved (n : T) (how : How)
  | silent

/-- `mtx_init` and `cnd_init`. -/
def State.init (recursive : Bool) (mem : T → Word T) : State K T where
  core := .init mem
  count := if recursive then 1 else 0
  cond _ := []
  condLock _ := none
  chain _ := []
  batch _ := []
  alNode _ := none
  pc _ := .out

def sizeMax : ℕ := 2 ^ 64 - 1

/-- The store that makes the node of the thread reachable is still to come. -/
def Pc.linking : Pc K T → Prop
  | .waitLink _ _ => True
  | _ => False

variable [DecidableEq K] [DecidableEq T]

def State.setPc (s : State K T) (a : T) (p : Pc K T) : State K T := { s with pc := update s.pc a p }

/-- A routine calls, or comes back from, its part on the words of the mutex. -/
def State.call (s : State K T) (a : T) (p : Pc K T) (o : Op T) : State K T :=
  { s.setPc a p with core := s.core.setOp a o }

/-- `__list_add`. -/
def State.listAdd (s : State K T) (b n : T) : State K T :=
  { s with
    batch := update s.batch b (s.batch b ++ [n])
    alNode := match (s.batch b).getLast? with
      | none => s.alNode
      | some p => update s.alNode p (some n) }

inductive Step : State K T → T × Act K T → State K T → Prop
  -- the accesses to the words; the last one of a part is also its return
  | words {s : State K T} {a : T} {e : Ev T} {c : Core T T} (hs : s.core.Step (a, e) c)
      (hq : ∀ n, e ≠ .queued n) (hf : ∀ h, e ≠ .free h) :
      Step s (a, .words e) { s with core := c }
  | queued {s : State K T} {a n : T} {c : Core T T} (hp : s.pc a = .lockSlow)
      (hs : s.core.Step (a, .queued n) c) :
      Step s (a, .words (.queued n)) { s.setPc a (.asleep false) with core := c }
  | freeUnlock {s : State K T} {a h : T} {c : Core T T} (hp : s.pc a = .unlock)
      (hs : s.core.Step (a, .free h) c) :
      Step s (a, .words (.free h)) { s.setPc a .out with core := c }
  | freeWait {s : State K T} {a h : T} {c : Core T T} (hp : s.pc a = .release)
      (hs : s.core.Step (a, .free h) c) :
      Step s (a, .words (.free h)) { s.setPc a (.asleep false) with core := c }
  -- mtx_lock, mtx_trylock
  | lockFree {s : State K T} {a : T} {b : Bool} (hp : s.pc a = .out) (ho : s.core.owner = none) :
      Step s (a, .silent) (s.call a (.lockFast b) (.fastEnd a))
  | lockAgain {s : State K T} {a : T} (hp : s.pc a = .out) (ho : s.core.owner = some a)
      (hc : s.count ≠ 0 ∧ s.count ≠ sizeMax) :
      Step s (a, .silent) { s.setPc a .ret with count := s.count + 1 }
  | lockOther {s : State K T} {a u : T} (hp : s.pc a = .out) (ho : s.core.owner = some u)
      (hu : u ≠ a) : Step s (a, .silent) (s.call a .lockSlow (.enter false a .null))
  | fastBusy {s : State K T} {a : T} (hp : s.pc a = .lockFast false)
      (ho : s.core.op a = .done .busy) :
      Step s (a, .silent) (s.call a .lockSlow (.enter false a .null))
  | trylockBusy {s : State K T} {a : T} (hp : s.pc a = .lockFast true)
      (ho : s.core.op a = .done .busy) : Step s (a, .silent) (s.call a .out .idle)
  | locked {s : State K T} {a n : T} (hp : s.pc a = .lockSlow ∨ ∃ b, s.pc a = .lockFast b)
      (ho : s.core.op a = .done (.owner n)) : Step s (a, .silent) (s.call a .ret .idle)
  | ret {s : State K T} {a : T} (hp : s.pc a = .ret) : Step s (a, .success) (s.setPc a .out)
  -- `thrd_error` and `thrd_busy` of all routines
  | fail {s : State K T} {a : T} (hp : s.pc a = .out)
      (ho : s.core.owner ≠ some a ∨ s.count = 0 ∨ s.count = sizeMax) : Step s (a, .silent) s
  -- mtx_unlock
  | unlockAgain {s : State K T} {a : T} (hp : s.pc a = .out) (ho : s.core.owner = some a)
      (hc : 1 < s.count) : Step s (a, .silent) { s with count := s.count - 1 }
  | unlock {s : State K T} {a : T} (hp : s.pc a = .out) (ho : s.core.owner = some a)
      (hc : s.count ≤ 1) : Step s (a, .release) (s.call a .unlock (.release a .loadWaiters))
  | wake {s : State K T} {a w : T} (hp : s.pc a = .unlock) (ho : s.core.op a = .done (.handed w)) :
      Step s (a, .silent) ((s.call a .out .idle).setPc w .ready)
  -- cnd_wait
  | waitLoad {s : State K T} {a : T} {k : K} (hp : s.pc a = .out) (ho : s.core.owner ≠ none) :
      Step s (a, .silent) (s.setPc a (.waitOwner k))
  | waitOwner {s : State K T} {a : T} {k : K} (hp : s.pc a = .waitOwner k) :
      Step s (a, .silent) (s.setPc a (if s.core.owner = some a then .waitTemp k else .out))
  | waitTemp {s : State K T} {a : T} {k : K} (hp : s.pc a = .waitTemp k) :
      Step s (a, .silent)
        { s.setPc a (.waitAppend k (1 < s.count)) with
          core := { s.core with
            mem := update s.core.mem (.temp0 a) (if 1 < s.count then .null else .mutex) } }
  | waitAppend {s : State K T} {a : T} {k : K} {b : Bool} (hp : s.pc a = .waitAppend k b) :
      Step s (a, .append k)
        { s.setPc a (.waitLink k b) with cond := update s.cond k (s.cond k ++ [a]) }
  | waitDeep {s : State K T} {a : T} {k : K} (hp : s.pc a = .waitLink k true) :
      Step s (a, .silent) (s.setPc a (.asleep true))
  | waitRelease {s : State K T} {a : T} {k : K} (hp : s.pc a = .waitLink k false) :
      Step s (a, .release) (s.call a .release (.release a .loadWaiters))
  | switchTo {s : State K T} {a w : T} (hp : s.pc a = .release)
      (ho : s.core.op a = .done (.handed w)) :
      Step s (a, .silent) ((s.call a (.asleep false) .idle).setPc w .ret)
  -- cnd_broadcast: al_clear under the spinlock
  | clearLock {s : State K T} {a : T} {k : K} (hp : s.pc a = .out) (hl : s.condLock k = none) :
      Step s (a, .silent)
        { s.setPc a (.clearEnd k) with condLock := update s.condLock k (some a) }
  | clearEmpty {s : State K T} {a : T} {k : K} (hp : s.pc a = .clearEnd k) (hc : s.cond k = []) :
      Step s (a, .silent) { s.setPc a .out with condLock := update s.condLock k none }
  | clearEnd {s : State K T} {a : T} {k : K} (hp : s.pc a = .clearEnd k) (hc : s.cond k ≠ []) :
      Step s (a, .silent) (s.setPc a (.clearHead k))
  | clearHead {s : State K T} {a : T} {k : K} (hp : s.pc a = .clearHead k)
      (hc : ∀ n ∈ (s.cond k).head?, ¬ (s.pc n).linking) :
      Step s (a, .silent) (s.setPc a (.clearExchange k))
  | clearExchange {s : State K T} {a : T} {k : K} (hp : s.pc a = .clearExchange k) :
      Step s (a, .clear k)
        { s.setPc a (.clearUnlock k) with
          cond := update s.cond k []
          chain := update s.chain a (s.cond k) }
  | clearUnlock {s : State K T} {a : T} {k : K} (hp : s.pc a = .clearUnlock k) :
      Step s (a, .silent) { s.setPc a .next with condLock := update s.condLock k none }
  -- the walk
  | next {s : State K T} {a n : T} {l : List T} (hp : s.pc a = .next) (hc : s.chain a = n :: l)
      (hl : ∀ m ∈ l.head?, ¬ (s.pc m).linking) :
      Step s (a, .silent)
        { s.setPc a (.temp n) with
          chain := update s.chain a l
          alNode := update s.alNode n l.head? }
  | tempNull {s : State K T} {a n : T} (hp : s.pc a = .temp n)
      (hm : s.core.mem (.temp0 n) = .null) :
      Step s (a, .moved n .untouched) ((s.setPc a .next).listAdd a n)
  | tempMutex {s : State K T} {a n : T} (hp : s.pc a = .temp n)
      (hm : s.core.mem (.temp0 n) = .mutex) :
      Step s (a, .silent) (s.call a (.move n) (.enter true n .loadEnd))
  | tempNode {s : State K T} {a n m : T} (hp : s.pc a = .temp n)
      (hm : s.core.mem (.temp0 n) = .node m) : Step s (a, .silent) (s.setPc a .unreachable)
  | moveOwner {s : State K T} {a n m : T} (hp : s.pc a = .move n)
      (ho : s.core.op a = .done (.owner m)) :
      Step s (a, .moved n .owner) ((s.call a .next .idle).listAdd a n)
  | moveQueued {s : State K T} {a n m : T} {c : Core T T} (hp : s.pc a = .move n)
      (hs : s.core.Step (a, .queued m) c) :
      Step s (a, .moved n .queued)
        { s.setPc a .next with core := c, alNode := update s.alNode n none }
  -- set_threads_schedulable
  | publish {s : State K T} {a : T} (hp : s.pc a = .next) (hc : s.chain a = []) :
      Step s (a, .silent)
        { s with
          pc := update (fun x => if x ∈ s.batch a then .ready else s.pc x) a .out
          batch := update s.batch a []
          alNode := match (s.batch a).getLast? with
            | none => s.alNode
            | some p => update s.alNode p none }
  -- the scheduler: a ready thread's node is its own, and is clean when the thread runs again
  | schedule {s : State K T} {a : T} {v : Option T} (hp : s.pc a = .ready) :
      Step s (a, .silent) { s with alNode := update s.alNode a v }
  | dispatch {s : State K T} {a : T} (hp : s.pc a = .ready) :
      Step s (a, .silent) { s.setPc a .ret with alNode := update s.alNode a none }
  -- `temp0` of a thread outside is free for other mutexes
  | elsewhere {s : State K T} {a : T} {v : Word T} (hp : s.pc a = .out) :
      Step s (a, .silent)
        { s with core := { s.core with mem := update s.core.mem (.temp0 a) v } }

end MyosIo.Mutex
