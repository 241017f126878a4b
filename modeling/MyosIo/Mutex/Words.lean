import Mathlib.Algebra.Group.Nat.Defs
import Mathlib.Logic.Function.Basic
import MyosIo.Lib.Links
import MyosIo.Lib.FifoLock

/-! The part of `mtx_lock`, `mtx_trylock` and `cnd_broadcast` that enters a mutex, and the part of
`mtx_unlock` and `cnd_wait` that releases it. Every access to `owner`, `waiters`, `wait_end` and
to the `temp0` of a thread is one step. An agent is whoever executes the code; the thread it
enters need not be the agent. -/
namespace MyosIo.Mutex

open Function

variable {A N : Type*}

inductive Cell (N : Type*)
  | waiters
  | temp0 (n : N)
  deriving DecidableEq

/-- What such a word holds; `mutex` is the pointer `cnd_wait` leaves in `temp0`. -/
inductive Word (N : Type*)
  | null
  | node (n : N)
  | mutex
  deriving DecidableEq

def links (N : Type*) : Links (Cell N) N (Word N) where
  null := .null
  ptr := .node
  cell := .temp0
  ptr_ne_null _ := nofun
  ptr_injective _ _ h := Word.node.inj h
  cell_injective _ _ h := Cell.temp0.inj h

/-- The accesses by which a thread enters. -/
inductive Enter (N : Type*)
  | null
  | loadEnd
  | cas
  | exchange
  | casNode
  | own
  | ownFollow
  | copyLoad
  | copyStore (v : Word N)
  | link (c : Cell N)

/-- The accesses of a release; `w` is `current_waiters`, and `e` is `current_end`. -/
inductive Release (N : Type*)
  | loadWaiters
  | loadEnd
  | clearOwner
  | casFree
  | spinWaiters (e : Option N)
  | loadNext (w : N)
  | loadEndNext (w : N)
  | clearWaiters (w : N)
  | casLast (w : N)
  | spinNext (w : N)
  | storeWaiters (w : N) (v : Word N)
  | storeOwner (w : N)

inductive Result (N : Type*)
  | owner (n : N)
  | busy
  | handed (w : N)

/-- Where an agent is. `behalf` says that `cnd_broadcast` enters another thread, which clears
the node only when it needs it. -/
inductive Op (N : Type*)
  | idle
  | fastEnd (n : N)
  | fastCas (n : N)
  | enter (behalf : Bool) (n : N) (p : Enter N)
  | release (h : N) (p : Release N)
  | done (r : Result N)
  | unreachable

structure Core (A N : Type*) where
  mem : Cell N → Word N
  owner : Option N
  waitEnd : Option (Cell N)
  op : A → Op N

inductive Ev (N : Type*)
  | enter (n : N)
  | own (n : N)
  | hand (h w : N)
  | free (h : N)
  | queued (n : N)
  | silent

/-- What a mutex is for: who holds it, and who will get it in which order. -/
inductive Fair : Option N × List N → Ev N → Option N × List N → Prop
  | enter {h : Option N} {w : List N} {n : N} : Fair (h, w) (.enter n) (h, w ++ [n])
  | own {w : List N} {n : N} : Fair (none, n :: w) (.own n) (some n, w)
  | hand {w : List N} {h n : N} : Fair (some h, n :: w) (.hand h n) (none, n :: w)
  | free {h : N} : Fair (some h, []) (.free h) (none, [])
  | queued {h : Option N} {w : List N} {n : N} : Fair (h, w) (.queued n) (h, w)
  | silent {h : Option N} {w : List N} : Fair (h, w) .silent (h, w)

/-- `mtx_init`; the words in the threads are arbitrary. -/
def Core.init (mem : N → Word N) : Core A N where
  mem | .waiters => .null | .temp0 n => mem n
  owner := none
  waitEnd := none
  op _ := .idle

variable [DecidableEq A] [DecidableEq N]

def Core.setOp (s : Core A N) (a : A) (o : Op N) : Core A N := { s with op := update s.op a o }

omit [DecidableEq N] in
@[simp] theorem Core.setOp_mem (s : Core A N) (a : A) (o : Op N) : (s.setOp a o).mem = s.mem := rfl

omit [DecidableEq N] in
@[simp] theorem Core.setOp_owner (s : Core A N) (a : A) (o : Op N) :
    (s.setOp a o).owner = s.owner := rfl

omit [DecidableEq N] in
@[simp] theorem Core.setOp_waitEnd (s : Core A N) (a : A) (o : Op N) :
    (s.setOp a o).waitEnd = s.waitEnd := rfl

omit [DecidableEq N] in
@[simp] theorem Core.setOp_op (s : Core A N) (a : A) (o : Op N) :
    (s.setOp a o).op = update s.op a o := rfl

/-- Where a thread goes on that has not got the mutex by a compare-exchange. -/
def Enter.afterCas (behalf : Bool) : Enter N := if behalf then .null else .exchange

inductive Core.Step : Core A N → A × Ev N → Core A N → Prop
  -- the fast path of mtx_lock and mtx_trylock
  | fastEnd {s : Core A N} {a : A} {n : N} (ho : s.op a = .fastEnd n) :
      Step s (a, .silent) (s.setOp a (if s.waitEnd = none then .fastCas n else .done .busy))
  | fastCas {s : Core A N} {a : A} {n : N} (ho : s.op a = .fastCas n) (he : s.waitEnd = none) :
      Step s (a, .enter n) { s.setOp a (.enter false n .own) with waitEnd := some .waiters }
  | fastFail {s : Core A N} {a : A} {n : N} (ho : s.op a = .fastCas n) (he : s.waitEnd ≠ none) :
      Step s (a, .silent) (s.setOp a (.done .busy))
  -- entering
  | null {s : Core A N} {a : A} {b : Bool} {n : N} (ho : s.op a = .enter b n .null) :
      Step s (a, .silent)
        { s.setOp a (.enter b n (if b then .exchange else .loadEnd)) with
          mem := update s.mem (.temp0 n) .null }
  | loadEnd {s : Core A N} {a : A} {b : Bool} {n : N} (ho : s.op a = .enter b n .loadEnd) :
      Step s (a, .silent)
        (s.setOp a (.enter b n (if s.waitEnd = none then .cas else .afterCas b)))
  | casOk {s : Core A N} {a : A} {b : Bool} {n : N} (ho : s.op a = .enter b n .cas)
      (he : s.waitEnd = none) :
      Step s (a, .enter n) { s.setOp a (.enter b n .own) with waitEnd := some .waiters }
  | casFail {s : Core A N} {a : A} {b : Bool} {n : N} (ho : s.op a = .enter b n .cas)
      (he : s.waitEnd ≠ none) : Step s (a, .silent) (s.setOp a (.enter b n (.afterCas b)))
  | exchange {s : Core A N} {a : A} {b : Bool} {n : N} (ho : s.op a = .enter b n .exchange) :
      Step s (a, .enter n)
        { s.setOp a (.enter b n (match s.waitEnd with | none => .casNode | some c => .link c)) with
          waitEnd := some (.temp0 n) }
  | casNodeOk {s : Core A N} {a : A} {b : Bool} {n : N} (ho : s.op a = .enter b n .casNode)
      (he : s.waitEnd = some (.temp0 n)) :
      Step s (a, .silent) { s.setOp a (.enter b n .own) with waitEnd := some .waiters }
  | casNodeFail {s : Core A N} {a : A} {b : Bool} {n : N} (ho : s.op a = .enter b n .casNode)
      (he : s.waitEnd ≠ some (.temp0 n)) :
      Step s (a, .silent) (s.setOp a (.enter b n .ownFollow))
  | own {s : Core A N} {a : A} {b : Bool} {n : N} (ho : s.op a = .enter b n .own) :
      Step s (a, .own n) { s.setOp a (.done (.owner n)) with owner := some n }
  | ownFollow {s : Core A N} {a : A} {b : Bool} {n : N} (ho : s.op a = .enter b n .ownFollow) :
      Step s (a, .own n) { s.setOp a (.enter b n .copyLoad) with owner := some n }
  | copyLoad {s : Core A N} {a : A} {b : Bool} {n : N} (ho : s.op a = .enter b n .copyLoad)
      (hv : s.mem (.temp0 n) ≠ .null) :
      Step s (a, .silent) (s.setOp a (.enter b n (.copyStore (s.mem (.temp0 n)))))
  | copyStore {s : Core A N} {a : A} {b : Bool} {n : N} {v : Word N}
      (ho : s.op a = .enter b n (.copyStore v)) :
      Step s (a, .silent)
        { s.setOp a (.done (.owner n)) with mem := update s.mem .waiters v }
  | link {s : Core A N} {a : A} {b : Bool} {n : N} {c : Cell N}
      (ho : s.op a = .enter b n (.link c)) :
      Step s (a, .queued n) { s.setOp a .idle with mem := update s.mem c (.node n) }
  -- releasing
  | loadWaiters {s : Core A N} {a : A} {h : N} (ho : s.op a = .release h .loadWaiters) :
      Step s (a, .silent)
        (s.setOp a (match s.mem .waiters with
          | .null => .release h .loadEnd
          | .node w => .release h (.loadNext w)
          | .mutex => .unreachable))
  | loadEndRelease {s : Core A N} {a : A} {h : N} (ho : s.op a = .release h .loadEnd) :
      Step s (a, .silent)
        (s.setOp a (match s.waitEnd with
          | none => .unreachable
          | some .waiters => .release h .clearOwner
          | some (.temp0 e) => .release h (.spinWaiters (some e))))
  | clearOwner {s : Core A N} {a : A} {h : N} (ho : s.op a = .release h .clearOwner) :
      Step s (a, .silent) { s.setOp a (.release h .casFree) with owner := none }
  | casFree {s : Core A N} {a : A} {h : N} (ho : s.op a = .release h .casFree)
      (he : s.waitEnd = some .waiters) :
      Step s (a, .free h) { s.setOp a .idle with waitEnd := none }
  | casFreeFail {s : Core A N} {a : A} {h : N} (ho : s.op a = .release h .casFree)
      (he : s.waitEnd ≠ some .waiters) :
      Step s (a, .silent)
        (s.setOp a (.release h (.spinWaiters
          (match s.waitEnd with | some (.temp0 e) => some e | _ => none))))
  | spinWaiters {s : Core A N} {a : A} {h : N} {e : Option N}
      (ho : s.op a = .release h (.spinWaiters e)) (hv : s.mem .waiters ≠ .null) :
      Step s (a, .silent)
        (s.setOp a (match s.mem .waiters with
          | .node w => .release h (match e with
            | none => .loadNext w
            | some e => if e = w then .clearWaiters w else .spinNext w)
          | _ => .unreachable))
  | loadNext {s : Core A N} {a : A} {h w : N} (ho : s.op a = .release h (.loadNext w)) :
      Step s (a, .silent)
        (s.setOp a (.release h (if s.mem (.temp0 w) = .null then .loadEndNext w
          else .storeWaiters w (s.mem (.temp0 w)))))
  | loadEndNext {s : Core A N} {a : A} {h w : N} (ho : s.op a = .release h (.loadEndNext w)) :
      Step s (a, .silent)
        (s.setOp a (.release h (if s.waitEnd = some (.temp0 w) then .clearWaiters w
          else .spinNext w)))
  | clearWaiters {s : Core A N} {a : A} {h w : N} (ho : s.op a = .release h (.clearWaiters w)) :
      Step s (a, .silent)
        { s.setOp a (.release h (.casLast w)) with mem := update s.mem .waiters .null }
  | casLast {s : Core A N} {a : A} {h w : N} (ho : s.op a = .release h (.casLast w))
      (he : s.waitEnd = some (.temp0 w)) :
      Step s (a, .hand h w)
        { s.setOp a (.release h (.storeOwner w)) with waitEnd := some .waiters }
  | casLastFail {s : Core A N} {a : A} {h w : N} (ho : s.op a = .release h (.casLast w))
      (he : s.waitEnd ≠ some (.temp0 w)) :
      Step s (a, .silent) (s.setOp a (.release h (.spinNext w)))
  | spinNext {s : Core A N} {a : A} {h w : N} (ho : s.op a = .release h (.spinNext w))
      (hv : s.mem (.temp0 w) ≠ .null) :
      Step s (a, .silent) (s.setOp a (.release h (.storeWaiters w (s.mem (.temp0 w)))))
  | storeWaiters {s : Core A N} {a : A} {h w : N} {v : Word N}
      (ho : s.op a = .release h (.storeWaiters w v)) :
      Step s (a, .hand h w)
        { s.setOp a (.release h (.storeOwner w)) with mem := update s.mem .waiters v }
  | storeOwner {s : Core A N} {a : A} {h w : N} (ho : s.op a = .release h (.storeOwner w)) :
      Step s (a, .own w) { s.setOp a (.done (.handed w)) with owner := some w }

end MyosIo.Mutex
