import Mathlib.Logic.Function.Basic
import MyosIo.Lib.FifoLock

/-! `spin_lock_inline` and `spin_unlock_inline` of `spinlock.h`, and the same accesses in
`spinlock_do.s`: every load, store, exchange and compare-exchange is one step. A core takes for
each call a member that no other core is using, and initialises it first. -/
namespace MyosIo.Spinlock

open Function

variable {C N : Type*}

/-- Where a core is; `m` is its member. `exchanged` carries what the exchange returned. -/
inductive Pc (N : Type*)
  | idle
  | initNext (m : N)
  | ready (m : N)
  | exchanged (m : N) (old : Option N)
  | spin (m : N)
  | held (m : N)
  | cas (m : N)
  | check (m : N)
  | waitNext (m : N)
  | grant (m n : N)
  | unreachable
  deriving DecidableEq

/-- The member a core is using. -/
def Pc.member : Pc N → Option N
  | .initNext m | .ready m | .exchanged m _ | .spin m | .held m | .cas m | .check m
  | .waitNext m | .grant m _ => some m
  | .idle | .unreachable => none

structure State (C N : Type*) where
  lock : Option N
  isLocked : N → Bool
  next : N → Option N
  pc : C → Pc N

/-- `spin_mutex_init`; what the members hold before their initialisation is arbitrary. -/
def initial (isLocked : N → Bool) (next : N → Option N) : State C N where
  lock := none
  isLocked := isLocked
  next := next
  pc _ := .idle

variable [DecidableEq C] [DecidableEq N]

def State.setPc (s : State C N) (c : C) (p : Pc N) : State C N := { s with pc := update s.pc c p }

inductive Step : State C N → LockEvent C N → State C N → Prop
  -- spin_mutex_member_init
  | initLocked {s : State C N} {c : C} {m : N} (hp : s.pc c = .idle)
      (hm : ∀ c', (s.pc c').member ≠ some m) :
      Step s .silent
        { s.setPc c (.initNext m) with isLocked := update s.isLocked m false }
  | initNext {s : State C N} {c : C} {m : N} (hp : s.pc c = .initNext m) :
      Step s .silent { s.setPc c (.ready m) with next := update s.next m none }
  -- spin_lock_inline
  | exchange {s : State C N} {c : C} {m : N} (hp : s.pc c = .ready m) :
      Step s (.enter c m) { s.setPc c (.exchanged m s.lock) with lock := some m }
  | fast {s : State C N} {c : C} {m : N} (hp : s.pc c = .exchanged m none) :
      Step s (.acquire c) (s.setPc c (.held m))
  | link {s : State C N} {c : C} {m last : N} (hp : s.pc c = .exchanged m (some last)) :
      Step s .silent { s.setPc c (.spin m) with next := update s.next last (some m) }
  | spin {s : State C N} {c : C} {m : N} (hp : s.pc c = .spin m) (hl : s.isLocked m = true) :
      Step s (.acquire c) (s.setPc c (.held m))
  -- spin_unlock_inline
  | load {s : State C N} {c : C} {m : N} (hp : s.pc c = .held m) :
      Step s .silent (s.setPc c (if s.lock = some m then .cas m else .waitNext m))
  | casOk {s : State C N} {c : C} {m : N} (hp : s.pc c = .cas m) (hl : s.lock = some m) :
      Step s (.free c) { s.setPc c (.check m) with lock := none }
  | casFail {s : State C N} {c : C} {m : N} (hp : s.pc c = .cas m) (hl : s.lock ≠ some m) :
      Step s .silent (s.setPc c (.waitNext m))
  | check {s : State C N} {c : C} {m : N} (hp : s.pc c = .check m) :
      Step s .silent (s.setPc c (if s.next m = none then .idle else .unreachable))
  | waitNext {s : State C N} {c : C} {m n : N} (hp : s.pc c = .waitNext m)
      (hn : s.next m = some n) : Step s .silent (s.setPc c (.grant m n))
  | grant {s : State C N} {c : C} {m n : N} (hp : s.pc c = .grant m n) :
      Step s (.hand c n) { s.setPc c .idle with isLocked := update s.isLocked n true }

end MyosIo.Spinlock
