import Mathlib.Data.List.Basic
import MyosIo.Lib.Run

/-! What a queue lock is for: agents enter in some order, each with a token, and the lock is
granted in that order. A release either leaves the lock free or names the token granted next. -/
namespace MyosIo

variable {A N : Type*}

inductive LockEvent (A N : Type*)
  | enter (a : A) (n : N)
  | acquire (a : A)
  | free (a : A)
  | hand (a : A) (n : N)
  | silent

structure FifoLock (A N : Type*) where
  holder : Option (A × N)
  waiting : List (A × N)

namespace FifoLock

def empty : FifoLock A N := ⟨none, []⟩

/-- Everyone who entered and has not left, in order. -/
def queue (l : FifoLock A N) : List (A × N) := l.holder.toList ++ l.waiting

inductive Step : FifoLock A N → LockEvent A N → FifoLock A N → Prop
  | enter {l : FifoLock A N} (a : A) (n : N) :
      Step l (.enter a n) { l with waiting := l.waiting ++ [(a, n)] }
  | acquire {a : A} {n : N} {w : List (A × N)} :
      Step ⟨none, (a, n) :: w⟩ (.acquire a) ⟨some (a, n), w⟩
  | free {a : A} {n : N} : Step ⟨some (a, n), []⟩ (.free a) ⟨none, []⟩
  | hand {a b : A} {n m : N} {w : List (A × N)} :
      Step ⟨some (a, n), (b, m) :: w⟩ (.hand a m) ⟨none, (b, m) :: w⟩
  | silent {l : FifoLock A N} : Step l .silent l

/-- The agents that entered, in order. -/
def entered (xs : List (LockEvent A N)) : List A :=
  xs.filterMap fun | .enter a _ => some a | _ => none

/-- The agents that got the lock, in order. -/
def acquired (xs : List (LockEvent A N)) : List A :=
  xs.filterMap fun | .acquire a => some a | _ => none

variable {xs : List (LockEvent A N)} {l : FifoLock A N}

theorem entered_eq (h : Run Step empty xs l) :
    entered xs = acquired xs ++ l.waiting.map Prod.fst := by
  induction h with
  | refl => rfl
  | step _ hs ih =>
    simp only [entered, acquired, List.filterMap_append] at ih ⊢
    cases hs <;> simp_all

/-- The lock is granted in the order of entry. -/
theorem acquired_prefix (h : Run Step empty xs l) : acquired xs <+: entered xs :=
  ⟨_, (entered_eq h).symm⟩

end FifoLock
end MyosIo
