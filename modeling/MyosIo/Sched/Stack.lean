import MyosIo.Sched.Schedule
import MyosIo.Sched.Steps

/-! `timer_isr` keeps its lock node just below the saved stack pointer of the thread it has
published, so that the thread must stay where it is until the core has left the lock. -/
namespace MyosIo.Sched.Memory

open Function List

variable {C T P : Type*} [DecidableEq C] [DecidableEq T]

/-- While a core uses its node below a thread, no other core runs the thread, has taken it to run
it, initialises a node below it, or uses one. -/
def State.ownNode (s : State C T P) : Prop :=
  ∀ d me, (s.sched.pc d).standing = some me → ∀ c ≠ d, s.sched.hand c ≠ some me ∧
    ∀ sp, ¬ s.places c (.below me sp) ∧ (s.mtx.pc c).member ≠ some (.below me sp)

variable [Fintype C] {s : State C T P} {l : FifoLock C (Node C T)} {bsp : C} {main : T}
  {proc : C → P} {isLocked : Node C T → Bool} {next : Node C T → Option (Node C T)}
  {xs : List (Event C T)}

theorem Inv.keeps_node (hi : Inv l s) : s.ownNode := by
  intro d me hd c hc
  have hhand : s.sched.hand c ≠ some me := fun hh =>
    hc (hi.behind.not_taken hi.placed hd hh)
  refine ⟨hhand, fun sp => ⟨fun hm => ?_, fun hm => ?_⟩⟩
  · obtain ⟨-, hm⟩ | ⟨hp, u, sp', hr, hm⟩ := hm
    · cases hm
    · cases hm
      exact hhand (by rw [Sched.State.hand, hp]; exact hr)
  · obtain hm | ⟨u, sp', hm, hs | hh⟩ := (hi.member c).member hm
    · cases hm
    · cases hm
      exact hc (hi.alone c d me hs hd)
    · cases hm
      exact hhand hh

/-- Where the cores enter the lock in order, the lock node of `timer_isr` is its own until it has
left the lock. -/
theorem own_node (h : Run OrderedStep (boot bsp main proc isLocked next) xs s) : s.ownNode := by
  obtain ⟨l, hi⟩ := run_inv h
  exact hi.keeps_node

/-- Three cores, of which core 0 runs thread 0. -/
def threeCores : State (Fin 3) ℕ Unit := boot 0 0 (fun _ => ()) (fun _ => false) fun _ => none

/-- Core 0 is interrupted with thread 1 ready, has the lock and has removed thread 1, while core 1
waits behind its node. -/
theorem own_node_sample : ∃ (xs : List (Event (Fin 3) ℕ)) (s : State (Fin 3) ℕ Unit),
    Run OrderedStep threeCores xs s ∧ s.sched.pc 0 = .unlock (some 0) 1 ∧
      s.mtx.next (.below 0 7) = some (.core 1) ∧ s.ownNode := by
  obtain ⟨xs, s, h, hp, hn⟩ := ordered_of_play (s := threeCores)
    (flatten [[.call 0 1 []], replicate 6 (.go 0),
      [.timer 0], replicate 2 (.init 0 (.below 0 7)), replicate 5 (.go 0),
      [.deliver 1], replicate 2 (.init 1 (.core 1)), replicate 7 (.go 1), replicate 4 (.go 0)])
    (fun s => s.sched.pc 0 = .unlock (some 0) 1 ∧ s.mtx.next (.below 0 7) = some (.core 1))
    (by decide +kernel)
  exact ⟨xs, s, h, hp, hn, own_node h⟩

/-- Core 0 is interrupted on thread 0 with thread 1 ready, and stands before the lock. Core 1 takes
thread 1, which makes threads 2, 3 and 4 schedulable and blocks, and then thread 0. -/
def overtaken : List (Move (Fin 3) ℕ) := flatten [
  [.call 0 1 []], replicate 6 (.go 0),
  [.timer 0], replicate 2 (.init 0 (.below 0 7)), replicate 3 (.go 0),
  [.deliver 1], replicate 2 (.init 1 (.core 1)), replicate 15 (.go 1),
  [.word 2 (some 3), .word 3 (some 4), .call 1 2 [3, 4]], replicate 6 (.go 1),
  [.block 1], replicate 3 (.go 1), replicate 2 (.init 1 (.core 1)), replicate 15 (.go 1)]

/-- Core 1 runs thread 0, is interrupted on it and initialises the node that core 0 is about to
enter the lock with. -/
theorem not_always_own_node : ∃ (xs : List (Event (Fin 3) ℕ)) (s : State (Fin 3) ℕ Unit),
    Run Step threeCores xs s ∧ s.sched.running 1 = some 0 ∧ s.mtx.pc 0 = .ready (.below 0 7) ∧
      s.mtx.pc 1 = .initNext (.below 0 7) ∧ ¬ s.ownNode := by
  obtain ⟨xs, s, h, hr, h₀, h₁, hp⟩ := run_of_play (s := threeCores)
    (overtaken ++ [Move.timer 1, .init 1 (.below 0 7)])
    (fun s => s.sched.running 1 = some 0 ∧ s.mtx.pc 0 = .ready (.below 0 7) ∧
      s.mtx.pc 1 = .initNext (.below 0 7) ∧ s.sched.pc 0 = .lock (some 0))
    (by decide +kernel)
  refine ⟨xs, s, h, hr, h₀, h₁, fun hown => ?_⟩
  have hstanding : (s.sched.pc 0).standing = some 0 := by rw [hp]; rfl
  exact ((hown 0 0 hstanding 1 (by decide)).2 7).2 (by rw [h₁]; rfl)

end MyosIo.Sched.Memory
