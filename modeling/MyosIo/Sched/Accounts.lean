import MyosIo.Sched.Stack

/-! What the three counters say about the list that is followed from `schedulable_threads` in
memory. -/
namespace MyosIo.Sched.Memory

open AlList List

variable {C T P : Type*} [Fintype C]

/-- There is a node for every core on its way to remove one, beside those that are counted, and when
no core is inside a routine the counters tell the truth about the nodes that are linked. -/
def State.accounted (s : State C T P) : Prop :=
  s.sched.num + (Finset.univ.filter fun c => (s.sched.pc c).removing).card ≤ s.sched.queue.length ∧
    (∀ c, (s.sched.pc c).removing → s.sched.queue ≠ []) ∧
    (s.sched.quiet → ∃ ts, (links Unit T).Stored s.mem (.head ()) ts ∧ s.last = ts.getLast? ∧
      ts.length = s.sched.num ∧ s.sched.old = s.sched.num ∧
      s.sched.idle = (Finset.univ.filter fun c => s.sched.running c = none).card)

instance {s : Sched.State C T P} : Decidable s.quiet :=
  @Fintype.decidableForallFintype C _ (fun c => by
    cases s.pc c <;> dsimp only <;> infer_instance) _

variable [DecidableEq C] [DecidableEq T] {s : State C T P} {l : FifoLock C (Node C T)} {bsp : C}
  {main : T} {proc : C → P} {isLocked : Node C T → Bool}
  {next : Node C T → Option (Node C T)} {xs : List (Event C T)}

/-- Nobody is in a call on the list when no core is inside a routine. -/
theorem Inv.quiet (hi : Inv l s) (hq : s.sched.quiet) :
    s.consumer l = .idle ∧ ∀ c, s.prod c = .idle := by
  have hplace (c : C) : Deletes (s.cons c) (s.sched.pc c) → s.cons c = .idle := by
    have := hq c
    intro h
    cases hp : s.sched.pc c <;> simp_all [Deletes]
  have hown (c : C) : Owes (s.prod c) (s.sched.pc c) → s.prod c = .idle := by
    have := hq c
    intro h
    cases hp : s.sched.pc c <;> simp_all [Owes, Pc.owes]
  refine ⟨?_, fun c => hown c (hi.owes c)⟩
  rw [State.consumer]
  split
  · rfl
  · exact hplace _ (hi.deletes _)

/-- The list in memory when no core is in a call on it. -/
theorem Inv.stored (hi : Inv l s) (hc : s.consumer l = .idle) (hp : ∀ c, s.prod c = .idle) :
    (links Unit T).Stored s.mem (.head ()) s.sched.queue ∧ s.last = s.sched.queue.getLast? := by
  have hlist := hi.list
  rw [hc] at hlist
  exact hlist.quiet hp

theorem Inv.accounted (hi : Inv l s) : s.accounted := by
  refine ⟨hi.tokens.room, fun c hc => hi.tokens.node hc, fun hq => ?_⟩
  obtain ⟨hcons, hprod⟩ := hi.quiet hq
  obtain ⟨hstored, hlast⟩ := hi.stored hcons hprod
  exact ⟨s.sched.queue, hstored, hlast, hi.tokens.quiet hq⟩

/-- Where the cores enter the lock in order, the books of `schedulable_threads` balance. -/
theorem token_accounting (h : Run OrderedStep (boot bsp main proc isLocked next) xs s) :
    s.accounted := by
  obtain ⟨l, hi⟩ := run_inv h
  exact hi.accounted

/-- Core 0 is interrupted on thread 0 with threads 1 and 2 ready and goes on with thread 1, core 1
is woken and takes thread 2. -/
theorem token_accounting_sample : ∃ (xs : List (Event (Fin 3) ℕ)) (s : State (Fin 3) ℕ Unit),
    Run OrderedStep threeCores xs s ∧ s.sched.quiet ∧ s.sched.queue = [0] ∧ s.sched.num = 1 ∧
      s.accounted := by
  obtain ⟨xs, s, h, hquiet, hq, hn⟩ := ordered_of_play (s := threeCores)
    (flatten [[.word 1 (some 2), .call 0 1 [2]], replicate 6 (.go 0),
      [.timer 0], replicate 2 (.init 0 (.below 0 7)), replicate 5 (.go 0),
      [.deliver 1], replicate 2 (.init 1 (.core 1)), replicate 7 (.go 1),
      replicate 10 (.go 0), replicate 9 (.go 1)])
    (fun s => s.sched.quiet ∧ s.sched.queue = [0] ∧ s.sched.num = 1)
    (by decide +kernel)
  exact ⟨xs, s, h, hquiet, hq, hn, token_accounting h⟩

/-- Core 1 has been interrupted on thread 0 as well. Core 2 enters the lock, then the cores 0 and 1
with the same node, and core 2 hands the lock to both, so that both remove thread 3. -/
theorem not_always_accounted : ∃ (xs : List (Event (Fin 3) ℕ)) (s : State (Fin 3) ℕ Unit),
    Run Step threeCores xs s ∧ s.sched.quiet ∧ s.sched.running 0 = some 3 ∧
      s.sched.running 1 = some 3 ∧ ¬ s.accounted := by
  obtain ⟨xs, s, h, hquiet, h₀, h₁, hlist, hnum⟩ := run_of_play (s := threeCores)
    (flatten [overtaken, [.timer 1], replicate 2 (.init 1 (.below 0 7)), replicate 3 (.go 1),
      [.deliver 2], replicate 2 (.init 2 (.core 2)), replicate 7 (.go 2),
      replicate 2 (.go 0), replicate 2 (.go 1), replicate 9 (.go 2),
      [.go 0, .go 1], replicate 3 (.go 0), replicate 3 (.go 1),
      [.go 0, .go 1], replicate 5 (.go 0), replicate 6 (.go 1)])
    (fun s => s.sched.quiet ∧ s.sched.running 0 = some 3 ∧ s.sched.running 1 = some 3 ∧
      (links Unit ℕ).Stored s.mem (.head ()) [4, 0] ∧ s.sched.num = 1)
    (by decide +kernel)
  refine ⟨xs, s, h, hquiet, h₀, h₁, fun hacc => ?_⟩
  obtain ⟨ts, hts, -, hlength, -⟩ := hacc.2.2 hquiet
  rw [hts.unique _ hlist, hnum] at hlength
  cases hlength

/-- Where the cores enter the lock in order, every thread is in one place: in `schedulable_threads`,
blocked, or in the hands of one core. Memory says which ones are in the list. -/
theorem thread_placed (h : Run OrderedStep (boot bsp main proc isLocked next) xs s) (u : T) :
    (∃! p, s.sched.at u p) ∧ s.sched.queue.count u ≤ 1 ∧
      ((∀ c, s.prod c = .idle ∧ s.cons c = .idle) →
        (links Unit T).Stored s.mem (.head ()) s.sched.queue) := by
  obtain ⟨l, hi⟩ := run_inv h
  obtain ⟨p, hp⟩ := hi.placed.exists_place u
  refine ⟨⟨p, hp, fun q hq => hi.placed.place_unique hq hp⟩, ?_, fun hidle => ?_⟩
  · have := hi.placed u
    omega
  · refine (hi.stored ?_ fun c => (hidle c).1).1
    rw [State.consumer]
    split
    · rfl
    · exact (hidle _).2

/-- Core 1 has removed thread 1, and core 0 waits behind it with thread 0 in the list. -/
theorem thread_placed_sample : ∃ (xs : List (Event (Fin 3) ℕ)) (s : State (Fin 3) ℕ Unit),
    Run OrderedStep threeCores xs s ∧ s.sched.at 1 (.core 1 : Place (Fin 3)) ∧
      s.sched.at 0 (.listed : Place (Fin 3)) ∧ ∃! p, s.sched.at 1 p := by
  obtain ⟨xs, s, h, h₁, h₀⟩ := ordered_of_play (s := threeCores)
    (flatten [[.call 0 1 []], replicate 6 (.go 0), [.timer 0],
      [.deliver 1], replicate 2 (.init 1 (.core 1)), replicate 7 (.go 1),
      replicate 2 (.init 0 (.below 0 7)), replicate 5 (.go 0), replicate 4 (.go 1)])
    (fun s => s.sched.hand 1 = some 1 ∧ 0 ∈ s.sched.queue)
    (by decide +kernel)
  exact ⟨xs, s, h, h₁, h₀, (thread_placed h 1).1⟩

end MyosIo.Sched.Memory
