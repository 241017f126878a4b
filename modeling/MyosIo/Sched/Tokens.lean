import MyosIo.Lib.Count
import MyosIo.Sched.Standing

/-! Each counter differs from the number of nodes, or of idle cores, by what the cores still owe
it at the places where they are. -/
namespace MyosIo.Sched

open Function

variable {C T P : Type*}

/-- The nodes in the list `schedulable_threads_num` does not count: appended and not counted
yet, or reserved and not removed yet. `timer_isr` removes one for the one it has appended. -/
def Pc.uncounted : Pc T → ℕ
  | .link ts => ts.length
  | .incNum n => n
  | .decOld | .lock _ | .spin _ | .pop _ | .tickLink _ => 1
  | _ => 0

/-- The same for `old_schedulable_threads_num`, which `timer_isr` takes one from at its start
and pays back at its end. -/
def Pc.unbilled : Pc T → ℕ
  | .link ts => ts.length
  | .incNum n | .testNum n | .testIdle n | .ipi n | .incOld n => n
  | .lock cur | .spin cur | .pop cur => if cur.isSome then 2 else 1
  | .unlock cur _ | .clear cur _ => if cur.isSome then 1 else 0
  | .tickFail | .tick | .tickAppend _ | .finish _ _ => 1
  | .tickLink _ => 2
  | _ => 0

/-- The places where a core is counted in `idle_cores_num`. -/
def Pc.announced : Pc T → ℕ
  | .setNull | .window | .withdraw | .idle | .wake _ => 1
  | _ => 0

/-- A core that is inside `al_delete_front_force`, or has taken the right to enter it. -/
def Pc.removing : Pc T → Bool
  | .decOld | .lock _ | .spin _ | .pop _ | .tickLink _ => true
  | _ => false

/-- No core is inside one of the routines: it runs a thread, is in `empty_loop`, or is between
publishing its thread and `switch_to_empty`, or switches straight from one thread to another. -/
def State.quiet (s : State C T P) : Prop :=
  ∀ c, match s.pc c with
    | .run | .leave | .handOff _ | .idle => True
    | .switch _ => s.running c ≠ none
    | _ => False

structure Tokens [Fintype C] (s : State C T P) : Prop where
  standing : Standing s
  num : s.queue.length = s.num + total Pc.uncounted s.pc
  old : (s.queue.length : ℤ) = s.old + total Pc.unbilled s.pc
  idle : s.idle = total Pc.announced s.pc

variable [DecidableEq C] [DecidableEq T] [Fintype C]
variable {s t : State C T P} {e : Event C T}

theorem num_step (hi : Tokens s) (hs : Step s e t) :
    t.queue.length = t.num + total Pc.uncounted t.pc := by
  have h := hi.num
  have hpc (c : C) (p : Pc T) := total_update Pc.uncounted s.pc c p
  have hc (c : C) := hi.standing c
  cases hs
  case deliverRun => exact h
  all_goals
    simp only [State.setPc, State.append, List.length_append]
    grind -linarith [Pc.uncounted, Pc.stands]

theorem old_step (hi : Tokens s) (hs : Step s e t) :
    (t.queue.length : ℤ) = t.old + total Pc.unbilled t.pc := by
  have h := hi.old
  have hpc (c : C) (p : Pc T) := total_update Pc.unbilled s.pc c p
  cases hs
  case deliverRun => exact h
  all_goals
    simp only [State.setPc, State.append, List.length_append]
    grind -linarith [Pc.unbilled]

theorem idle_step (hi : Tokens s) (hs : Step s e t) :
    t.idle = total Pc.announced t.pc := by
  have h := hi.idle
  have hpc (c : C) (p : Pc T) := total_update Pc.announced s.pc c p
  cases hs
  case deliverRun => exact h
  all_goals
    simp only [State.setPc, State.append]
    grind -linarith [Pc.announced]

theorem tokens_step (hi : Tokens s) (hs : Step s e t) : Tokens t :=
  ⟨standing_step hi.standing hs, num_step hi hs, old_step hi hs, idle_step hi hs⟩

variable {bsp : C} {main : T} {proc : C → P} {xs : List (Event C T)}

theorem standing_boot : Standing (boot bsp main proc : State C T P) := by
  intro c
  simp only [boot]
  split <;> simp [Pc.stands]

theorem tokens_boot : Tokens (boot bsp main proc : State C T P) := by
  refine ⟨standing_boot, ?_, ?_, ?_⟩
  · have h : total Pc.uncounted (boot bsp main proc : State C T P).pc = 0 :=
      total_eq_zero fun c => by simp only [boot]; split <;> rfl
    simpa [boot] using h.symm
  · have h : total Pc.unbilled (boot bsp main proc : State C T P).pc = 0 :=
      total_eq_zero fun c => by simp only [boot]; split <;> rfl
    rw [h]
    simp [boot]
  · have h : total Pc.announced (boot bsp main proc : State C T P).pc =
        (Finset.univ.filter fun c => c ≠ bsp).card :=
      total_eq_card _ fun c => by
        simp only [boot]
        by_cases hc : c = bsp <;> simp [hc, Pc.announced]
    rw [h, Finset.filter_ne', Finset.card_erase_of_mem (Finset.mem_univ bsp)]
    simp [boot]

omit [DecidableEq T] [DecidableEq C] in
/-- Every core on its way to a removal has a node of its own beside those that are counted. -/
theorem Tokens.room (hi : Tokens s) :
    s.num + (Finset.univ.filter fun c => (s.pc c).removing).card ≤ s.queue.length := by
  have hle : total (fun p => if p.removing then 1 else 0) s.pc ≤ total Pc.uncounted s.pc :=
    total_mono fun c => by cases s.pc c <;> simp [Pc.removing, Pc.uncounted]
  rw [total_eq_card (fun c => (s.pc c).removing) fun c => rfl] at hle
  have := hi.num
  omega

omit [DecidableEq T] [DecidableEq C] in
theorem Tokens.node (hi : Tokens s) {c : C} (hc : (s.pc c).removing) : s.queue ≠ [] := by
  have hpos : 0 < (Finset.univ.filter fun c => (s.pc c).removing).card :=
    Finset.card_pos.mpr ⟨c, by simp [hc]⟩
  have hroom := hi.room
  intro hq
  rw [hq, List.length_nil] at hroom
  omega

omit [DecidableEq T] [DecidableEq C] in
/-- When no core is inside a routine the counters tell the truth. -/
theorem Tokens.quiet (hi : Tokens s) (hq : s.quiet) : s.queue.length = s.num ∧ s.old = s.num ∧
    s.idle = (Finset.univ.filter fun c => s.running c = none).card := by
  have hnum : total Pc.uncounted s.pc = 0 := total_eq_zero fun c => by
    have := hq c
    cases hp : s.pc c <;> simp_all [Pc.uncounted]
  have hold : total Pc.unbilled s.pc = 0 := total_eq_zero fun c => by
    have := hq c
    cases hp : s.pc c <;> simp_all [Pc.unbilled]
  have hidle : total Pc.announced s.pc = (Finset.univ.filter fun c => s.running c = none).card :=
    total_eq_card _ fun c => by
      have h₁ := hq c
      have h₂ := hi.standing c
      cases hp : s.pc c <;> simp_all [Pc.announced, Pc.stands] <;> grind -linarith
  have h₁ := hi.num
  have h₂ := hi.old
  have h₃ := hi.idle
  omega

end MyosIo.Sched
