import MyosIo.Sched.Accounts

/-! Threads leave `schedulable_threads` in the order in which they have entered it, whichever
cores remove them and whatever is appended meanwhile. The core that removes a thread runs it next.
-/
namespace MyosIo.Sched

variable {C T P : Type*}

def Event.removed : Event C T → Option T
  | .remove _ t => some t
  | _ => none

/-- The core has removed the thread and does not run it yet. -/
def Pc.holds (u : T) : Pc T → Prop
  | .unlock _ t | .clear _ t | .finish _ t | .switch t => t = u
  | _ => False

variable [DecidableEq C] [DecidableEq T] {s t : State C T P} {e : Event C T} {c : C} {u : T}

theorem step_queue (hs : Step s e t) : ∃ ts, e.removed.toList ++ t.queue = s.queue ++ ts := by
  cases hs with
  | append | keyboardBusy | tickAppend => exact ⟨_, rfl⟩
  | remove hp hq hl => exact ⟨[], by simp [Event.removed, hq]⟩
  | _ => exact ⟨[], by simp [Event.removed, State.setPc]⟩

theorem holds_step (hst : Standing s) (hh : (s.pc c).holds u) (hs : Step s e t) :
    (t.pc c).holds u ∨ t.pc c = .run ∧ t.running c = some u := by
  have hc := hst c
  cases hs
  all_goals
    simp only [State.setPc, State.append, Function.update_apply]
    grind -linarith [Pc.holds, Pc.stands]

open List

namespace Memory

/-- The threads that are removed in a run, in order. -/
def removed (xs : List (Event C T)) : List T := xs.filterMap fun e => e.base.removed

omit [DecidableEq C] [DecidableEq T] in
theorem removed_append (xs ys : List (Event C T)) :
    removed (xs ++ ys) = removed xs ++ removed ys := List.filterMap_append ..

/-- The core comes to run the thread in the course of a run, or still holds it at the end. -/
inductive Served (c : C) (u : T) (s : State C T P) (xs : List (Event C T)) (t : State C T P) : Prop
  | holds (h : (t.sched.pc c).holds u)
  | runs {ys zs : List (Event C T)} {r : State C T P} (h : xs = ys ++ zs)
      (hys : Run OrderedStep s ys r) (hzs : Run OrderedStep r zs t) (hp : r.sched.pc c = .run)
      (hr : r.sched.running c = some u)

variable {s t : State C T P} {e : Event C T} {xs ys : List (Event C T)} {ahead behind : List T}

omit [DecidableEq C] [DecidableEq T] in
/-- What a list has removed first. -/
theorem removed_split (h : removed xs = ahead ++ u :: behind) :
    ∃ ys c zs, xs = ys ++ Event.sched (.remove c u) :: zs ∧ removed ys = ahead := by
  obtain ⟨ys, l, rfl, hys, hl⟩ := List.filterMap_eq_append_iff.mp h
  obtain ⟨zs, e, ws, rfl, hzs, he, -⟩ := List.filterMap_eq_cons_iff.mp hl
  cases e with
  | enter c => cases he
  | sched e =>
    cases e with
    | remove c t =>
      obtain rfl : t = u := Option.some.inj he
      have hnone : removed zs = [] := List.filterMap_eq_nil_iff.mpr hzs
      exact ⟨ys ++ zs, c, ws, by simp, by rw [removed_append, hnone, List.append_nil]; exact hys⟩
    | _ => cases he

variable [Fintype C] {l : FifoLock C (Node C T)} {bsp : C} {main : T} {proc : C → P}
  {isLocked : Node C T → Bool} {next : Node C T → Option (Node C T)}

theorem Inv.step_queue (hi : Inv l s) (hs : Step s e t) :
    ∃ ts, removed [e] ++ t.sched.queue = s.sched.queue ++ ts := by
  obtain ⟨hsame, hsilent⟩ | hstep := hi.sim hs
  · exact ⟨[], by simp [removed, hsame, hsilent, Event.removed]⟩
  · obtain ⟨ts, hts⟩ := Sched.step_queue hstep
    refine ⟨ts, ?_⟩
    rw [← hts, removed]
    cases hr : e.base.removed <;> simp [hr]

theorem Inv.run_queue (hi : Inv l s) (h : Run OrderedStep s xs t) :
    ∃ ts, removed xs ++ t.sched.queue = s.sched.queue ++ ts := by
  induction h with
  | refl => exact ⟨[], by simp [removed]⟩
  | step h hs ih =>
    obtain ⟨ts, hts⟩ := ih
    obtain ⟨l', hi'⟩ := hi.run h
    obtain ⟨ts', hts'⟩ := hi'.step_queue hs.1
    refine ⟨ts ++ ts', ?_⟩
    rw [removed_append, List.append_assoc, hts', ← List.append_assoc, hts, List.append_assoc]

theorem Inv.holds_step (hi : Inv l s) (hh : (s.sched.pc c).holds u) (hs : Step s e t) :
    (t.sched.pc c).holds u ∨ t.sched.pc c = .run ∧ t.sched.running c = some u := by
  obtain ⟨hsame, -⟩ | hstep := hi.sim hs
  · rw [hsame]
    exact .inl hh
  · exact Sched.holds_step hi.tokens.standing hh hstep

theorem Served.step {r : State C T P} (h : Served c u s xs r) (hi : Inv l r)
    (hs : OrderedStep r e t) (hrun : Run OrderedStep s xs r) : Served c u s (xs ++ [e]) t := by
  cases h with
  | holds hh =>
    obtain hh | ⟨hp, hr⟩ := hi.holds_step hh hs.1
    · exact .holds hh
    · exact .runs (List.append_nil _).symm (hrun.step hs) .refl hp hr
  | runs h hys hzs hp hr => exact .runs (by rw [h, List.append_assoc]) hys (hzs.step hs) hp hr

theorem Inv.served (hi : Inv l s) (hh : (s.sched.pc c).holds u) (h : Run OrderedStep s xs t) :
    Served c u s xs t := by
  induction h with
  | refl => exact .holds hh
  | step h hs ih =>
    obtain ⟨l', hi'⟩ := hi.run h
    exact ih.step hi' hs h

omit [Fintype C] in
/-- The core that removes a thread holds it. -/
theorem holds_of_remove (hs : Step s (.sched (.remove c u)) t) : (t.sched.pc c).holds u := by
  cases hs with
  | aside hs hpc =>
    cases hs with
    | remove hp =>
      have hc := hpc c
      simp [Sched.State.setPc, aside, hp] at hc
  | append he => simp at he
  | casOk | storeHead =>
    simp only [State.removed, State.setCons, Sched.State.setPc, Function.update_self]
    rfl

/-- A thread that waits in `schedulable_threads` is passed by the threads before it and by no other:
each of them is removed once, then it is its turn, and the core that removes it runs it. -/
theorem round_robin (h : Run OrderedStep (boot bsp main proc isLocked next) ys s)
    (hq : s.sched.queue = ahead ++ u :: behind) (hr : Run OrderedStep s xs t) :
    ((removed xs).Nodup ∧ removed xs <+: ahead ∧
      ∃ rest, t.sched.queue = ahead.drop (removed xs).length ++ u :: rest) ∨
    ∃ zs c ws r, xs = zs ++ .sched (.remove c u) :: ws ∧ removed zs = ahead ∧
      (ahead ++ [u]).Nodup ∧ Run OrderedStep s (zs ++ [Event.sched (.remove c u)]) r ∧
      Run OrderedStep r ws t ∧ Served c u r ws t := by
  obtain ⟨l, hi⟩ := run_inv h
  have hnodup := hi.placed.queue_nodup
  rw [hq, List.append_cons] at hnodup
  have hahead : (ahead ++ [u]).Nodup := hnodup.of_append_left
  obtain ⟨ts, hts⟩ := hi.run_queue hr
  rw [hq, List.append_assoc] at hts
  obtain ⟨late, hlate, hqueue⟩ | ⟨left, hleft, hqueue⟩ := List.append_eq_append_iff.mp hts
  · refine .inl ⟨?_, ⟨late, hlate.symm⟩, behind ++ ts, ?_⟩
    · rw [hlate, List.append_assoc] at hahead
      exact hahead.of_append_left
    · rw [hqueue, hlate, List.drop_left]
      rfl
  · cases left with
    | nil =>
      refine .inl ⟨?_, ⟨[], by rw [hleft, List.append_nil, List.append_nil]⟩, behind ++ ts, ?_⟩
      · rw [hleft, List.append_nil]
        exact hahead.of_append_left
      · rw [hleft, List.append_nil, List.drop_length, List.nil_append]
        exact hqueue.symm
    | cons v left =>
      obtain ⟨rfl, -⟩ := List.cons.inj hqueue
      obtain ⟨zs, c, ws, rfl, hzs⟩ := removed_split hleft
      rw [List.append_cons] at hr
      obtain ⟨r, hr₁, hr₂⟩ := hr.split
      obtain ⟨q, -, hq⟩ := hr₁.of_concat
      obtain ⟨l', hi'⟩ := hi.run hr₁
      exact .inr ⟨zs, c, ws, r, rfl, hzs, hahead, hr₁, hr₂,
        hi'.served (holds_of_remove hq.1) hr₂⟩

/-- Core 0 is interrupted on thread 0 with threads 1 and 2 ready and goes on with thread 1, core 1
is woken and takes thread 2. -/
theorem round_robin_sample : ∃ (s r t : State (Fin 3) ℕ Unit) (zs ws : List (Event (Fin 3) ℕ))
    (c : Fin 3), s.sched.queue = [1, 2] ∧ Run OrderedStep s (zs ++ [Event.sched (.remove c 2)]) r ∧
      removed zs = [1] ∧ Run OrderedStep r ws t ∧ t.sched.running 1 = some 2 ∧
      Served c 2 r ws t := by
  obtain ⟨ys, s, h, hq, hplay⟩ := ordered_of_play (s := threeCores)
    [.word 1 (some 2), .call 0 1 [2]]
    (fun s => s.sched.queue = [1, 2] ∧
      (play (fun s e => Ordered s e) s (flatten [replicate 6 (.go 0),
        [.timer 0], replicate 2 (.init 0 (.below 0 7)), replicate 5 (.go 0),
        [.deliver 1], replicate 2 (.init 1 (.core 1)), replicate 7 (.go 1),
        replicate 10 (.go 0), replicate 9 (.go 1)])).any
          fun r => r.2.sched.running 1 = some 2 ∧ 2 ∉ r.2.sched.queue)
    (by decide +kernel)
  obtain ⟨xs, t, hr, hrun, ht⟩ := ordered_of_play _
    (fun s => s.sched.running 1 = some 2 ∧ 2 ∉ s.sched.queue) hplay
  obtain ⟨-, -, rest, hrest⟩ | ⟨zs, c, ws, r, -, hzs, -, hr, hws, hserved⟩ :=
    round_robin h (show _ = [1] ++ 2 :: [] from hq) hr
  · rw [hrest] at ht
    simp at ht
  · exact ⟨s, r, t, zs, ws, c, hq, hr, hzs, hws, hrun, hserved⟩

end Memory

end MyosIo.Sched
