import Mathlib.Data.List.TakeWhile
import MyosIo.Sched.Places

/-! The lock of `schedulable_threads` serves cores in the order in which they have entered, and
each of them takes one thread from the front. A thread that `timer_isr` has published is behind
those of the cores that are served before its own core, as long as no core enters before it. -/
namespace MyosIo.Sched

open Function

variable {C T P : Type*}

/-- The core has entered the lock and not left it. -/
def Pc.locking : Pc T → Bool
  | .spin _ | .pop _ | .unlock _ _ => true
  | _ => false

/-- The core has the lock. -/
def Pc.serving : Pc T → Bool
  | .pop _ | .unlock _ _ => true
  | _ => false

/-- The core has entered the lock and still has to take a thread. -/
def Pc.taking : Pc T → Bool
  | .spin _ | .pop _ => true
  | _ => false

/-- The thread that `timer_isr` has published, while the core has not entered the lock. -/
def Pc.published : Pc T → Option T
  | .tickLink me => some me
  | .lock cur => cur
  | _ => none

/-- The same, while the core has not taken a thread. -/
def Pc.waiting : Pc T → Option T
  | .tickLink me => some me
  | .lock cur | .spin cur | .pop cur => cur
  | _ => none

/-- The same, while the core has not left the lock: its node is below the stack of the thread. -/
def Pc.standing : Pc T → Option T
  | .tickLink me => some me
  | .lock cur | .spin cur | .pop cur | .unlock cur _ => cur
  | _ => none

theorem Pc.locking_of_serving {p : Pc T} (h : p.serving) : p.locking := by
  cases p <;> first | rfl | cases h

theorem Pc.removing_of_taking {p : Pc T} (h : p.taking) : p.removing := by
  cases p <;> first | rfl | cases h

/-- Outside of the lock a core that waits has just published its thread. -/
theorem Pc.published_of_waiting {p : Pc T} {me : T} (h : p.waiting = some me)
    (hp : p.locking = false) : p.published = some me := by
  cases p with
  | tickLink | lock => exact h
  | spin | pop => cases hp
  | _ => cases h

/-- What a step does to the lock and to the front of the list. -/
inductive Turn [DecidableEq C] (s t : State C T P) : Prop
  | stay {ts : List T} (hlock : t.lock = s.lock) (hqueue : t.queue = s.queue ++ ts)
      (hpc : ∀ c, t.pc c = s.pc c ∨ (s.pc c).locking = false ∧ (t.pc c).locking = false ∧
        ∀ me, (t.pc c).waiting = some me → (s.pc c).waiting = some me)
  | publish {c : C} {me : T} (hp : s.pc c = .tickAppend me)
      (h : t = { s.setPc c (.tickLink me) with queue := s.queue ++ [me] })
  | enter {c : C} {cur : Option T} (hp : s.pc c = .lock cur)
      (h : t = { s.setPc c (.spin cur) with lock := s.lock ++ [c] })
  | grant {c : C} {cur : Option T} (hp : s.pc c = .spin cur) (hl : s.lock.head? = some c)
      (h : t = s.setPc c (.pop cur))
  | take {c : C} {cur : Option T} {u : T} {q : List T} (hp : s.pc c = .pop cur)
      (hq : s.queue = u :: q) (h : t = { s.setPc c (.unlock cur u) with queue := q })
  | leave {c : C} {cur : Option T} {u : T} (hp : s.pc c = .unlock cur u)
      (h : t = { s.setPc c (.clear cur u) with lock := s.lock.tail })

variable [DecidableEq C] [DecidableEq T] {s t : State C T P} {e : Event C T} {c d : C} {me u : T}

theorem Step.turn (hs : Step s e t) : Turn s t := by
  cases hs with
  | lock hp => exact .enter hp rfl
  | grant hp hl => exact .grant hp hl rfl
  | remove hp hq => exact .take hp hq rfl
  | unlock hp => exact .leave hp rfl
  | tickAppend hp => exact .publish hp rfl
  | append | keyboardBusy =>
    refine .stay rfl rfl fun d => ?_
    simp only [State.setPc, State.append, update_apply]
    grind -linarith [Pc.locking, Pc.waiting]
  | deliverRun => exact .stay rfl (List.append_nil _).symm fun d => .inl rfl
  | _ =>
    refine .stay rfl (List.append_nil _).symm fun d => ?_
    simp only [State.setPc, update_apply]
    grind -linarith [Pc.locking, Pc.waiting]

/-- The cores in the lock, and the one that has it. -/
structure Locked (s : State C T P) : Prop where
  nodup : s.lock.Nodup
  mem : ∀ c, c ∈ s.lock ↔ (s.pc c).locking
  serving : ∀ c, (s.pc c).serving → s.lock.head? = some c

omit [DecidableEq C] [DecidableEq T] in
theorem Locked.cons (hi : Locked s) (hc : (s.pc c).serving) : ∃ q, s.lock = c :: q ∧ c ∉ q := by
  obtain ⟨q, hq⟩ := List.head?_eq_some_iff.mp (hi.serving c hc)
  have hnd := hi.nodup
  rw [hq] at hnd
  exact ⟨q, hq, (List.nodup_cons.mp hnd).1⟩

omit [DecidableEq T] in
/-- A core moves and neither enters the lock nor leaves it. -/
theorem Locked.move {p : Pc T} (hi : Locked s) (hlock : t.lock = s.lock)
    (hpc : t.pc = update s.pc c p) (hp : p.locking = (s.pc c).locking)
    (hserving : p.serving → s.lock.head? = some c) : Locked t := by
  refine ⟨hlock ▸ hi.nodup, fun d => ?_, fun d hd => ?_⟩
  · rw [hlock, hpc, update_apply, hi.mem d]
    split
    next h => rw [h, hp]
    next => rfl
  · rw [hpc, update_apply] at hd
    rw [hlock]
    split at hd
    next h => exact h ▸ hserving hd
    next => exact hi.serving d hd

omit [DecidableEq T] in
theorem locked_turn (hi : Locked s) (h : Turn s t) : Locked t := by
  cases h with
  | stay hlock hqueue hpc =>
    refine ⟨hlock ▸ hi.nodup, fun d => ?_, fun d hd => ?_⟩
    · rw [hlock, hi.mem d]
      obtain hd | ⟨hs, ht, -⟩ := hpc d
      · rw [hd]
      · rw [hs, ht]
    · rw [hlock]
      obtain hpd | ⟨-, ht, -⟩ := hpc d
      · exact hi.serving d (hpd ▸ hd)
      · rw [Pc.locking_of_serving hd] at ht
        cases ht
  | @publish c me hp h =>
    subst h
    exact hi.move rfl rfl (by rw [hp]; rfl) nofun
  | @enter c cur hp h =>
    subst h
    have hc : c ∉ s.lock := by rw [hi.mem c, hp]; exact Bool.false_ne_true
    refine ⟨?_, fun d => ?_, fun d hd => ?_⟩
    · exact hi.nodup.append (List.nodup_singleton c) (List.disjoint_singleton.mpr hc)
    · have := hi.mem d
      simp only [State.setPc, update_apply, List.mem_append, List.mem_singleton]
      grind -linarith [Pc.locking]
    · have := hi.serving d
      simp only [State.setPc, update_apply, List.head?_append] at hd ⊢
      grind -linarith [Pc.serving]
  | @grant c cur hp hl h =>
    subst h
    exact hi.move rfl rfl (by rw [hp]; rfl) fun _ => hl
  | @take c cur u q hp hq h =>
    subst h
    exact hi.move rfl rfl (by rw [hp]; rfl) fun _ => hi.serving c (by rw [hp]; rfl)
  | @leave c cur u hp h =>
    subst h
    obtain ⟨q, hq, hc⟩ := hi.cons (c := c) (by rw [hp]; rfl)
    have hnd := hi.nodup
    rw [hq] at hnd
    refine ⟨?_, fun d => ?_, fun d hd => ?_⟩
    · change s.lock.tail.Nodup
      rw [hq]
      exact (List.nodup_cons.mp hnd).2
    · have := hi.mem d
      simp only [State.setPc, update_apply, hq, List.tail_cons, List.mem_cons] at this ⊢
      grind -linarith [Pc.locking]
    · -- the one that leaves has had the lock
      have hother := hi.serving d
      simp only [State.setPc, update_apply] at hd
      grind -linarith [Pc.serving]

/-- The cores that are served before `d` and still have to take a thread. -/
def State.ahead (s : State C T P) (d : C) : List C :=
  (s.lock.takeWhile fun c => c ≠ d).filter fun c => (s.pc c).taking

omit [DecidableEq T] in
theorem ahead_congr
    (hlock : t.lock.takeWhile (fun c => c ≠ d) = s.lock.takeWhile fun c => c ≠ d)
    (h : ∀ c ∈ s.lock, (t.pc c).taking = (s.pc c).taking) : t.ahead d = s.ahead d := by
  rw [State.ahead, hlock]
  refine List.filter_congr fun c hc => h c ?_
  exact (List.takeWhile_prefix _).subset hc

omit [DecidableEq T] in
/-- The core that has the lock is before every other one. -/
theorem ahead_cons {q : List C} (hq : s.lock = c :: q) (hd : d ≠ c) : s.ahead d =
    (c :: q.takeWhile fun c => c ≠ d).filter fun c => (s.pc c).taking := by
  rw [State.ahead, hq, List.takeWhile_cons_of_pos (by simpa using hd.symm)]

omit [DecidableEq T] in
/-- A core outside of the lock moves. -/
theorem taking_of_outside {p : Pc T} (hl : Locked s) (hc : (s.pc c).locking = false) :
    ∀ d ∈ s.lock, (update s.pc c p d).taking = (s.pc d).taking := by
  intro d hd
  have hne : d ≠ c := by
    rintro rfl
    rw [hl.mem d, hc] at hd
    cases hd
  rw [update_of_ne hne]

/-- Every thread that `timer_isr` has published is behind those that the cores before its own one
will take, and once that core has taken one it is still there or has been taken by it. -/
structure Behind (s : State C T P) : Prop where
  waiting : ∀ d me, (s.pc d).waiting = some me → me ∈ s.queue.drop (s.ahead d).length
  taken : ∀ d me u, s.pc d = .unlock (some me) u → me ∈ s.queue ∨ u = me

/-- No core enters the lock while another one has published its thread and has not entered. -/
def InOrder (s t : State C T P) : Prop :=
  ∀ c, (s.pc c).locking = false → (t.pc c).locking → ∀ d ≠ c, (s.pc d).published = none

omit [DecidableEq T] in
theorem ahead_length_le [Fintype C] (hl : Locked s) (d : C) :
    (s.ahead d).length ≤ (Finset.univ.filter fun c => (s.pc c).removing).card := by
  have hnd : (s.ahead d).Nodup := (hl.nodup.sublist (List.takeWhile_sublist _)).filter _
  rw [← List.toFinset_card_of_nodup hnd]
  refine Finset.card_le_card fun c hc => ?_
  have htaking := (List.mem_filter.mp (List.mem_toFinset.mp hc)).2
  simpa using Pc.removing_of_taking htaking

omit [DecidableEq T] in
theorem Behind.stay {ts : List T} (hl : Locked s) (hi : Behind s) (hlock : t.lock = s.lock)
    (hqueue : t.queue = s.queue ++ ts)
    (hpc : ∀ c, t.pc c = s.pc c ∨ (s.pc c).locking = false ∧ (t.pc c).locking = false ∧
      ∀ me, (t.pc c).waiting = some me → (s.pc c).waiting = some me) : Behind t := by
  have hahead (d : C) : t.ahead d = s.ahead d := by
    refine ahead_congr (by rw [hlock]) fun c hc => ?_
    obtain hpc | ⟨hs, -⟩ := hpc c
    · rw [hpc]
    · rw [hl.mem c, hs] at hc
      cases hc
  refine ⟨fun d me hd => ?_, fun d me u hd => ?_⟩
  · have hwait : (s.pc d).waiting = some me := by
      obtain hpd | ⟨-, -, hw⟩ := hpc d
      · rwa [← hpd]
      · exact hw me hd
    rw [hqueue, hahead, List.drop_append]
    exact List.mem_append_left _ (hi.waiting d me hwait)
  · obtain hpd | ⟨-, hlocking, -⟩ := hpc d
    · rw [hqueue, List.mem_append]
      exact (hi.taken d me u (hpd ▸ hd)).imp_left .inl
    · rw [hd] at hlocking
      cases hlocking

omit [DecidableEq T] in
/-- A node is left for every core that is on its way to one. -/
theorem Behind.publish [Fintype C] (ht : Tokens s) (hl : Locked s) (hi : Behind s)
    (hp : s.pc c = .tickAppend me) :
    Behind { s.setPc c (.tickLink me) with queue := s.queue ++ [me] } := by
  have hahead (d : C) : State.ahead { s.setPc c (.tickLink me) with
      queue := s.queue ++ [me] } d = s.ahead d :=
    ahead_congr rfl (taking_of_outside hl (by rw [hp]; rfl))
  refine ⟨fun d u hd => ?_, fun d u v hd => ?_⟩
  · rw [hahead]
    simp only [State.setPc, update_apply] at hd ⊢
    split at hd
    · obtain rfl : me = u := Option.some.inj hd
      have hroom : (s.ahead d).length ≤ s.queue.length := by
        have := ahead_length_le hl d
        have := ht.room
        omega
      rw [List.drop_append_of_le_length hroom]
      exact List.mem_append_right _ (List.mem_singleton_self me)
    · rw [List.drop_append]
      exact List.mem_append_left _ (hi.waiting d u hd)
  · simp only [State.setPc, update_apply] at hd
    split at hd
    · cases hd
    · exact (hi.taken d u v hd).imp_left (List.mem_append_left _)

omit [DecidableEq T] in
theorem Behind.enter {cur : Option T} (hl : Locked s) (hi : Behind s) (hp : s.pc c = .lock cur)
    (ho : InOrder s { s.setPc c (.spin cur) with lock := s.lock ++ [c] }) :
    Behind { s.setPc c (.spin cur) with lock := s.lock ++ [c] } := by
  have hc : c ∉ s.lock := by rw [hl.mem c, hp]; exact Bool.false_ne_true
  have hcount (d : C) (hd : d = c ∨ d ∈ s.lock) : State.ahead { s.setPc c (.spin cur) with
      lock := s.lock ++ [c] } d = s.ahead d := by
    refine ahead_congr ?_ (taking_of_outside hl (by rw [hp]; rfl))
    obtain rfl | hd := hd
    · have hall : ∀ x ∈ s.lock, decide (x ≠ d) = true := fun x hx => by
        simpa using ne_of_mem_of_not_mem hx hc
      rw [List.takeWhile_append_of_pos hall, List.takeWhile_eq_self_iff.mpr hall]
      simp
    · obtain ⟨l, r, hlr⟩ := List.append_of_mem hd
      have hall : ∀ x ∈ l, decide (x ≠ d) = true := fun x hx => by
        have hnd := hl.nodup
        rw [hlr] at hnd
        simpa using (List.nodup_append.mp hnd).2.2 x hx d List.mem_cons_self
      change (s.lock ++ [c]).takeWhile _ = _
      rw [hlr, List.append_assoc, List.takeWhile_append_of_pos hall,
        List.takeWhile_append_of_pos hall]
      simp
  have hin : ∀ d ≠ c, ∀ me, (s.pc d).waiting = some me → d ∈ s.lock := by
    intro d hd me hme
    by_contra hout
    rw [hl.mem d, Bool.not_eq_true] at hout
    have hnone := ho c (by rw [hp]; rfl) (by simp [State.setPc, Pc.locking]) d hd
    cases hnone.symm.trans (Pc.published_of_waiting hme hout)
  refine ⟨fun d me hd => ?_, fun d me u hd => ?_⟩
  · rcases eq_or_ne d c with rfl | hne
    · rw [hcount d (.inl rfl)]
      refine hi.waiting d me ?_
      rw [hp]
      simpa [State.setPc, Pc.waiting] using hd
    · simp only [State.setPc, update_of_ne hne] at hd
      rw [hcount d (.inr (hin d hne me hd))]
      exact hi.waiting d me hd
  · simp only [State.setPc, update_apply] at hd
    split at hd
    · cases hd
    · exact hi.taken d me u hd

omit [DecidableEq T] in
theorem Behind.grant {cur : Option T} (hi : Behind s) (hp : s.pc c = .spin cur) :
    Behind (s.setPc c (.pop cur)) := by
  have hahead (d : C) : State.ahead (s.setPc c (.pop cur)) d = s.ahead d := by
    refine ahead_congr rfl fun c' _ => ?_
    rcases eq_or_ne c' c with rfl | hne
    · simp [State.setPc, hp, Pc.taking]
    · simp [State.setPc, update_of_ne hne]
  refine ⟨fun d me hd => ?_, fun d me u hd => ?_⟩
  · rw [hahead]
    refine hi.waiting d me ?_
    simp only [State.setPc, update_apply] at hd
    grind -linarith [Pc.waiting]
  · simp only [State.setPc, update_apply] at hd
    split at hd
    · cases hd
    · exact hi.taken d me u hd

omit [DecidableEq T] in
theorem Behind.take {cur : Option T} {q : List T} (hl : Locked s) (hi : Behind s)
    (hp : s.pc c = .pop cur) (hq : s.queue = u :: q) :
    Behind { s.setPc c (.unlock cur u) with queue := q } := by
  obtain ⟨r, hr, hc⟩ := hl.cons (c := c) (by rw [hp]; rfl)
  refine ⟨fun d me hd => ?_, fun d me v hd => ?_⟩
  · rcases eq_or_ne d c with rfl | hne
    · simp [State.setPc, Pc.waiting] at hd
    · have hwait : (s.pc d).waiting = some me := by simpa [State.setPc, hne] using hd
      have hless : (s.ahead d).length = (State.ahead { s.setPc c (.unlock cur u) with
          queue := q } d).length + 1 := by
        rw [ahead_cons hr hne, ahead_cons (s := { s.setPc c (.unlock cur u) with queue := q })
          hr hne, List.filter_cons_of_pos (by simp [hp, Pc.taking]),
          List.filter_cons_of_neg (by simp [State.setPc, Pc.taking]), List.length_cons]
        refine congrArg (List.length · + 1) (List.filter_congr fun x hx => ?_)
        have hx : x ≠ c := ne_of_mem_of_not_mem ((List.takeWhile_prefix _).subset hx) hc
        simp [State.setPc, hx]
      have hmem := hi.waiting d me hwait
      rw [hq, hless, List.drop_succ_cons] at hmem
      exact hmem
  · rcases eq_or_ne d c with rfl | hne
    · obtain ⟨rfl, rfl⟩ : cur = some me ∧ u = v := by simpa [State.setPc] using hd
      have hmem := hi.waiting d me (by rw [hp]; rfl)
      rw [State.ahead, hr, List.takeWhile_cons_of_neg (by simp), hq] at hmem
      exact (List.mem_cons.mp hmem).symm.imp id Eq.symm
    · -- two cores cannot have the lock
      have hd : s.pc d = .unlock (some me) v := by simpa [State.setPc, hne] using hd
      have hhead := (hl.serving d (by rw [hd]; rfl)).symm.trans
        (hl.serving c (by rw [hp]; rfl))
      exact absurd (Option.some.inj hhead) hne

omit [DecidableEq T] in
theorem Behind.leave {cur : Option T} (hl : Locked s) (hi : Behind s)
    (hp : s.pc c = .unlock cur u) :
    Behind { s.setPc c (.clear cur u) with lock := s.lock.tail } := by
  obtain ⟨r, hr, hc⟩ := hl.cons (c := c) (by rw [hp]; rfl)
  refine ⟨fun d me hd => ?_, fun d me v hd => ?_⟩
  · rcases eq_or_ne d c with rfl | hne
    · simp [State.setPc, Pc.waiting] at hd
    · have hwait : (s.pc d).waiting = some me := by simpa [State.setPc, hne] using hd
      have hsame : State.ahead { s.setPc c (.clear cur u) with lock := s.lock.tail } d =
          s.ahead d := by
        rw [ahead_cons hr hne, List.filter_cons_of_neg (by simp [hp, Pc.taking]), State.ahead]
        change List.filter _ (s.lock.tail.takeWhile _) = _
        rw [hr, List.tail_cons]
        refine List.filter_congr fun x hx => ?_
        have hx : x ≠ c := ne_of_mem_of_not_mem ((List.takeWhile_prefix _).subset hx) hc
        simp [State.setPc, hx]
      rw [hsame]
      exact hi.waiting d me hwait
  · simp only [State.setPc, update_apply] at hd
    split at hd
    · cases hd
    · exact hi.taken d me v hd

omit [DecidableEq T] in
theorem behind_turn [Fintype C] (ht : Tokens s) (hl : Locked s) (hi : Behind s) (h : Turn s t)
    (ho : InOrder s t) : Behind t := by
  cases h with
  | stay hlock hqueue hpc => exact hi.stay hl hlock hqueue hpc
  | publish hp h =>
    subst h
    exact hi.publish ht hl hp
  | enter hp h =>
    subst h
    exact hi.enter hl hp ho
  | grant hp _ h =>
    subst h
    exact hi.grant hp
  | take hp hq h =>
    subst h
    exact hi.take hl hp hq
  | leave hp h =>
    subst h
    exact hi.leave hl hp

omit [DecidableEq T] in
/-- A thread below whose stack pointer a core keeps its node is in the list, or that core has taken
it back. -/
theorem Behind.kept (hi : Behind s) {me : T} (hd : (s.pc d).standing = some me) :
    me ∈ s.queue ∨ s.hand d = some me := by
  have hw := hi.waiting d me
  cases hp : s.pc d with
  | unlock cur u =>
    rw [hp] at hd
    obtain rfl : cur = some me := hd
    refine (hi.taken d me u hp).imp_right ?_
    rintro rfl
    simp [State.hand, hp, Pc.hand]
  | tickLink | lock | spin | pop =>
    rw [hp] at hd hw
    exact .inl (List.mem_of_mem_drop (hw hd))
  | _ =>
    rw [hp] at hd
    cases hd

theorem Behind.not_taken [Fintype C] (hi : Behind s) (hp : Placed s) {me : T}
    (hd : (s.pc d).standing = some me) (hc : s.hand c = some me) : c = d := by
  obtain hq | hh := hi.kept hd
  · exact absurd hq (hp.not_queued hc)
  · exact hp.hand_unique hc hh

/-- No two cores keep their node below one thread. -/
def Alone (s : State C T P) : Prop :=
  ∀ c d me, (s.pc c).standing = some me → (s.pc d).standing = some me → c = d

/-- Only the core that has a thread in its hands publishes it. -/
theorem standing_step_cases (hs : Step s e t) {me : T} (hc : (t.pc c).standing = some me) :
    (s.pc c).standing = some me ∨ s.hand c = some me := by
  cases hs
  all_goals
    simp only [State.setPc, State.append, State.hand, update_apply] at *
  all_goals
    grind -linarith [Pc.standing, Pc.hand]

theorem alone_step [Fintype C] (hp : Placed s) (hb : Behind s) (hi : Alone s) (hs : Step s e t) :
    Alone t := by
  intro c d me hc hd
  rcases standing_step_cases hs hc with hc' | hc' <;>
    rcases standing_step_cases hs hd with hd' | hd'
  · exact hi c d me hc' hd'
  · exact (hb.not_taken hp hc' hd').symm
  · exact hb.not_taken hp hd' hc'
  · exact hp.hand_unique hc' hd'

section

variable [Fintype C]

theorem pc_boot (bsp : C) (main : T) (proc : C → P) (c : C) : (boot bsp main proc).pc c = .run ∨
    (boot bsp main proc).pc c = .idle := by
  simp only [boot]
  split
  · exact .inl rfl
  · exact .inr rfl

variable {bsp : C} {main : T} {proc : C → P}

theorem locked_boot : Locked (boot bsp main proc : State C T P) := by
  refine ⟨List.nodup_nil, fun c => ?_, fun c hc => ?_⟩
  · change c ∈ [] ↔ _
    obtain hp | hp := pc_boot bsp main proc c <;>
      simp [hp, Pc.locking]
  · obtain hp | hp := pc_boot bsp main proc c <;>
      simp [hp, Pc.serving] at hc

theorem behind_boot : Behind (boot bsp main proc : State C T P) := by
  refine ⟨fun c me hc => ?_, fun c me u hc => ?_⟩ <;>
    obtain hp | hp := pc_boot bsp main proc c <;>
      simp [hp, Pc.waiting] at hc

theorem alone_boot : Alone (boot bsp main proc : State C T P) := by
  intro c d me hc
  obtain hp | hp := pc_boot bsp main proc c <;>
    simp [hp, Pc.standing] at hc

end

end MyosIo.Sched
