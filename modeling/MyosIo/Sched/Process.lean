import MyosIo.Sched.Places

/-! A kernel thread carries the process of the core that runs it in `proc`, where the core reads
it again when it leaves the thread. -/
namespace MyosIo.Sched

open Function

variable {C T P : Type*}

/-- The thread whose `proc` a core takes for its own process. -/
def Pc.tenant [DecidableEq T] (r : Option T) : Pc T → Option T
  | .run | .link _ | .incNum _ | .testNum _ | .testIdle _ | .ipi _ | .incOld _ => r
  | .tickFail | .tick | .leave | .handOff _ => r
  | .tickAppend me | .tickLink me => some me
  | .lock cur | .spin cur | .pop cur | .unlock cur _ | .clear cur _ => cur
  | .finish me t => if t = me then some me else none
  | _ => none

/-- The thread under whose stack pointer the core keeps its lock node. -/
def Pc.preempting : Pc T → Option T
  | .tickLink me => some me
  | .lock cur | .spin cur | .pop cur | .unlock cur _ | .clear cur _ => cur
  | _ => none

/-- The thread a core has published and still needs. -/
def Pc.exposed (r : Option T) : Pc T → Option T
  | .leave | .handOff _ => r
  | p => p.preempting

/-- The step does not dispatch a thread that another core has published and still needs: its
`proc` is not read yet, or the core is inside `timer_isr` and may return to it. -/
def Left (s : State C T P) : Event C T → Prop
  | .dispatch c t => ∀ d ≠ c, (s.pc d).exposed (s.running d) ≠ some t
  | _ => True

variable [DecidableEq C] [DecidableEq T] [Fintype C]

structure Stable (proc : C → P) (s : State C T P) : Prop where
  core : s.coreProc = proc
  thread : ∀ c u, (s.pc c).tenant (s.running c) = some u → s.threadProc u = proc c

variable {s t : State C T P} {e : Event C T} {bsp : C} {main : T} {proc : C → P}

omit [DecidableEq C] [Fintype C] in
theorem tenant_held {c : C} {u : T} (h : (s.pc c).tenant (s.running c) = some u) :
    s.hand c = some u ∨ (s.pc c).exposed (s.running c) = some u := by
  simp only [State.hand]
  cases hp : s.pc c <;> simp_all [Pc.tenant, Pc.hand, Pc.exposed, Pc.preempting]

omit [Fintype C] in
theorem core_step (hi : Stable proc s) (hs : Step s e t) : t.coreProc = proc := by
  have hc := hi.core
  have ht (c : C) := hi.thread c
  cases hs
  all_goals
    simp only [State.setPc, State.append]
  all_goals
    grind -linarith [Pc.tenant, update_eq_self_iff]

theorem thread_step (hst : Standing s) (hp : Placed s) (hi : Stable proc s) (hs : Step s e t)
    (he : Left s e) {d : C} {u : T} (hd : (t.pc d).tenant (t.running d) = some u) :
    t.threadProc u = proc d := by
  have hc := hi.core
  have ht := hi.thread d
  have hstd := hst d
  cases hs
  case switch c w hw =>
    have hcw : s.hand c = some w := by simp [State.hand, hw, Pc.hand]
    rcases eq_or_ne d c with rfl | hdc
    · obtain rfl : w = u := by simpa [State.setPc, Pc.tenant] using hd
      simp [hc]
    · simp only [State.setPc, update_of_ne hdc] at hd
      have huw : u ≠ w := by
        rintro rfl
        rcases tenant_held hd with hh | hex
        · exact hdc (hp.hand_unique hh hcw)
        · exact he d hdc hex
      simpa [State.setPc, huw] using ht u hd
  all_goals
    simp only [State.setPc, State.append, update_apply] at *
  all_goals
    grind -linarith [Pc.tenant, Pc.stands]

theorem stable_boot : Stable proc (boot bsp main proc : State C T P) := by
  refine ⟨rfl, fun c u hu => ?_⟩
  by_cases hc : c = bsp
  · simp [boot, hc]
  · simp [boot, hc, Pc.tenant] at hu

variable {xs : List (State C T P × Event C T)}

theorem run_stable (h : Run (Traced Step) (boot bsp main proc) xs s)
    (hx : ∀ x ∈ xs, Left x.1 x.2) : Standing s ∧ Placed s ∧ Stable proc s := by
  induction h with
  | refl => exact ⟨standing_boot, placed_boot, stable_boot⟩
  | @step xs s t x _ hs ih =>
    obtain ⟨hst, hp, hi⟩ := ih fun y hy => hx y (List.mem_append_left _ hy)
    obtain ⟨rfl, hs⟩ := hs
    have hleft := hx x (by simp)
    exact ⟨standing_step hst hs, placed_step hst hp hs, core_step hi hs,
      fun _ _ => thread_step hst hp hi hs hleft⟩

/-- Where no core dispatches a thread that another core has published and still needs, every
core keeps the process it has started with. -/
theorem process_stable (h : Run (Traced Step) (boot bsp main proc) xs s)
    (hx : ∀ x ∈ xs, Left x.1 x.2) : s.coreProc = proc ∧
      ∀ c u, (s.pc c).tenant (s.running c) = some u → s.threadProc u = proc c :=
  ⟨(run_stable h hx).2.2.core, (run_stable h hx).2.2.thread⟩

/-- Core `false` blocks the main thread, and core `true` is woken for it afterwards. -/
theorem process_stable_sample : ∃ (xs : List (State Bool ℕ Bool × Event Bool ℕ))
    (s : State Bool ℕ Bool), Run (Traced Step) (boot false 0 id) xs s ∧
      s.running true = some 0 ∧ s.coreProc = id := by
  have h : Run (Traced Step) (boot false 0 id : State Bool ℕ Bool) [] _ := .refl
  have h := (h.trace (.publish (c := false) (t := 0) rfl rfl)).trace
    (.readProc (c := false) rfl rfl)
  have h := (h.trace (.announce (c := false) rfl)).trace (.setNull (c := false) rfl)
  have h := (h.trace (.keyboardIdle (c := true) (t := 0) (.inl rfl) rfl)).trace
    (.wake (c := true) rfl)
  have h := h.trace (.switch (c := true) rfl)
  refine ⟨_, _, h, rfl, (process_stable h ?_).1⟩
  simp only [List.nil_append, List.cons_append, List.forall_mem_cons, List.not_mem_nil,
    IsEmpty.forall_iff, implies_true, and_true, Left, true_and]
  decide

/-- Core `true` is woken for the main thread before core `false`, which has published it, has
read its process. -/
theorem not_always_stable : ∃ (xs : List (Event Bool ℕ)) (s : State Bool ℕ Bool),
    Run Step (boot false 0 id) xs s ∧ s.pc false = .announce ∧ s.coreProc false = true := by
  have h : Run Step (boot false 0 id : State Bool ℕ Bool) [] _ := .refl
  have h := h.step (.publish (c := false) (t := 0) rfl rfl)
  have h := (h.step (.keyboardIdle (c := true) (t := 0) (.inl rfl) rfl)).step
    (.wake (c := true) rfl)
  have h := (h.step (.switch (c := true) rfl)).step (.readProc (c := false) rfl rfl)
  exact ⟨_, _, h, rfl, rfl⟩

end MyosIo.Sched
