import MyosIo.Mutex.Broadcast

/-! Cores, the interrupt flag and the timer over the mutex: a thread executes on a core, and is
preempted where interrupts are enabled. `mtx_lock` and `cnd_wait` disable interrupts before they
touch the queue, and so does `al_clear`; `cnd_broadcast` leaves them as its caller has them. -/
namespace MyosIo.Mutex

open Function

variable {C K T : Type*}

/-- `running` is the `running_thread` of a core, `off` whether a thread has disabled interrupts
itself. -/
structure Machine (C K T : Type*) where
  base : State K T
  running : C → Option T
  off : T → Bool

/-- The thread is between the `cli` and the `sti` of a routine. -/
def State.masked (s : State K T) (a : T) : Prop :=
  match s.pc a with
  | .lockSlow =>
    match s.core.op a with
    | .enter _ _ .loadEnd | .enter _ _ .cas | .enter _ _ .exchange | .enter _ _ .casNode
    | .enter _ _ (.link _) => True
    | _ => False
  | .waitAppend _ _ | .waitLink _ _ | .release => True
  | .clearEnd _ | .clearHead _ | .clearExchange _ | .clearUnlock _ => True
  | _ => False

def Machine.disabled (m : Machine C K T) (a : T) : Prop := m.off a = true ∨ m.base.masked a

/-- Whom the core runs after a step of `a`: `switch_to` the new owner, `switch_to_empty`, or `a`. -/
def after (s : State K T) (a : T) (t : State K T) : Option T :=
  match s.pc a, s.core.op a with
  | .release, .done (.handed w) => some w
  | _, _ =>
    match t.pc a with
    | .asleep _ => none
    | _ => some a

variable [DecidableEq C] [DecidableEq K] [DecidableEq T]

inductive Machine.Step : Machine C K T → Option (T × Act K T) → Machine C K T → Prop
  | exec {m : Machine C K T} {c : C} {a : T} {l : Act K T} {t : State K T}
      (hc : m.running c = some a)
      (hs : Mutex.Step m.base (a, l) t) :
      Step m (some (a, l)) { m with base := t, running := update m.running c (after m.base a t) }
  | preempt {m : Machine C K T} {c : C} {a : T} (hc : m.running c = some a) (hi : ¬ m.disabled a) :
      Step m none { m with running := update m.running c none }
  | resume {m : Machine C K T} {c : C} {a : T} (hc : m.running c = none)
      (ha : ∀ d, m.running d ≠ some a) (hp : ¬ (m.base.pc a).sleeps ∧ m.base.pc a ≠ .ready) :
      Step m none { m with running := update m.running c (some a) }
  | dispatch {m : Machine C K T} {c : C} {a : T} {t : State K T} (hc : m.running c = none)
      (hp : m.base.pc a = .ready) (hs : Mutex.Step m.base (a, .silent) t) (hr : t.pc a = .ret) :
      Step m none { m with base := t, running := update m.running c (some a) }
  | schedule {m : Machine C K T} {a : T} {t : State K T} (hp : m.base.pc a = .ready)
      (hs : Mutex.Step m.base (a, .silent) t) (hr : t.pc a = .ready) :
      Step m none { m with base := t }
  | flag {m : Machine C K T} {c : C} {a : T} {v : Bool} (hc : m.running c = some a)
      (hp : m.base.pc a = .out) : Step m none { m with off := update m.off a v }

/-- No core runs a thread yet. -/
def Machine.init (recursive : Bool) (mem : T → Word T) : Machine C K T where
  base := .init recursive mem
  running _ := none
  off _ := false

/-- A core with interrupts disabled waits in a release for a link. -/
def Machine.spins (m : Machine C K T) (c : C) (x : Cell T) : Prop :=
  ∃ a, m.running c = some a ∧ m.disabled a ∧ (m.base.pc a = .release ∨ m.base.pc a = .unlock) ∧
    (m.base.core.op a).spins = some x ∧ m.base.core.mem x = .null

/-- The thread that owes the link executes on another core, which has interrupts disabled. -/
def Machine.served (m : Machine C K T) (c : C) (x : Cell T) : Prop :=
  ∃ d b n, d ≠ c ∧ m.running d = some b ∧ m.disabled b ∧ (m.base.core.op b).owes = some (x, n)

/-- A broadcast that queues a thread behind another one has interrupts disabled. -/
def Covered (e : Machine C K T × Option (T × Act K T)) : Prop :=
  ∀ b n, e.2 = some (b, .words (.enter n)) → e.1.base.pc b = .move n →
    e.1.base.core.waitEnd ≠ none → e.1.off b = true

/-- Whoever owes a link executes with interrupts disabled. -/
structure Machine.Inv (m : Machine C K T) : Prop where
  base : ∃ q loc, Mutex.Inv q loc m.base
  owes : ∀ b x n, (m.base.core.op b).owes = some (x, n) → (∃ d, m.running d = some b) ∧
    (m.base.pc b = .lockSlow ∨ m.off b = true ∧ ∃ n, m.base.pc b = .move n)

variable {q : Queue T T} {loc : T → Loc K T} {s t : State K T} {m m' : Machine C K T} {a b n : T}
  {x : Cell T} {l : Act K T} {e : Option (T × Act K T)} {recursive : Bool} {mem : T → Word T}
  {xs : List (Machine C K T × Option (T × Act K T))} {c : C}

omit [DecidableEq T] in
theorem inside_of_owes {o : Op T} (h : o.owes = some (x, n)) : ∃ v, o.phase = .inside v n := by
  unfold Op.owes at h
  split at h
  · simp only [Option.some.injEq, Prod.mk.injEq] at h
    obtain ⟨-, rfl⟩ := h
    exact ⟨_, rfl⟩
  · cases h

omit [DecidableEq K] [DecidableEq T] in
/-- Where a thread is that owes a link. -/
theorem Inv.pc_of_owes (hI : Inv q loc s) (h : (s.core.op b).owes = some (x, n)) :
    (∃ v, s.pc b = .lockFast v) ∨ s.pc b = .lockSlow ∨ ∃ n, s.pc b = .move n := by
  obtain ⟨v, hv⟩ := inside_of_owes h
  have := (hI.here b).fits.cases
  rw [hv] at this
  rcases this with ⟨-, -, h | h⟩ | ⟨-, h⟩
  · exact .inr (.inl h)
  · exact .inl h
  · exact .inr (.inr ⟨_, h⟩)

omit [DecidableEq K] [DecidableEq T] in
/-- Such a thread is not asleep. -/
theorem Inv.awake_of_owes (hI : Inv q loc s) (h : (s.core.op b).owes = some (x, n)) :
    ¬ (s.pc b).sleeps := by
  rcases hI.pc_of_owes h with ⟨v, hp⟩ | hp | ⟨n, hp⟩ <;> simp [hp, Pc.sleeps]

/-- A step of another thread does not touch one that owes a link. -/
theorem owes_other (hI : Inv q loc s) (hs : Step s (a, l) t) (hb : b ≠ a)
    (ho : (t.core.op b).owes = some (x, n)) :
    (s.core.op b).owes = some (x, n) ∧ t.pc b = s.pc b := by
  rw [hs.op_of_ne hb] at ho
  exact ⟨ho, (hI.pc_of_ne hs hb).resolve_right fun h => hI.awake_of_owes ho h.1⟩

theorem Core.Step.owes {s t : Core T T} {e : Ev T} (hs : Core.Step s (a, e) t)
    (ho : (t.op a).owes = some (x, n)) :
    e = .enter n ∧ s.waitEnd = some x ∧ ∃ v, s.op a = .enter v n .exchange := by
  cases hs with
  | @exchange _ b m hop =>
    cases hend : s.waitEnd with
    | none => simp [hend, Op.owes] at ho
    | some c =>
      simp only [hend, Core.setOp_op, update_self, Op.owes, Option.some.injEq,
        Prod.mk.injEq] at ho
      obtain ⟨rfl, rfl⟩ := ho
      exact ⟨rfl, rfl, b, hop⟩
  | _ =>
    simp only [Core.setOp_op, update_self, Enter.afterCas] at ho
    unfold Op.owes at ho
    split at ho <;> grind -linarith

/-- A thread comes to owe a link by its exchange. -/
theorem owes_own (hI : Inv q loc s) (hs : Step s (a, l) t)
    (ho : (t.core.op a).owes = some (x, n)) :
    l = .words (.enter n) ∧ s.core.waitEnd ≠ none ∧ t.pc a = s.pc a ∧
      (s.pc a = .lockSlow ∨ s.pc a = .move n) := by
  have hfit := (hI.here a).fits
  cases hs with
  | words hs =>
    obtain ⟨rfl, hend, v, hop⟩ := hs.owes ho
    have hcases := hfit.cases
    rw [hop] at hcases
    refine ⟨rfl, by simp [hend], rfl, ?_⟩
    rcases hcases with ⟨-, -, h⟩ | ⟨-, h⟩
    · exact .inl h
    · exact .inr h
  | queued _ hs | freeUnlock _ hs | freeWait _ hs | moveQueued _ hs => cases (hs.owes ho).1
  | lockFree | lockOther | fastBusy | trylockBusy | locked | unlock | wake | waitRelease
  | switchTo | tempMutex | moveOwner =>
    simp [State.call, State.setPc, State.listAdd, Op.owes] at ho
  | _ =>
    obtain ⟨v, hv⟩ := inside_of_owes ho
    simp_all [State.setPc, State.listAdd, Fits]

omit [DecidableEq C] in
/-- A step of the mutex on a machine that takes no other thread off its core. -/
theorem Machine.Inv.exec (hM : m.Inv) (hs : Mutex.Step m.base (a, l) t) (hm : m'.base = t)
    (hoff : ∀ b, m.off b = true → m'.off b = true)
    (hrun : ∀ b ≠ a, (∃ d, m.running d = some b) → ∃ d, m'.running d = some b)
    (hown : ∀ n, l = .words (.enter n) → m.base.core.waitEnd ≠ none →
      (m.base.pc a = .move n → m'.off a = true) ∧
        (t.pc a = m.base.pc a → m.base.pc a = .lockSlow ∨ m.base.pc a = .move n →
          ∃ d, m'.running d = some a)) : m'.Inv := by
  obtain ⟨q, loc, hI⟩ := hM.base
  obtain ⟨q', loc', hI', -⟩ := hI.step hs
  refine ⟨⟨q', loc', hm ▸ hI'⟩, fun b x n ho => ?_⟩
  rw [hm] at ho ⊢
  by_cases hb : b = a
  · subst hb
    obtain ⟨hl, hend, hpc, hp⟩ := owes_own hI hs ho
    obtain ⟨hcov, hr⟩ := hown n hl hend
    refine ⟨hr hpc hp, ?_⟩
    rw [hpc]
    exact hp.imp id fun hp => ⟨hcov hp, n, hp⟩
  · obtain ⟨ho', hpc⟩ := owes_other hI hs hb ho
    obtain ⟨hr, hp⟩ := hM.owes b x n ho'
    refine ⟨hrun b hb hr, ?_⟩
    rw [hpc]
    exact hp.imp id fun ⟨hof, hp⟩ => ⟨hoff b hof, hp⟩

omit [DecidableEq C] [DecidableEq K] [DecidableEq T] in
/-- Whoever owes a link has interrupts disabled. -/
theorem Machine.Inv.disabled (hM : m.Inv) (ho : (m.base.core.op b).owes = some (x, n)) :
    m.disabled b := by
  rcases (hM.owes b x n ho).2 with hp | ⟨hof, -⟩
  · refine .inr ?_
    unfold State.masked
    unfold Op.owes at ho
    split at ho <;> simp_all
  · exact .inl hof

theorem Machine.Inv.step (hM : m.Inv) (hs : Machine.Step m e m') (hc : Covered (m, e)) :
    m'.Inv := by
  cases hs with
  | @exec c a l t hc' hs =>
    refine hM.exec hs rfl (fun _ h => h) (fun b hb ⟨d, hd⟩ => ⟨d, ?_⟩) fun n hl hend => ⟨?_, ?_⟩
    · have hdc : d ≠ c := by
        rintro rfl
        exact hb (Option.some.inj (hd.symm.trans hc'))
      simp [hdc, hd]
    · intro hp
      exact hc a n (by rw [hl]) hp hend
    · intro hpc hp
      refine ⟨c, ?_⟩
      rcases hp with hp | hp <;> simp [after, hpc, hp]
  | @preempt c a hc' hi =>
    refine ⟨hM.base, fun b x n ho => ⟨?_, (hM.owes b x n ho).2⟩⟩
    obtain ⟨d, hd⟩ := (hM.owes b x n ho).1
    have hdc : d ≠ c := by
      rintro rfl
      obtain rfl := Option.some.inj (hd.symm.trans hc')
      exact hi (hM.disabled ho)
    exact ⟨d, by simp [hdc, hd]⟩
  | @resume c a hc' ha hp =>
    refine ⟨hM.base, fun b x n ho => ⟨?_, (hM.owes b x n ho).2⟩⟩
    obtain ⟨d, hd⟩ := (hM.owes b x n ho).1
    have hdc : d ≠ c := by
      rintro rfl
      simp [hc'] at hd
    exact ⟨d, by simp [hdc, hd]⟩
  | @dispatch c a t hc' hp hs hr =>
    refine hM.exec hs rfl (fun _ h => h) (fun b hb ⟨d, hd⟩ => ⟨d, ?_⟩) nofun
    have hdc : d ≠ c := by
      rintro rfl
      simp [hc'] at hd
    simp [hdc, hd]
  | schedule hp hs hr => exact hM.exec hs rfl (fun _ h => h) (fun b _ h => h) nofun
  | @flag c a v hc' hp =>
    refine ⟨hM.base, fun b x n ho => ⟨(hM.owes b x n ho).1, ?_⟩⟩
    refine (hM.owes b x n ho).2.imp id fun ⟨hof, n, hp'⟩ => ⟨?_, n, hp'⟩
    have hb : b ≠ a := by
      rintro rfl
      simp [hp] at hp'
    simp [hb, hof]

omit [DecidableEq C] [DecidableEq K] [DecidableEq T] in
theorem Machine.Inv.init (recursive : Bool) (mem : T → Word T) :
    (Machine.init recursive mem : Machine C K T).Inv where
  base := ⟨_, _, Mutex.Inv.init recursive mem⟩
  owes b x n ho := by simp [Machine.init, State.init, Core.init, Op.owes] at ho

/-- No core spins with interrupts off on a preempted thread in a run where every broadcast that
queues a thread behind another one has interrupts off. -/
theorem no_spin_on_preempted
    (h : Run (Traced Machine.Step) (Machine.init recursive mem : Machine C K T) xs m)
    (hc : ∀ y ∈ xs, Covered y) : (∀ c x, m.spins c x → m.served c x) ∧
      (∀ b x n, (m.base.core.op b).owes = some (x, n) →
        (∃ d, m.running d = some b) ∧ m.disabled b) ∧
      ∀ c x, m.spins c x → ¬ Subsingleton C := by
  have hM : m.Inv := by
    induction h with
    | refl => exact .init recursive mem
    | @step xs m m' e _ hs ih =>
      obtain ⟨m₀, e⟩ := e
      obtain ⟨rfl, hs⟩ := hs
      exact (ih fun y hy => hc y (List.mem_append_left _ hy)).step hs (hc _ (by simp))
  have hserved : ∀ c x, m.spins c x → m.served c x := by
    rintro c x ⟨a, hca, -, -, hsp, hmem⟩
    obtain ⟨q, loc, hI⟩ := hM.base
    obtain ⟨b, n, ho⟩ := hI.core.spin_owed hsp hmem
    obtain ⟨⟨d, hd⟩, -⟩ := hM.owes b x n ho
    refine ⟨d, b, n, ?_, hd, hM.disabled ho, ho⟩
    rintro rfl
    obtain rfl := Option.some.inj (hca.symm.trans hd)
    unfold Op.owes at ho
    split at ho <;> simp_all [Op.spins]
  refine ⟨hserved, fun b x n ho => ⟨(hM.owes b x n ho).1, hM.disabled ho⟩, fun c x hsp hC => ?_⟩
  obtain ⟨d, b, n, hd, -⟩ := hserved c x hsp
  exact hd (hC.elim d c)

/-- The run of a covered machine, for the example below. -/
def CoveredRun (m₀ m : Machine C K T) : Prop :=
  ∃ xs, Run (Traced Machine.Step) m₀ xs m ∧ ∀ y ∈ xs, Covered y

theorem CoveredRun.refl (m₀ : Machine C K T) : CoveredRun m₀ m₀ := ⟨[], .refl, nofun⟩

theorem CoveredRun.step {m₀ : Machine C K T} (h : CoveredRun m₀ m) (hs : Machine.Step m e m')
    (hc : Covered (m, e)) : CoveredRun m₀ m' := by
  obtain ⟨xs, hr, hx⟩ := h
  refine ⟨_, hr.trace hs, fun y hy => ?_⟩
  rcases List.mem_append.mp hy with hy | hy
  · exact hx y hy
  · rwa [List.mem_singleton.mp hy]

/-- With interrupts disabled in the broadcast, `cnd_wait` waits for the link of a thread that
executes on the other core. -/
theorem no_spin_on_preempted_sample : ∃ xs, ∃ m : Machine Bool Unit Bool,
    Run (Traced Machine.Step) (Machine.init false fun _ => .null) xs m ∧
      (∀ y ∈ xs, Covered y) ∧ m.spins true .waiters ∧ m.served true .waiters := by
  have h₁ := (CoveredRun.refl (Machine.init false (fun _ => .null) : Machine Bool Unit Bool)).step
    (.resume (c := true) (a := true) rfl nofun ⟨id, nofun⟩) nofun
  have h₂ := h₁.step (.exec (c := true) (a := true) rfl (.lockFree (b := false) rfl rfl)) nofun
  have h₃ := h₂.step (.exec (c := true) (a := true) rfl
    (.words (.fastEnd (n := true) rfl) nofun nofun)) nofun
  have h₄ := h₃.step (.exec (c := true) (a := true) rfl
    (.words (.fastCas (n := true) rfl rfl) nofun nofun)) (fun _ _ _ _ he => absurd rfl he)
  have h₅ := h₄.step (.exec (c := true) (a := true) rfl
    (.words (.own (b := false) (n := true) rfl) nofun nofun)) nofun
  have h₆ := h₅.step (.exec (c := true) (a := true) rfl
    (.locked (n := true) (.inr ⟨false, rfl⟩) rfl)) nofun
  have h₇ := h₆.step (.exec (c := true) (a := true) rfl (.ret rfl)) nofun
  have h₈ := h₇.step (.exec (c := true) (a := true) rfl (.waitLoad (k := ()) rfl nofun)) nofun
  have h₉ := h₈.step (.exec (c := true) (a := true) rfl (.waitOwner (k := ()) rfl)) nofun
  have h₁₀ := h₉.step (.exec (c := true) (a := true) rfl (.waitTemp (k := ()) rfl)) nofun
  have h₁₁ := h₁₀.step (.exec (c := true) (a := true) rfl
    (.waitAppend (k := ()) (b := false) rfl)) nofun
  have h₁₂ := h₁₁.step (.exec (c := true) (a := true) rfl (.waitRelease (k := ()) rfl)) nofun
  -- thread false broadcasts with interrupts disabled
  have h₁₃ := h₁₂.step (.resume (c := false) (a := false) rfl nofun ⟨id, nofun⟩) nofun
  have h₁₄ := h₁₃.step (.flag (c := false) (a := false) (v := true) rfl rfl) nofun
  have h₁₅ := h₁₄.step (.exec (c := false) (a := false) rfl (.clearLock (k := ()) rfl rfl)) nofun
  have h₁₆ := h₁₅.step (.exec (c := false) (a := false) rfl
    (.clearEnd (k := ()) rfl (List.cons_ne_nil true []))) nofun
  have h₁₇ := h₁₆.step (.exec (c := false) (a := false) rfl
    (.clearHead (k := ()) rfl (by rintro _ ⟨rfl⟩; exact id))) nofun
  have h₁₈ := h₁₇.step (.exec (c := false) (a := false) rfl (.clearExchange (k := ()) rfl)) nofun
  have h₁₉ := h₁₈.step (.exec (c := false) (a := false) rfl (.clearUnlock (k := ()) rfl)) nofun
  have h₂₀ := h₁₉.step (.exec (c := false) (a := false) rfl
    (.next (n := true) (l := []) rfl rfl nofun)) nofun
  have h₂₁ := h₂₀.step (.exec (c := false) (a := false) rfl (.tempMutex (n := true) rfl rfl)) nofun
  have h₂₂ := h₂₁.step (.exec (c := false) (a := false) rfl
    (.words (.loadEnd (b := true) (n := true) rfl) nofun nofun)) nofun
  have h₂₃ := h₂₂.step (.exec (c := false) (a := false) rfl
    (.words (.null (b := true) (n := true) rfl) nofun nofun)) nofun
  have h₂₄ := h₂₃.step (.exec (c := false) (a := false) rfl
    (.words (.exchange (b := true) (n := true) rfl) nofun nofun)) (fun _ _ h _ _ => by cases h; rfl)
  have h₂₅ := h₂₄.step (.exec (c := true) (a := true) rfl
    (.words (.loadWaiters (h := true) rfl) nofun nofun)) nofun
  have h₂₆ := h₂₅.step (.exec (c := true) (a := true) rfl
    (.words (.loadEndRelease (h := true) rfl) nofun nofun)) nofun
  obtain ⟨xs, hr, hc⟩ := h₂₆
  refine ⟨xs, _, hr, hc, ⟨true, rfl, .inr trivial, .inl rfl, rfl, rfl⟩, ?_⟩
  exact (no_spin_on_preempted hr hc).1 true .waiters
    ⟨true, rfl, .inr trivial, .inl rfl, rfl, rfl⟩

/-- One core. A broadcast with interrupts enabled is preempted between its exchange and its link
store, and `cnd_wait` of the owner of the mutex then waits for the link for ever. -/
theorem spin_on_preempted : ∃ xs, ∃ m : Machine Unit Unit (Fin 3),
    Run (Traced Machine.Step) (Machine.init false fun _ => .null) xs m ∧
      m.spins () .waiters ∧ ¬ m.served () .waiters := by
  -- thread 0 locks the mutex and waits
  have h₀ : Run (Traced Machine.Step)
    (Machine.init false (fun _ => .null) : Machine Unit Unit (Fin 3)) [] _ := .refl
  have h₁ := h₀.trace (.resume (c := ()) (a := 0) rfl nofun ⟨id, nofun⟩)
  have h₂ := h₁.trace (.exec (c := ()) (a := 0) rfl (.lockFree (b := false) rfl rfl))
  have h₃ := h₂.trace (.exec (c := ()) (a := 0) rfl (.words (.fastEnd (n := 0) rfl) nofun nofun))
  have h₄ := h₃.trace (.exec (c := ()) (a := 0) rfl
    (.words (.fastCas (n := 0) rfl rfl) nofun nofun))
  have h₅ := h₄.trace (.exec (c := ()) (a := 0) rfl
    (.words (.own (b := false) (n := 0) rfl) nofun nofun))
  have h₆ := h₅.trace (.exec (c := ()) (a := 0) rfl (.locked (n := 0) (.inr ⟨false, rfl⟩) rfl))
  have h₇ := h₆.trace (.exec (c := ()) (a := 0) rfl (.ret rfl))
  have h₈ := h₇.trace (.exec (c := ()) (a := 0) rfl (.waitLoad (k := ()) rfl nofun))
  have h₉ := h₈.trace (.exec (c := ()) (a := 0) rfl (.waitOwner (k := ()) rfl))
  have h₁₀ := h₉.trace (.exec (c := ()) (a := 0) rfl (.waitTemp (k := ()) rfl))
  have h₁₁ := h₁₀.trace (.exec (c := ()) (a := 0) rfl (.waitAppend (k := ()) (b := false) rfl))
  have h₁₂ := h₁₁.trace (.exec (c := ()) (a := 0) rfl (.waitRelease (k := ()) rfl))
  have h₁₃ := h₁₂.trace (.exec (c := ()) (a := 0) rfl
    (.words (.loadWaiters (h := 0) rfl) nofun nofun))
  have h₁₄ := h₁₃.trace (.exec (c := ()) (a := 0) rfl
    (.words (.loadEndRelease (h := 0) rfl) nofun nofun))
  have h₁₅ := h₁₄.trace (.exec (c := ()) (a := 0) rfl
    (.words (.clearOwner (h := 0) rfl) nofun nofun))
  have h₁₆ := h₁₅.trace (.exec (c := ()) (a := 0) rfl (.freeWait (h := 0) rfl (.casFree rfl rfl)))
  -- thread 1 locks the mutex
  have h₁₇ := h₁₆.trace (.resume (c := ()) (a := 1) rfl nofun ⟨id, nofun⟩)
  have h₁₈ := h₁₇.trace (.exec (c := ()) (a := 1) rfl (.lockFree (b := false) rfl rfl))
  have h₁₉ := h₁₈.trace (.exec (c := ()) (a := 1) rfl (.words (.fastEnd (n := 1) rfl) nofun nofun))
  have h₂₀ := h₁₉.trace (.exec (c := ()) (a := 1) rfl
    (.words (.fastCas (n := 1) rfl rfl) nofun nofun))
  have h₂₁ := h₂₀.trace (.exec (c := ()) (a := 1) rfl
    (.words (.own (b := false) (n := 1) rfl) nofun nofun))
  have h₂₂ := h₂₁.trace (.exec (c := ()) (a := 1) rfl (.locked (n := 1) (.inr ⟨false, rfl⟩) rfl))
  have h₂₃ := h₂₂.trace (.exec (c := ()) (a := 1) rfl (.ret rfl))
  have h₂₄ := h₂₃.trace (.preempt (c := ()) (a := 1) rfl (not_or.mpr ⟨Bool.false_ne_true, id⟩))
  -- thread 2 broadcasts
  have h₂₅ := h₂₄.trace (.resume (c := ()) (a := 2) rfl nofun ⟨id, nofun⟩)
  have h₂₆ := h₂₅.trace (.exec (c := ()) (a := 2) rfl (.clearLock (k := ()) rfl rfl))
  have h₂₇ := h₂₆.trace (.exec (c := ()) (a := 2) rfl
    (.clearEnd (k := ()) rfl (List.cons_ne_nil 0 [])))
  have h₂₈ := h₂₇.trace (.exec (c := ()) (a := 2) rfl
    (.clearHead (k := ()) rfl (by rintro _ ⟨rfl⟩; exact id)))
  have h₂₉ := h₂₈.trace (.exec (c := ()) (a := 2) rfl (.clearExchange (k := ()) rfl))
  have h₃₀ := h₂₉.trace (.exec (c := ()) (a := 2) rfl (.clearUnlock (k := ()) rfl))
  have h₃₁ := h₃₀.trace (.exec (c := ()) (a := 2) rfl (.next (n := 0) (l := []) rfl rfl nofun))
  have h₃₂ := h₃₁.trace (.exec (c := ()) (a := 2) rfl (.tempMutex (n := 0) rfl rfl))
  have h₃₃ := h₃₂.trace (.exec (c := ()) (a := 2) rfl
    (.words (.loadEnd (b := true) (n := 0) rfl) nofun nofun))
  have h₃₄ := h₃₃.trace (.exec (c := ()) (a := 2) rfl
    (.words (.null (b := true) (n := 0) rfl) nofun nofun))
  have h₃₅ := h₃₄.trace (.exec (c := ()) (a := 2) rfl
    (.words (.exchange (b := true) (n := 0) rfl) nofun nofun))
  have h₃₆ := h₃₅.trace (.preempt (c := ()) (a := 2) rfl (not_or.mpr ⟨Bool.false_ne_true, id⟩))
  -- thread 1 waits
  have h₃₇ := h₃₆.trace (.resume (c := ()) (a := 1) rfl nofun ⟨id, nofun⟩)
  have h₃₈ := h₃₇.trace (.exec (c := ()) (a := 1) rfl (.waitLoad (k := ()) rfl nofun))
  have h₃₉ := h₃₈.trace (.exec (c := ()) (a := 1) rfl (.waitOwner (k := ()) rfl))
  have h₄₀ := h₃₉.trace (.exec (c := ()) (a := 1) rfl (.waitTemp (k := ()) rfl))
  have h₄₁ := h₄₀.trace (.exec (c := ()) (a := 1) rfl (.waitAppend (k := ()) (b := false) rfl))
  have h₄₂ := h₄₁.trace (.exec (c := ()) (a := 1) rfl (.waitRelease (k := ()) rfl))
  have h₄₃ := h₄₂.trace (.exec (c := ()) (a := 1) rfl
    (.words (.loadWaiters (h := 1) rfl) nofun nofun))
  have h₄₄ := h₄₃.trace (.exec (c := ()) (a := 1) rfl
    (.words (.loadEndRelease (h := 1) rfl) nofun nofun))
  refine ⟨_, _, h₄₄, ⟨1, rfl, .inr trivial, .inl rfl, rfl, rfl⟩, ?_⟩
  rintro ⟨d, b, n, hd, -⟩
  exact hd rfl

end MyosIo.Mutex
