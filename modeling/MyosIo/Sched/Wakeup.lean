import MyosIo.Sched.Tokens

/-! While a ready thread is counted, a core that is idle, or about to be, has an interrupt pending
or can still expect one from a core inside `set_thread_schedulable`. -/
namespace MyosIo.Sched

open Function

variable {C T P : Type*}

/-- The core has counted its threads and may still send the interrupt. -/
def Pc.waking : Pc T → Prop
  | .testNum _ | .testIdle _ | .ipi _ => True
  | _ => False

/-- The core has read `schedulable_threads_num = 0` and will not read it again. -/
def Pc.resting : Pc T → Prop
  | .reannounce | .idle => True
  | _ => False

/-- The core is inside `set_thread_schedulable` or `switch_to_empty`. -/
def Pc.inside : Pc T → Prop
  | .link _ | .incNum _ | .testNum _ | .testIdle _ | .ipi _ | .incOld _ => True
  | .announce | .setNull | .window | .withdraw | .load | .reserve _ | .reannounce => True
  | .decOld | .lock none | .spin none | .pop none | .unlock none _ | .clear none _ => True
  | _ => False

theorem Pc.inside_of_waking {p : Pc T} (h : p.waking) : p.inside := by
  cases p with
  | testNum | testIdle | ipi => trivial
  | _ => cases h

/-- A core sleeps in `empty_loop` on a ready thread. -/
def State.missed (s : State C T P) : Prop :=
  (∃ c, s.pc c = .idle) ∧ 0 < s.num ∧ (∀ d, ¬ (s.pc d).inside) ∧
    ∀ d, s.pc d = .idle → s.pending d = false

/-- The step is not the test of `idle_cores_num` that finds nobody while a core stands between
its read of `schedulable_threads_num` and its re-announcement. -/
def Seen (s : State C T P) : Event C T → Prop
  | .skip _ => ∀ d, s.pc d ≠ .reannounce
  | _ => True

def Awaited (pc : C → Pc T) : Prop := ∃ d, (pc d).waking

def Expected (s : State C T P) : Prop :=
  ∀ c, (s.pc c).resting → s.pending c = false → 0 < s.num → Awaited s.pc

variable [DecidableEq C] [DecidableEq T] [Fintype C]
variable {s t : State C T P} {e : Event C T} {pc : C → Pc T} {a : C} {p : Pc T}

omit [DecidableEq T] [Fintype C] in
theorem Awaited.new (hp : p.waking) : Awaited (update pc a p) := ⟨a, by simpa using hp⟩

omit [DecidableEq T] [Fintype C] in
theorem Awaited.keep (h : Awaited pc) (ha : ¬ (pc a).waking) : Awaited (update pc a p) := by
  obtain ⟨d, hd⟩ := h
  have hda : d ≠ a := fun h => ha (h ▸ hd)
  exact ⟨d, by rwa [update_of_ne hda]⟩

omit [DecidableEq T] [Fintype C] in
/-- The steps that neither count threads nor test anything for the waker. -/
theorem Expected.move (hi : Expected s) (hpc : t.pc = update s.pc a p)
    (hpending : t.pending = s.pending) (hnum : 0 < t.num → 0 < s.num)
    (hwaking : ¬ (s.pc a).waking) (hresting : p.resting → (s.pc a).resting ∨ t.num = 0) :
    Expected t := by
  intro c hr hp hn
  rw [hpc] at hr ⊢
  rw [hpending] at hp
  have hc : (s.pc c).resting := by
    rcases eq_or_ne c a with rfl | hca
    · rw [update_self] at hr
      rcases hresting hr with h | h
      · exact h
      · omega
    · rwa [update_of_ne hca] at hr
  exact (hi c hc hp (hnum hn)).keep hwaking

theorem expected_step (ht : Tokens s) (hi : Expected s) (hs : Step s e t) (he : Seen s e) :
    Expected t := by
  cases hs
  case incNum => exact fun _ _ _ _ => .new trivial
  case testNum c n hp =>
    intro d hr hpd hn
    rw [if_neg (by simp only [State.setPc] at hn; omega)]
    exact .new trivial
  case testIdle => exact fun _ _ _ _ => .new trivial
  case skip c n hp hidle =>
    intro d hr hpd hn
    -- a core that is counted as idle would have been seen
    have hle := le_total Pc.announced s.pc d
    rw [← ht.idle, hidle] at hle
    rcases eq_or_ne d c with rfl | hdc
    · simp [State.setPc, Pc.resting] at hr
    · simp only [State.setPc, update_of_ne hdc] at hr
      have := he d
      cases hpc : s.pc d <;> simp_all [Pc.resting, Pc.announced]
  case ipi c n hp =>
    intro d hr hpd hn
    simp only [State.setPc, decide_not, Bool.or_eq_false_iff] at hr hpd
    obtain rfl : d = c := by simpa using hpd.1
    simp [Pc.resting] at hr
  case deliverIdle c hp hpend =>
    intro d hr hpd hn
    rcases eq_or_ne d c with rfl | hdc
    · simp [State.setPc, Pc.resting] at hr
    · simp only [State.setPc, update_of_ne hdc] at hr hpd
      refine (hi d hr hpd hn).keep ?_
      rcases hp with hp | hp <;> simp [hp, Pc.waking]
  case deliverRun c hp hpend =>
    intro d hr hpd hn
    rcases eq_or_ne d c with rfl | hdc
    · simp [hp, Pc.resting] at hr
    · exact hi d hr (by simpa [hdc] using hpd) hn
  all_goals
    refine hi.move rfl rfl ?_ ?_ ?_
  all_goals grind -linarith [State.setPc, State.append, Pc.waking, Pc.resting]

variable {bsp : C} {main : T} {proc : C → P} {xs : List (State C T P × Event C T)}

theorem expected_boot : Expected (boot bsp main proc : State C T P) := by
  intro c _ _ hn
  simp [boot] at hn

theorem run_expected (h : Run (Traced Step) (boot bsp main proc) xs s)
    (hx : ∀ x ∈ xs, Seen x.1 x.2) : Tokens s ∧ Expected s := by
  induction h with
  | refl => exact ⟨tokens_boot, expected_boot⟩
  | @step xs s t x _ hs ih =>
    obtain ⟨ht, hi⟩ := ih fun y hy => hx y (List.mem_append_left _ hy)
    obtain ⟨rfl, hs⟩ := hs
    have hseen := hx x (by simp)
    exact ⟨tokens_step ht hs, expected_step ht hi hs hseen⟩

/-- Where no test of `idle_cores_num` falls between the read and the re-announcement of an
idling core, no core sleeps on a ready thread. -/
theorem no_missed_wakeup (h : Run (Traced Step) (boot bsp main proc) xs s)
    (hx : ∀ x ∈ xs, Seen x.1 x.2) : ¬ s.missed := by
  rintro ⟨⟨c, hc⟩, hn, hinside, hpending⟩
  obtain ⟨d, hd⟩ := (run_expected h hx).2 c (by simp [hc, Pc.resting]) (hpending c hc) hn
  exact hinside d (Pc.inside_of_waking hd)

/-- Core `false` makes thread 1 schedulable and interrupts core `true`. -/
theorem no_missed_wakeup_sample : ∃ (xs : List (State Bool ℕ Unit × Event Bool ℕ))
    (s : State Bool ℕ Unit), Run (Traced Step) (boot false 0 fun _ => ()) xs s ∧
      s.num = 1 ∧ s.pc true = .idle ∧ ¬ s.missed := by
  have h : Run (Traced Step) (boot false 0 fun _ => () : State Bool ℕ Unit) [] _ := .refl
  have h := h.trace (.append (c := false) rfl (by decide : [1] ≠ []) (by decide) (by decide))
  have h := ((h.trace (.link (c := false) rfl)).trace (.incNum (c := false) rfl)).trace
    (.testNum (c := false) rfl)
  have h := (h.trace (.testIdle (c := false) rfl (by decide))).trace (.ipi (c := false) rfl)
  have h := h.trace (.incOld (c := false) rfl)
  refine ⟨_, _, h, rfl, rfl, no_missed_wakeup h ?_⟩
  simp [Seen]

/-- An idling core reads `schedulable_threads_num = 0`, another counts a thread and finds no
idle core, and the first goes to sleep. -/
theorem not_always_woken : ∃ (xs : List (Event Bool ℕ)) (s : State Bool ℕ Unit),
    Run Step (boot false 0 fun _ => ()) xs s ∧ (∀ e ∈ xs, ∀ c, e ≠ .tick c) ∧ s.missed := by
  have h : Run Step (boot false 0 fun _ => () : State Bool ℕ Unit) [] _ := .refl
  -- core `false` makes thread 1 schedulable
  have h := h.step (.append (c := false) rfl (by decide : [1] ≠ []) (by decide) (by decide))
  have h := ((h.step (.link (c := false) rfl)).step (.incNum (c := false) rfl)).step
    (.testNum (c := false) rfl)
  have h := ((h.step (.testIdle (c := false) rfl (by decide))).step (.ipi (c := false) rfl)).step
    (.incOld (c := false) rfl)
  -- core `true` takes it
  have h := (h.step (.deliverIdle (c := true) (.inl rfl) rfl)).step (.cli (c := true) rfl)
  have h := ((h.step (.withdraw (c := true) rfl)).step (.load (c := true) rfl)).step
    (.casOk (c := true) (v := 1) rfl rfl)
  have h := ((h.step (.decOld (c := true) rfl)).step (.lock (c := true) rfl)).step
    (.grant (c := true) rfl rfl)
  have h := h.step (.remove (c := true) (t := 1) rfl rfl (by decide))
  have h := ((h.step (.unlock (c := true) rfl)).step (.clear (c := true) rfl)).step
    (.switch (c := true) (t := 1) rfl)
  -- core `false` blocks the main thread and finds no other
  have h := (h.step (.publish (c := false) (t := 0) rfl rfl)).step (.readProc (c := false) rfl rfl)
  have h := (h.step (.announce (c := false) rfl)).step (.setNull (c := false) rfl)
  have h := ((h.step (.cli (c := false) rfl)).step (.withdraw (c := false) rfl)).step
    (.load (c := false) rfl)
  -- thread 1 makes thread 2 schedulable in that moment
  have h := h.step (.append (c := true) rfl (by decide : [2] ≠ []) (by decide) (by decide))
  have h := ((h.step (.link (c := true) rfl)).step (.incNum (c := true) rfl)).step
    (.testNum (c := true) rfl)
  have h := (h.step (.skip (c := true) rfl rfl)).step (.reannounce (c := false) rfl)
  have h := h.step (.incOld (c := true) rfl)
  refine ⟨_, _, h, by decide, ⟨false, rfl⟩, by decide, ?_, ?_⟩
  · rintro (_ | _) <;> exact id
  · rintro (_ | _) hd
    · rfl
    · exact nomatch hd

end MyosIo.Sched
