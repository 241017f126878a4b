import MyosIo.Lib.Count
import MyosIo.Startup.Model

/-! Who is counted in `writtenNum` and `finishedNum`, and where everybody is when the barrier
opens. -/
namespace MyosIo.Startup

open Function

variable {C : Type*}

/-- The processor's usable bits are in `usableBits`. -/
def Ap.anded : Ap → Bool
  | .off | .andl => false
  | .error why | .halted why => why ≠ .syscall
  | _ => true

/-- The number of cores the processor has read. -/
def Ap.all : Ap → Option ℕ
  | .loadWritten all | .cmp all _ | .apicBase all | .xadd all | .barrier all => some all
  | _ => none

/-- The processor has seen the barrier open. -/
def Ap.past : Ap → Bool
  | .load | .loadMax _ | .raise _ _ | .finish | .emptyLoop => true
  | _ => false

def Ap.finished : Ap → ℕ
  | .emptyLoop => 1
  | _ => 0

/-- `kernel_init_part4` has woken the other processors and has not returned. -/
def Bsp.after : Bsp → Bool
  | .barrier | .load | .wait _ | .loadMax _ | .check => true
  | _ => false

/-- `kernel_init_part4` has seen the barrier open, or had nobody to wait for. -/
def Bsp.past : Bsp → Bool
  | .load | .wait _ | .loadMax _ | .check | .returned | .aborted => true
  | _ => false

/-- `kernel_init_part4` has waited for the others to finish. -/
def Bsp.done : Bsp → Bool
  | .loadMax _ | .check | .returned => true
  | _ => false

/-- The order of the boot processor's steps up to the wake-up. -/
structure Woken (m : Machine C) (s : State C) : Prop where
  off : s.sipi = false → ∀ c, s.ap c = .off
  before : s.bsp = .start ∨ s.bsp = .fetchAnd ∨ s.bsp = .sipi → s.sipi = false
  after : s.bsp.after = true → s.sipi = true
  stored : s.bsp = .fetchAnd ∨ s.bsp = .sipi ∨ s.sipi = true →
    s.allCoresNum = m.expectCoresNum ∧ 1 < m.expectCoresNum

/-- What the processors have read, and that the barrier stays open. -/
structure Standing (m : Machine C) (s : State C) : Prop where
  woken : Woken m s
  read : ∀ c all, (s.ap c).all = some all → all = m.expectCoresNum
  le : 1 < m.expectCoresNum → s.writtenNum ≤ m.expectCoresNum
  apPast : ∀ c, (s.ap c).past = true → s.writtenNum = m.expectCoresNum
  bspPast : s.sipi = true → s.bsp.past = true → s.writtenNum = m.expectCoresNum
  syscall : ∀ c, s.ap c = .andl ∨ (s.ap c).anded = true → m.syscall c = true

/-- The two counters count processors. -/
structure Counts [Fintype C] (m : Machine C) (s : State C) : Prop where
  standing : Standing m s
  written : s.writtenNum = 1 + total Ap.counted s.ap
  finished : s.finishedNum = total Ap.finished s.ap
  done : s.bsp.done = true → ∀ c, (s.ap c).counted = 1 → s.ap c = .emptyLoop

variable [DecidableEq C] {m : Machine C} {s t : State C} {e : Option C} {xs : List (Option C)}

omit [DecidableEq C] in
theorem woken_boot : Woken m boot where
  off _ _ := rfl
  before _ := rfl
  after h := by cases h
  stored h := by simp [boot] at h

theorem off_step (h : Woken m s) (hs : Step m s e t) (hsipi : t.sipi = false) (c : C) :
    t.ap c = .off := by
  have hoff := h.off
  cases hs
  all_goals
    simp only [State.setAp] at hsipi ⊢
    grind -linarith

theorem before_step (h : Woken m s) (hs : Step m s e t)
    (hb : t.bsp = .start ∨ t.bsp = .fetchAnd ∨ t.bsp = .sipi) : t.sipi = false := by
  have hbefore := h.before
  cases hs
  all_goals
    simp only [State.setAp] at hb ⊢
    grind -linarith

theorem after_step (h : Woken m s) (hs : Step m s e t) (ha : t.bsp.after = true) :
    t.sipi = true := by
  have hafter := h.after
  cases hs
  all_goals
    simp only [State.setAp] at ha ⊢ <;> grind -linarith [Bsp.after]

theorem stored_step (h : Woken m s) (hs : Step m s e t)
    (hb : t.bsp = .fetchAnd ∨ t.bsp = .sipi ∨ t.sipi = true) :
    t.allCoresNum = m.expectCoresNum ∧ 1 < m.expectCoresNum := by
  have hstored := h.stored
  have hafter := h.after
  cases hs
  all_goals
    simp only [State.setAp] at hb ⊢
    grind -linarith [Bsp.after]

theorem woken_step (h : Woken m s) (hs : Step m s e t) : Woken m t :=
  ⟨off_step h hs, before_step h hs, after_step h hs, stored_step h hs⟩

omit [DecidableEq C] in
theorem standing_boot : Standing m boot where
  woken := woken_boot
  read c all h := by cases h
  le h := h.le
  apPast c h := by cases h
  bspPast h := by cases h
  syscall c h := by simp [boot, Ap.anded] at h

theorem read_step (h : Standing m s) (hs : Step m s e t) (c : C) (all : ℕ)
    (ha : (t.ap c).all = some all) : all = m.expectCoresNum := by
  obtain ⟨⟨hoff, hbefore, hafter, hstored⟩, hread, hle, hap, hbsp, hand⟩ := h
  cases hs
  all_goals
    simp only [State.setAp] at ha
    grind -linarith [Ap.all]

omit [DecidableEq C] in
theorem Standing.cmp (h : Standing m s) (c : C) (all written : ℕ)
    (hc : s.ap c = .cmp all written) : all = m.expectCoresNum :=
  h.read c all (by rw [hc]; rfl)

omit [DecidableEq C] in
theorem Standing.barrier (h : Standing m s) (c : C) (all : ℕ) (hc : s.ap c = .barrier all) :
    all = m.expectCoresNum :=
  h.read c all (by rw [hc]; rfl)

theorem written_step (h : Standing m s) (hs : Step m s e t) :
    s.writtenNum ≤ t.writtenNum ∧ (1 < m.expectCoresNum → t.writtenNum ≤ m.expectCoresNum) := by
  have hcmp := h.cmp
  have hle := h.le
  cases hs
  all_goals
    simp only [State.setAp]
    grind -linarith

theorem apPast_step (h : Standing m s) (hs : Step m s e t) (c : C)
    (hc : (t.ap c).past = true) : t.writtenNum = m.expectCoresNum := by
  have hcmp := h.cmp
  have hbarrier := h.barrier
  have hap := h.apPast
  cases hs
  all_goals
    simp only [State.setAp] at hc ⊢
    grind -linarith [Ap.past]

theorem bspPast_step (h : Standing m s) (hs : Step m s e t) (hsipi : t.sipi = true)
    (hpast : t.bsp.past = true) : t.writtenNum = m.expectCoresNum := by
  have hcmp := h.cmp
  have hbsp := h.bspPast
  have hbefore := h.woken.before
  have hoff := h.woken.off
  cases hs
  all_goals
    simp only [State.setAp] at hsipi hpast ⊢
    grind -linarith [Bsp.past]

theorem syscall_step (h : Standing m s) (hs : Step m s e t) (c : C)
    (hc : t.ap c = .andl ∨ (t.ap c).anded = true) : m.syscall c = true := by
  have hsys := h.syscall
  cases hs
  all_goals
    simp only [State.setAp] at hc
    grind -linarith [Ap.anded]

theorem standing_step (h : Standing m s) (hs : Step m s e t) : Standing m t :=
  ⟨woken_step h.woken hs, read_step h hs, (written_step h hs).2, apPast_step h hs,
    bspPast_step h hs, syscall_step h hs⟩

/-- Once as many processors are counted as expected, no other joins them. -/
theorem counted_step (h : Standing m s) (hs : Step m s e t)
    (hfull : s.writtenNum = m.expectCoresNum) (c : C) :
    (t.ap c).counted = (s.ap c).counted := by
  have hcmp := h.cmp
  cases hs
  all_goals first
    | rfl
    | (simp only [State.setAp]
       grind -linarith [Ap.counted])

variable [Fintype C]

omit [DecidableEq C] in
theorem counts_boot : Counts m boot where
  standing := standing_boot
  written := congrArg (1 + ·) (total_eq_zero fun _ => rfl).symm
  finished := (total_eq_zero fun _ => rfl).symm
  done h := by cases h

theorem count_step (h : Counts m s) (hs : Step m s e t) :
    t.writtenNum = 1 + total Ap.counted t.ap ∧ t.finishedNum = total Ap.finished t.ap := by
  have hwritten := h.written
  have hfinished := h.finished
  have hc (c : C) (p : Ap) := total_update Ap.counted s.ap c p
  have hf (c : C) (p : Ap) := total_update Ap.finished s.ap c p
  cases hs
  all_goals
    simp only [State.setAp]
    grind -linarith [Ap.counted, Ap.finished]

omit [DecidableEq C] in
/-- When as many processors have finished as are counted, each of those has. -/
theorem Counts.all_finished (h : Counts m s) (hw : s.writtenNum = m.expectCoresNum)
    (hf : s.finishedNum = m.expectCoresNum - 1) (c : C) (hc : (s.ap c).counted = 1) :
    s.ap c = .emptyLoop := by
  have hle (a : C) : (s.ap a).finished ≤ (s.ap a).counted := by
    cases s.ap a <;> simp [Ap.finished, Ap.counted]
  have heq : total Ap.finished s.ap = total Ap.counted s.ap := by
    have := h.written
    have := h.finished
    omega
  have hone := (Finset.sum_eq_sum_iff_of_le fun a _ => hle a).mp heq c (Finset.mem_univ c)
  rw [hc] at hone
  cases hp : s.ap c <;> simp_all [Ap.finished]

theorem Bsp.past_of_done {p : Bsp} (h : p.done = true) : p.past = true := by
  cases p <;> simp_all [Bsp.done, Bsp.past]

omit [DecidableEq C] [Fintype C] in
/-- A processor that is awake after the boot processor has waited finds the barrier open. -/
theorem Standing.full (h : Standing m s) (hb : s.bsp.done = true) (c : C) (hc : s.ap c ≠ .off) :
    s.writtenNum = m.expectCoresNum := by
  refine h.bspPast ?_ (Bsp.past_of_done hb)
  by_contra hs
  exact hc (h.woken.off (by simpa using hs) c)

theorem done_step (h : Counts m s) (hs : Step m s e t) (hb : t.bsp.done = true) (c : C)
    (hc : (t.ap c).counted = 1) : t.ap c = .emptyLoop := by
  have hcmp := h.standing.cmp
  have hfull := h.standing.full
  have hdone := h.done
  cases hs with
  | alone hstart =>
    have := h.standing.woken.off (h.standing.woken.before (.inl hstart)) c
    simp [this, Ap.counted] at hc
  | bspWait size' hwait hf =>
    have hsipi := h.standing.woken.after (by rw [hwait]; rfl)
    exact h.all_finished (h.standing.bspPast hsipi (by rw [hwait]; rfl)) hf c hc
  | _ =>
    simp only [State.setAp] at hb hc ⊢
    grind -linarith [Bsp.done, Ap.counted]

theorem counts_step (h : Counts m s) (hs : Step m s e t) : Counts m t :=
  ⟨standing_step h.standing hs, (count_step h hs).1, (count_step h hs).2, done_step h hs⟩

end MyosIo.Startup
