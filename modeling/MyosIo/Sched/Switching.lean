import MyosIo.Lib.Run
import MyosIo.Sched.Context

/-! Cores that run threads of the kernel on stacks in one memory. Whatever the cores do in
between, a thread that the timer took off its core goes on with the registers it had, on whichever
core. -/
namespace MyosIo.Context

open Function Cpu

variable {X : Type}

/-- `sizeof(struct Thread)`; the stack is the end of it. -/
def threadSize : ℕ := 0x200000

/-- `offsetof(struct Thread, stack)`. -/
def stackOffset : ℕ := 64

/-- Where the `struct Thread`s and the `struct Core_Data`s are. -/
structure Layout where
  coreData : ℕ → ℕ
  threads : Set ℕ
  core_aligned : ∀ i, coreData i % 8 = 0
  aligned : ∀ t ∈ threads, t % 16 = 0
  ne_null : ∀ t ∈ threads, t ≠ 0
  apart : ∀ t ∈ threads, ∀ t' ∈ threads, t ≠ t' → t + threadSize ≤ t' ∨ t' + threadSize ≤ t
  core_apart : ∀ i, ∀ t ∈ threads, coreData i < t ∨ t + threadSize ≤ coreData i

/-- `preempted` remembers of a thread off its core where its registers end and what they were. -/
structure System (X : Type) where
  regs : ℕ → Regs X
  mem : ℕ → ℕ
  preempted : ℕ → Option (ℕ × Regs X)

def System.core (s : System X) (i : ℕ) : State X := { s.regs i with mem := s.mem }

def System.put (s : System X) (i : ℕ) (c : State X) : System X :=
  { s with regs := update s.regs i c.toRegs, mem := c.mem }

/-- The words of a preempted thread that nobody else may write. -/
def Kept (m : ℕ → ℕ) (t hi x : ℕ) : Prop :=
  x = t + 16 ∨ x = t + 24 ∨ x = t + 32 ∨ m (t + 16) ≤ x ∧ x < hi

/-- The registers that the code between saving and restoring leaves alone are the thread's. -/
structure LeftAlone (c : State X) (r : Regs X) : Prop where
  gpr : ∀ x ∈ calleeSaved, c.gpr x = r.gpr x
  fsBase : c.fsBase = r.fsBase
  kernelGsBase : c.kernelGsBase = r.kernelGsBase
  ext : c.ext = r.ext

inductive Event (X : Type)
  | work (i : ℕ) (c : State X)
  | tick (i handler tokens : ℕ)
  | preempt (i handler tokens : ℕ)
  | keep (i : ℕ)
  | resume (i : ℕ)

/-- `work` is what a core does else: the code of a thread, the choice of the next one. `tick` is an
interrupt that finds no token, and `keep` one whose thread is chosen again. -/
inductive Step (F : Format X) (L : Layout) (lreturn : ℕ) : System X → Event X → System X → Prop
  | work {s : System X} {i : ℕ} {c : State X} (hgs : c.gsBase = (s.regs i).gsBase)
      (hkept : ∀ t hi r x, s.preempted t = some (hi, r) → Kept s.mem t hi x → c.mem x = s.mem x) :
      Step F L lreturn s (.work i c) (s.put i c)
  | tick {s : System X} {i handler tokens t : ℕ} {c d e : State X} (hc : s.core i = c)
      (ht : c.mem c.gsBase = t) (hthread : t ∈ L.threads) (hring : c.cs % 4 = 0)
      (hstack : t + stackOffset + depth F ≤ c.sp ∧ c.sp ≤ t + threadSize)
      (hon : s.preempted t = none) (htok : tokens = 0 ∨ 2 ^ 63 ≤ tokens)
      (h : (c.interrupt handler).bind (timerIsr F tokens lreturn) = some (.fast d))
      (hexit : run F fastExit d = some e) :
      Step F L lreturn s (.tick i handler tokens) (s.put i e)
  | preempt {s : System X} {i handler tokens t : ℕ} {c d : State X} (hc : s.core i = c)
      (ht : c.mem c.gsBase = t) (hthread : t ∈ L.threads) (hring : c.cs % 4 = 0)
      (hkernel : c.mem (t + 32) = 0)
      (hstack : t + stackOffset + depth F ≤ c.sp ∧ c.sp ≤ t + threadSize)
      (htok : 0 < tokens ∧ tokens < 2 ^ 63)
      (h : (c.interrupt handler).bind (timerIsr F tokens lreturn) = some (.switch d)) :
      Step F L lreturn s (.preempt i handler tokens)
        { s.put i d with preempted := update s.preempted t (some (c.sp - c.sp % 16, c.toRegs)) }
  | keep {s : System X} {i t hi : ℕ} {r : Regs X} {c e : State X} (hc : s.core i = c)
      (ht : c.mem c.gsBase = t) (hoff : s.preempted t = some (hi, r)) (hsp : c.sp = c.mem (t + 16))
      (hleft : LeftAlone c r) (h : run F sameThread c = some e) :
      Step F L lreturn s (.keep i) { s.put i e with preempted := update s.preempted t none }
  | resume {s : System X} {i t : ℕ} {c e : State X} (hc : s.core i = c) (ht : c.gpr .rdi = t)
      (hoff : s.preempted t ≠ none) (h : switchToInterrupt F lreturn c = some e) :
      Step F L lreturn s (.resume i)
        { s.put i e with preempted := update s.preempted t none }

variable {F : Format X} {L : Layout} {lreturn t hi i : ℕ} {r : Regs X} {m m' : ℕ → ℕ}
  {c : State X} {s s' s₀ : System X} {e : Event X} {xs : List (Event X)}

/-- A thread whose registers are in memory. -/
structure Waits (F : Format X) (L : Layout) (lreturn : ℕ) (m : ℕ → ℕ) (t hi : ℕ)
    (r : Regs X) : Prop where
  thread : t ∈ L.threads
  hook : m (t + 24) = lreturn
  kernel : m (t + 32) = 0
  saved : Saved F m (m (t + 16)) hi r
  above : t + stackOffset ≤ m (t + 16)
  below : hi ≤ t + threadSize
  ring : r.cs % 4 = 0

theorem Waits.congr (h : Waits F L lreturn m t hi r) (hm : ∀ x, Kept m t hi x → m' x = m x) :
    Waits F L lreturn m' t hi r := by
  have hsp : m' (t + 16) = m (t + 16) := hm _ (.inl rfl)
  have hsaved : Saved F m' (m (t + 16)) hi r := by
    apply h.saved.congr
    intro x h₁ h₂
    exact hm x (.inr (.inr (.inr ⟨h₁, h₂⟩)))
  refine ⟨h.thread, (hm _ (.inr (.inl rfl))).trans h.hook,
    (hm _ (.inr (.inr (.inl rfl)))).trans h.kernel, ?_, ?_, h.below, h.ring⟩
  · rw [hsp]
    exact hsaved
  · rw [hsp]
    exact h.above

/-- What is kept is in `struct Thread`. -/
theorem Waits.bounds (h : Waits F L lreturn m t hi r) {x : ℕ} (hx : Kept m t hi x) :
    t ≤ x ∧ x < t + threadSize := by
  have habove := h.above
  have hbelow := h.below
  unfold stackOffset threadSize at *
  rcases hx with hx | hx | hx | hx <;> omega

theorem Waits.other (h : Waits F L lreturn m t hi r) {t' : ℕ} (ht' : t' ∈ L.threads)
    (hne : t ≠ t') (hm : ∀ x, x < t' ∨ t' + threadSize ≤ x → m' x = m x) :
    Waits F L lreturn m' t hi r := by
  apply h.congr
  intro x hx
  have hbounds := h.bounds hx
  have hapart := L.apart t h.thread t' ht' hne
  exact hm x (by omega)

/-- Neither `running_thread` nor the `proc` of a thread is kept. -/
theorem Waits.switched (h : Waits F L lreturn m t hi r) {t' : ℕ} (ht' : t' ∈ L.threads)
    (proc : ℕ) : Waits F L lreturn (switchedMem m (L.coreData i) t' proc) t hi r := by
  apply h.congr
  intro x hx
  have hbounds := h.bounds hx
  have hcore := L.core_apart i t h.thread
  have habove := h.above
  have hproc : x ≠ t' + 40 := by
    unfold threadSize stackOffset at *
    rcases eq_or_ne t t' with rfl | hne
    · rcases hx with hx | hx | hx | hx <;> omega
    · have hapart := L.apart t h.thread t' ht' hne
      unfold threadSize at hapart
      omega
  rw [switchedMem, update_of_ne (by omega), update_of_ne hproc]

theorem Waits.resumed (h : Waits F L lreturn c.mem t hi r) (hgs : c.gsBase = L.coreData i)
    (hrdi : c.gpr .rdi = t) : switchToInterrupt F lreturn c = some { r with
      gsBase := L.coreData i, mem := switchedMem c.mem (L.coreData i) t (c.gpr .rsi) } := by
  have haligned := L.aligned t h.thread
  have hcore := L.core_apart i t h.thread
  unfold threadSize at hcore
  obtain ⟨g, hg⟩ := switchToInterrupt_run (F := F) (by omega) hrdi
    (by rw [hgs]; exact L.core_aligned i) (by omega) rfl h.hook h.kernel
  rw [hgs] at hg
  have hafter := h.switched (i := i) h.thread (c.gpr .rsi)
  have hsp : switchedMem c.mem (L.coreData i) t (c.gpr .rsi) (t + 16) = c.mem (t + 16) := by
    rw [switchedMem, update_of_ne (by omega), update_of_ne (by omega)]
  have hsaved := hafter.saved
  rw [hsp] at hsaved
  rw [hg, lreturnCode_run hsaved rfl h.ring, ← hgs]

theorem Waits.kept (h : Waits F L lreturn c.mem t hi r) (hgs : c.gsBase = L.coreData i)
    (hsp : c.sp = c.mem (t + 16)) (hleft : LeftAlone c r) :
    run F sameThread c = some { r with gsBase := L.coreData i, mem := c.mem } := by
  rw [sameThread_run h.saved hsp hleft.gpr hleft.fsBase hleft.kernelGsBase hleft.ext, hgs]

/-- The invariant of the switching. -/
structure Inv (F : Format X) (L : Layout) (lreturn : ℕ) (s : System X) : Prop where
  gs : ∀ i, (s.regs i).gsBase = L.coreData i
  waits : ∀ t hi r, s.preempted t = some (hi, r) → Waits F L lreturn s.mem t hi r

theorem gs_put (hgs : ∀ i, (s.regs i).gsBase = L.coreData i)
    (hc : c.gsBase = (s.regs i).gsBase) (j : ℕ) :
    ((s.put i c).regs j).gsBase = L.coreData j := by
  change (update s.regs i c.toRegs j).gsBase = _
  rcases eq_or_ne j i with rfl | hj
  · rw [update_self]
    exact hc.trans (hgs j)
  · rw [update_of_ne hj]
    exact hgs j

theorem Inv.step (h : Inv F L lreturn s) (hs : Step F L lreturn s e s') : Inv F L lreturn s' := by
  cases hs with
  | work hgs hkept =>
    refine ⟨gs_put h.gs hgs, ?_⟩
    intro t hi r hoff
    exact (h.waits t hi r hoff).congr fun x hx => hkept t hi r x hoff hx
  | @tick i handler tokens t c d e hc ht hthread hring hstack hon htok hrun hexit =>
    obtain ⟨hlow, hhigh⟩ := hstack
    have hgs : c.gsBase = L.coreData i := by
      rw [← hc]
      exact h.gs i
    have hmem : c.mem = s.mem := by rw [← hc]; rfl
    have hcore := L.core_apart i t hthread
    unfold threadSize at hcore hhigh
    unfold stackOffset depth at hlow
    obtain ⟨d', hrun', hexit', hframe⟩ := fastExit_run F lreturn handler (by omega) hring
      (by rw [hgs]; exact L.core_aligned i) ht (L.ne_null t hthread) htok (by omega)
    rw [hrun'] at hrun
    cases hrun
    rw [hexit'] at hexit
    cases hexit
    refine ⟨gs_put h.gs (by rw [← hc]; rfl), ?_⟩
    intro t' hi r hoff
    have hne : t' ≠ t := by
      rintro rfl
      cases hon.symm.trans hoff
    apply (h.waits t' hi r hoff).other hthread hne
    intro x hx
    unfold threadSize at hx
    rw [← hmem]
    exact hframe x (by omega)
  | @preempt i handler tokens t c d hc ht hthread hring hkernel hstack htok hrun =>
    obtain ⟨hlow, hhigh⟩ := hstack
    have hgs : c.gsBase = L.coreData i := by
      rw [← hc]
      exact h.gs i
    have hcore := L.core_apart i t hthread
    have haligned := L.aligned t hthread
    unfold threadSize at hcore hhigh
    unfold stackOffset at hlow
    obtain ⟨d', lo, hrun', -, -, hdgs, hsp, hhook, hsaved, hlo, hframe⟩ :=
      preempted_saved (F := F) handler lreturn (by omega) hring
        (by rw [hgs]; exact L.core_aligned i) ht (L.ne_null t hthread) (by omega) htok
        (by omega) (by omega)
    rw [hrun'] at hrun
    cases hrun
    refine ⟨?_, ?_⟩
    · refine gs_put h.gs (hdgs.trans ?_)
      rw [← hc]
      rfl
    intro t' hi r hoff
    change update s.preempted t _ t' = _ at hoff
    change Waits F L lreturn d.mem t' hi r
    rcases eq_or_ne t' t with rfl | hne
    · rw [update_self] at hoff
      cases hoff
      rw [← hsp] at hsaved
      have hkernel' : d.mem (t' + 32) = 0 := by
        rw [hframe _ (by omega) (by omega) (by omega)]
        exact hkernel
      refine ⟨hthread, hhook, hkernel', hsaved, ?_, ?_, hring⟩
      · unfold stackOffset
        omega
      · unfold threadSize
        omega
    · rw [update_of_ne hne] at hoff
      have hmem : c.mem = s.mem := by rw [← hc]; rfl
      apply (h.waits t' hi r hoff).other hthread hne
      intro x hx
      unfold threadSize at hx
      rw [← hmem]
      exact hframe x (by omega) (by omega) (by omega)
  | @keep i t hi r c e hc ht hoff hsp hleft hrun =>
    have hmem : c.mem = s.mem := by rw [← hc]; rfl
    have hgs : c.gsBase = L.coreData i := by
      rw [← hc]
      exact h.gs i
    have hwaits := h.waits t hi r hoff
    rw [← hmem] at hwaits
    rw [hwaits.kept hgs hsp hleft] at hrun
    cases hrun
    refine ⟨gs_put h.gs (h.gs i).symm, ?_⟩
    intro t' hi' r' hoff'
    change update s.preempted t none t' = _ at hoff'
    change Waits F L lreturn c.mem t' hi' r'
    rcases eq_or_ne t' t with rfl | hne
    · rw [update_self] at hoff'
      cases hoff'
    · rw [update_of_ne hne] at hoff'
      rw [hmem]
      exact h.waits t' hi' r' hoff'
  | @resume i t c d hc ht hoff hrun =>
    obtain ⟨⟨hi, r⟩, hsome⟩ := Option.ne_none_iff_exists'.mp hoff
    have hmem : c.mem = s.mem := by rw [← hc]; rfl
    have hgs : c.gsBase = L.coreData i := by
      rw [← hc]
      exact h.gs i
    have hwaits := h.waits t hi r hsome
    rw [← hmem] at hwaits
    rw [hwaits.resumed hgs ht] at hrun
    cases hrun
    refine ⟨gs_put h.gs (h.gs i).symm, ?_⟩
    intro t' hi' r' hoff'
    change update s.preempted t none t' = _ at hoff'
    change Waits F L lreturn (switchedMem c.mem (L.coreData i) t (c.gpr .rsi)) t' hi' r'
    rcases eq_or_ne t' t with rfl | hne
    · rw [update_self] at hoff'
      cases hoff'
    · rw [update_of_ne hne] at hoff'
      rw [hmem]
      exact (h.waits t' hi' r' hoff').switched hwaits.thread _

/-- Whatever the cores have done since, a thread that was preempted goes on with its registers, on
the core that takes it; so it does where its own core chooses it again. -/
theorem goes_on (hrun : Run (Step F L lreturn) s₀ xs s)
    (hgs : ∀ i, (s₀.regs i).gsBase = L.coreData i) (hnone : ∀ t, s₀.preempted t = none)
    (hoff : s.preempted t = some (hi, r)) (hrdi : (s.regs i).gpr .rdi = t) :
    switchToInterrupt F lreturn (s.core i) = some { r with
        gsBase := L.coreData i
        mem := update (update s.mem (t + 40) ((s.regs i).gpr .rsi ||| 1)) (L.coreData i) t } ∧
      ((s.regs i).sp = s.mem (t + 16) → LeftAlone (s.core i) r →
        run F sameThread (s.core i) = some { r with gsBase := L.coreData i, mem := s.mem }) := by
  have hstart : Inv F L lreturn s₀ := by
    refine ⟨hgs, ?_⟩
    intro t hi r hoff
    cases (hnone t).symm.trans hoff
  have hinv : Inv F L lreturn s := hrun.invariant hstart fun s e t h hs => h.step hs
  have hwaits := hinv.waits t hi r hoff
  refine ⟨hwaits.resumed (hinv.gs i) hrdi, ?_⟩
  intro hsp hleft
  exact hwaits.kept (hinv.gs i) hsp hleft

/-- An area of two words. -/
def twoWords : Format (ℕ × ℕ) where
  words := 2
  save e i := some (if i = 0 then e.1 else e.2)
  restore m := some (m 0, m 1)
  restore_save e area h := by
    rw [h 0 (by decide), h 1 (by decide)]
    rfl

/-- A thread with the memory behind it for the cores. -/
def oneThread : Layout where
  coreData i := 0x400000 + 0x10000 * i
  threads := {t | t = 0x200000}
  core_aligned i := by omega
  aligned := by
    rintro t rfl
    rfl
  ne_null := by
    rintro t rfl
    decide
  apart := by
    rintro t rfl t' rfl hne
    exact absurd rfl hne
  core_apart i := by
    rintro t rfl
    unfold threadSize
    omega

def onFirstCore : System (ℕ × ℕ) where
  regs i := { gpr := fun _ => 5, sp := 0x3fff00, ip := 0x100000, cs := 8, ss := 0, flags := 0x202,
              fsBase := 0, gsBase := 0x400000 + 0x10000 * i, kernelGsBase := 0,
              ext := (0x33f, 0x1f80) }
  mem := update (fun _ => 0) 0x400000 0x200000
  preempted _ := none

theorem goes_on_second : ∃ xs s,
    Run (Step twoWords oneThread 9) onFirstCore xs s ∧
      s.preempted 0x200000 = some (0x3fff00, onFirstCore.regs 0) ∧
      switchToInterrupt twoWords 9 (s.core 1) = some
        { onFirstCore.regs 0 with
          gsBase := 0x410000
          mem := update (update s.mem 0x200028 0x200001) 0x410000 0x200000 } := by
  obtain ⟨d, lo, hd, -⟩ := preempted_saved (F := twoWords) (c := onFirstCore.core 0)
    (t := 0x200000) 0x200 9 (by decide) rfl rfl rfl (by decide) (by decide)
    (⟨by decide, by decide⟩ : 0 < 1 ∧ 1 < 2 ^ 63) (by decide) (by decide)
  have hfirst : Run (Step twoWords oneThread 9) onFirstCore [.preempt 0 0x200 1]
      { onFirstCore.put 0 d with
        preempted := update onFirstCore.preempted 0x200000
          (some (0x3fff00, onFirstCore.regs 0)) } :=
    Run.refl.step (.preempt rfl rfl rfl rfl rfl (by decide) (by decide) hd)
  have hsecond := hfirst.step (.work (i := 1) (c := { onFirstCore.regs 1 with
    gpr := fun _ => 0x200000, mem := d.mem }) rfl fun _ _ _ _ _ _ => rfl)
  have hoff := update_self (0x200000 : ℕ)
    (some (0x3fff00, onFirstCore.regs 0)) onFirstCore.preempted
  have hon := goes_on (t := 0x200000) (i := 1) hsecond (fun _ => rfl) (fun _ => rfl) hoff rfl
  have hproc : 0x200000 ||| 1 = 0x200001 := by decide
  refine ⟨_, _, hsecond, hoff, ?_⟩
  rw [← hproc]
  exact hon.1

end MyosIo.Context
