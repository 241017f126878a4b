import MyosIo.Lib.Cpu

/-! What `timer_isr` saves of the thread that it preempts and what it restores, instruction by
instruction. The area of `xsave` has the size that `kernel_init_part4` writes into the code. -/
namespace MyosIo.Context

open Function Cpu

variable {X : Type}

/-- The general registers, the base of `%fs` and the base of `%gs` outside of the kernel. -/
def saveGeneral : List Instr :=
  [.rdgsbase .rax, .swapgs, .push .rsi, .push .rdi, .push .r8, .push .r9, .push .rax,
    .rdfsbase .rcx, .push .rcx, .push .rbx, .push .rbp, .push .r10, .push .r11, .push .r12,
    .push .r13, .push .r14, .push .r15]

/-- The extended state, and the two words by which the thread is resumed. -/
def saveExtended (size lreturn : ℕ) : List Instr :=
  [.movFromSp .rax, .movImm .rcx size, .subSpReg .rcx, .alignSp 64, .movFromSp .rdi, .push .rax,
    .cld, .movImm .rax 0, .repStosb, .mov .rcx .rdx, .movImm .rax allOnes, .mov .rdx .rax,
    .xsave 8, .storeSp .rcx 16, .movImm .rax lreturn, .store .rcx 24 .rax]

/-- How `timer_isr` goes on after it has looked at the running thread. -/
inductive Exit (X : Type)
  | empty (c : State X)
  | fast (c : State X)
  | switch (c : State X)

/-- `timer_isr` up to the switch of threads; `tokens` is what `old_schedulable_threads_num` was. -/
def timerIsr (F : Format X) (tokens lreturn : ℕ) (c : State X) : Option (Exit X) := do
  let save := saveGeneral ++ saveExtended (8 * F.words) lreturn
  let c ← run F [.push .rdx] c
  let cs ← c.read (c.sp + 16)
  if cs % 4 ≠ 0 then do
    let c ← run F [.push .rax, .push .rcx, .movImm .rax tokens] c
    if tokens = 0 ∨ 2 ^ 63 ≤ tokens then some (.fast c)
    else (run F (.loadGs .rdx 0 :: save) c).map .switch
  else do
    let c ← run F [.loadGs .rdx 0] c
    if c.gpr .rdx = 0 then some (.empty c)
    else do
      let c ← run F [.push .rax, .push .rcx, .movImm .rax tokens] c
      if tokens = 0 ∨ 2 ^ 63 ≤ tokens then some (.fast c)
      else (run F (.swapgs :: save) c).map .switch

/-- The code at `.Lreturn` up to the test of the ring. -/
def restore : List Instr :=
  [.pop .rbp, .movImm .rax allOnes, .mov .rdx .rax, .xrstor, .movToSp .rbp, .pop .r15,
    .pop .r14, .pop .r13, .pop .r12, .pop .r11, .pop .r10, .pop .rbp, .pop .rbx, .pop .rax,
    .wrfsbase .rax, .pop .rcx, .swapgs, .wrgsbase .rcx]

/-- The code at `.Lpop7_iretq`. -/
def popIretq : List Instr :=
  [.pop .r9, .pop .r8, .pop .rdi, .pop .rsi, .pop .rcx, .pop .rax, .pop .rdx, .iretq]

/-- The code at `.Lreturn`. -/
def lreturnCode (F : Format X) (c : State X) : Option (State X) := do
  let c ← run F restore c
  let cs ← c.read (c.sp + 64)
  if cs % 4 ≠ 0 then run F popIretq c
  else run F (.swapgs :: popIretq) c

/-- The code at `.Lfast_exit_new`. -/
def fastExit : List Instr :=
  [.movImm .rax 0, .movImm .rdx 0, .movImm .rcx 0x80b, .pop .rcx, .pop .rax, .pop .rdx, .iretq]

/-- The code at `.LBB0_21`: the thread that was chosen is the one that was running. -/
def sameThread : List Instr :=
  [Instr.movImm .rcx 2059, .movImm .rax 0, .movImm .rdx 0, .popSp, .addSp 80] ++ popIretq

/-- `switch_to_interrupt` to a thread without a page table of its own, and the code at `.Lreturn`
when that is where it jumps. -/
def switchToInterrupt (F : Format X) (lreturn : ℕ) (c : State X) : Option (State X) := do
  let c ← run F [.load .rax .rdi 32] c
  if c.gpr .rax ≠ 0 then none
  else do
    let c ← run F [.orImm .rsi 1, .store .rdi 40 .rsi, .storeGs 0 .rdi, .loadSp .rdi 16,
      .movImm .rcx 2059, .movImm .rax 0, .movImm .rdx 0, .jmp .rdi 24] c
    if c.ip = lreturn then lreturnCode F c else none

variable {F : Format X} {a c : State X} {t tokens lreturn handler : ℕ}

theorem clearBit_directionFlag (n : ℕ) :
    clearBit n directionFlag / 2 ^ directionFlag % 2 = 0 := by
  unfold clearBit directionFlag
  omega

/-- Memory with the extended state in the area at `base` and the way back in `struct Thread`. -/
def extendedMem (F : Format X) (a : State X) (t lreturn base : ℕ) : ℕ → ℕ :=
  let pushed := update a.mem (base - 8) a.sp
  let zeroed := fun x => if base ≤ x ∧ x < base + 8 * F.words then 0 else pushed x
  let saved := fun x =>
    if base ≤ x ∧ x < base + 8 * F.words ∧ x % 8 = 0 then
      (F.save a.ext ((x - base) / 8)).getD (zeroed x)
    else zeroed x
  update (update saved (t + 16) (base - 8)) (t + 24) lreturn

section

variable {base : ℕ} {p : List Instr}

/-- Room for the extended state, zeroed, and the old `%rsp` below it. -/
theorem zeroed_run (hroom : 8 * F.words + 72 ≤ a.sp)
    (hbase : a.sp - 8 * F.words - (a.sp - 8 * F.words) % 64 = base) :
    ∃ g, g .rdx = a.gpr .rdx ∧
      run F ([Instr.movFromSp .rax, .movImm .rcx (8 * F.words), .subSpReg .rcx, .alignSp 64,
          .movFromSp .rdi, .push .rax, .cld, .movImm .rax 0, .repStosb] ++ p) a =
        run F p { a with
          sp := base - 8, gpr := g, flags := clearBit a.flags directionFlag
          mem := fun x =>
            if base ≤ x ∧ x < base + 8 * F.words then 0 else update a.mem (base - 8) a.sp x } := by
  have h1 : 8 * F.words ≤ a.sp := by omega
  have h2 : base % 8 = 0 ∧ 8 ≤ base := by omega
  have h3 := clearBit_directionFlag a.flags
  refine ⟨?g, ?rdx, ?run⟩
  case run =>
    simp [run_cons, step, State.set, State.push, State.pushed, State.zeroed, hbase, h1, h2, h3]
    rfl
  case rdx => exact update_of_ne (by decide) _ _

theorem xsave_run (lreturn : ℕ) (hsp : c.sp + 8 = base) (hbase : base % 64 = 0)
    (ht : c.gpr .rdx = t) (ht8 : t % 8 = 0) :
    ∃ g, g .rcx = t ∧
      run F [.mov .rcx .rdx, .movImm .rax allOnes, .mov .rdx .rax, .xsave 8, .storeSp .rcx 16,
          .movImm .rax lreturn, .store .rcx 24 .rax] c =
        some { c with
          gpr := g
          mem := update (update (c.saved F base).mem (t + 16) c.sp) (t + 24) lreturn } := by
  have h16 : (t + 16) % 8 = 0 := by omega
  have h24 : (t + 24) % 8 = 0 := by omega
  obtain ⟨g, hg⟩ : ∃ g, update (update (update c.gpr .rcx t) .rax allOnes) .rdx allOnes = g :=
    ⟨_, rfl⟩
  have hmask : State.FullMask { c with gpr := g } := by
    rw [← hg]
    exact ⟨rfl, rfl⟩
  have hrcx : g .rcx = t := by rw [← hg]; rfl
  have hmoved : run F [.mov .rcx .rdx, .movImm .rax allOnes, .mov .rdx .rax, .xsave 8,
      .storeSp .rcx 16, .movImm .rax lreturn, .store .rcx 24 .rax] c =
      run F [.xsave 8, .storeSp .rcx 16, .movImm .rax lreturn, .store .rcx 24 .rax]
        { c with gpr := g } := by
    rw [← hg, ← ht]
    rfl
  have hxsave : step F { c with gpr := g } (.xsave 8) =
      some { c with gpr := g, mem := (c.saved F base).mem } := by
    have haligned : (c.sp + 8) % 64 = 0 := by omega
    rw [← hsp]
    exact if_pos ⟨hmask, haligned⟩
  refine ⟨update g .rax lreturn, hrcx, hmoved.trans ((run_step hxsave).trans ?_)⟩
  have hstoreSp : step F { c with gpr := g, mem := (c.saved F base).mem } (.storeSp .rcx 16) =
      some { c with gpr := g, mem := update (c.saved F base).mem (t + 16) c.sp } := by
    rw [← hrcx] at h16 ⊢
    exact if_pos h16
  have hstore : step F { c with
        gpr := update g .rax lreturn, mem := update (c.saved F base).mem (t + 16) c.sp }
        (.store .rcx 24 .rax) = some { c with
          gpr := update g .rax lreturn
          mem := update (update (c.saved F base).mem (t + 16) c.sp) (t + 24) lreturn } := by
    rw [← hrcx] at h24 ⊢
    exact if_pos h24
  refine (run_step hstoreSp).trans ((run_step (i := .movImm .rax lreturn) rfl).trans ?_)
  exact run_step hstore

end

theorem saveExtended_run (lreturn : ℕ) (hroom : 8 * F.words + 72 ≤ a.sp) (ht : a.gpr .rdx = t)
    (ht8 : t % 8 = 0) :
    ∃ base gpr, base % 64 = 0 ∧ base + 8 * F.words ≤ a.sp ∧ a.sp < base + 8 * F.words + 64 ∧
      gpr .rcx = t ∧
      run F (saveExtended (8 * F.words) lreturn) a = some { a with
        sp := base - 8, gpr := gpr, flags := clearBit a.flags directionFlag
        mem := extendedMem F a t lreturn base } := by
  obtain ⟨base, hbase⟩ : ∃ b, a.sp - 8 * F.words - (a.sp - 8 * F.words) % 64 = b := ⟨_, rfl⟩
  obtain ⟨g, hg, hzeroed⟩ := zeroed_run (F := F) (p := [.mov .rcx .rdx, .movImm .rax allOnes,
    .mov .rdx .rax, .xsave 8, .storeSp .rcx 16, .movImm .rax lreturn, .store .rcx 24 .rax])
    hroom hbase
  have hbelow : base - 8 + 8 = base := by omega
  obtain ⟨gpr, hrcx, hsaved⟩ := xsave_run (F := F) (c := { a with
    sp := base - 8, gpr := g, flags := clearBit a.flags directionFlag
    mem := fun x =>
      if base ≤ x ∧ x < base + 8 * F.words then 0 else update a.mem (base - 8) a.sp x })
    lreturn hbelow (by omega) (hg.trans ht) ht8
  exact ⟨base, gpr, by omega, by omega, by omega, hrcx, hzeroed.trans hsaved⟩

/-- The words above the extended state, from the last one pushed on. -/
def words (r : Regs X) : List ℕ :=
  [r.gpr .r15, r.gpr .r14, r.gpr .r13, r.gpr .r12, r.gpr .r11, r.gpr .r10, r.gpr .rbp, r.gpr .rbx,
    r.fsBase, r.kernelGsBase, r.gpr .r9, r.gpr .r8, r.gpr .rdi, r.gpr .rsi, r.gpr .rcx,
    r.gpr .rax, r.gpr .rdx, r.ip, r.cs, r.flags, r.sp, r.ss]

/-- The memory from `lo` to `hi` holds the registers of a thread. -/
structure Saved (F : Format X) (m : ℕ → ℕ) (lo hi : ℕ) (r : Regs X) : Prop where
  aligned : (lo + 8) % 64 = 0
  ext : ∀ i < F.words, m (lo + 8 + 8 * i) = (F.save r.ext i).getD 0
  general : Holds m (m lo) (words r)
  generalMod : m lo % 8 = 0
  extBelow : lo + 8 + 8 * F.words ≤ m lo
  top : hi = m lo + 8 * (words r).length

theorem Saved.congr {m m' : ℕ → ℕ} {lo hi : ℕ} {r : Regs X} (h : Saved F m lo hi r)
    (hm : ∀ x, lo ≤ x → x < hi → m' x = m x) : Saved F m' lo hi r := by
  have htop := h.top
  have hbelow := h.extBelow
  have hlen : 0 < (words r).length := by simp [words]
  have hlo : m' lo = m lo := hm lo (Nat.le_refl lo) (by omega)
  refine ⟨h.aligned, ?_, ?_, ?_, ?_, ?_⟩
  · intro i hi
    rw [hm _ (by omega) (by omega)]
    exact h.ext i hi
  · rw [hlo]
    refine h.general.congr ?_
    intro x h₁ h₂
    exact hm x (by omega) (by omega)
  · rw [hlo]
    exact h.generalMod
  · rw [hlo]
    exact hbelow
  · rw [hlo]
    exact htop

/-- The stack that the interrupt and `timer_isr` use at most. -/
def depth (F : Format X) : ℕ := 264 + 8 * F.words

/-- Where the interrupt pushes its words. -/
def entered (c : State X) (handler : ℕ) : State X :=
  { c with sp := c.sp - c.sp % 16, flags := clearBit c.flags interruptFlag, ip := handler }

theorem interrupt_eq (hroom : 56 ≤ c.sp) : c.interrupt handler =
    some ((entered c handler).at [c.ss, c.sp, c.flags, c.cs, c.ip] c.gpr c.gsBase
      c.kernelGsBase) :=
  if_pos hroom

theorem saveGeneral_run {b : State X} {p : List Instr} (ws : List ℕ) (g : Reg → ℕ) (gs kgs : ℕ)
    (h8 : b.sp % 8 = 0) (hroom : 8 * (ws.length + 14) ≤ b.sp) :
    ∃ g', g' .rdx = g .rdx ∧ run F (saveGeneral ++ p) (b.at ws g gs kgs) =
      run F p (b.at (ws ++ [g .rsi, g .rdi, g .r8, g .r9, gs, b.fsBase, g .rbx, g .rbp, g .r10,
        g .r11, g .r12, g .r13, g .r14, g .r15]) g' kgs gs) := by
  refine ⟨update (update g .rax gs) .rcx b.fsBase, rfl, ?_⟩
  change run F (.rdgsbase .rax :: .swapgs :: ([Reg.rsi, .rdi, .r8, .r9, .rax].map Instr.push ++
    .rdfsbase .rcx ::
      ([Reg.rcx, .rbx, .rbp, .r10, .r11, .r12, .r13, .r14, .r15].map Instr.push ++ p))) _ = _
  rw [run_rdgsbase_at, run_swapgs_at, run_push_at _ h8 (by simp; omega), run_rdfsbase_at,
    run_push_at _ h8 (by simp; omega)]
  simp [update]

/-- The state after `timer_isr` has found the running thread and taken a token. -/
def looked (c : State X) (handler tokens t : ℕ) : State X :=
  (entered c handler).at [c.ss, c.sp, c.flags, c.cs, c.ip, c.gpr .rdx, c.gpr .rax, c.gpr .rcx]
    (update (update c.gpr .rdx t) .rax tokens) c.gsBase c.kernelGsBase

theorem timerIsr_kernel (hroom : 192 ≤ c.sp) (hring : c.cs % 4 = 0) (hgs : c.gsBase % 8 = 0)
    (ht : c.mem c.gsBase = t) (ht0 : t ≠ 0) (hout : c.gsBase < c.sp - 192 ∨ c.sp ≤ c.gsBase) :
    (c.interrupt handler).bind (timerIsr F tokens lreturn) =
      if tokens = 0 ∨ 2 ^ 63 ≤ tokens then some (.fast (looked c handler tokens t))
      else (run F (.swapgs :: (saveGeneral ++ saveExtended (8 * F.words) lreturn))
        (looked c handler tokens t)).map .switch := by
  have hsp : (entered c handler).sp = c.sp - c.sp % 16 := rfl
  have h8 : (entered c handler).sp % 8 = 0 := by omega
  rw [interrupt_eq (by omega), Option.bind_some]
  obtain ⟨b, hb⟩ : ∃ b, entered c handler = b := ⟨_, rfl⟩
  have hgsb : b.mem c.gsBase = t := by rw [← hb]; exact ht
  rw [looked, hb]
  rw [hb] at hsp h8
  have hpush : ∀ vs g p (rs : List Reg), vs.length + rs.length ≤ 22 →
      run F (rs.map .push ++ p) (b.at vs g c.gsBase c.kernelGsBase) =
        run F p (b.at (vs ++ rs.map g) g c.gsBase c.kernelGsBase) := by
    intro vs g p rs h
    exact run_push_at rs h8 (by omega)
  have hfirst := hpush [c.ss, c.sp, c.flags, c.cs, c.ip] c.gpr [] [.rdx] (by simp)
  have hcs : (b.at [c.ss, c.sp, c.flags, c.cs, c.ip, c.gpr .rdx] c.gpr c.gsBase
      c.kernelGsBase).read ((b.pushedAll [c.ss, c.sp, c.flags, c.cs, c.ip, c.gpr .rdx]).sp + 16) =
        some c.cs := by
    have hholds : Holds _ _ ([c.ss, c.sp, c.flags, c.cs, c.ip, c.gpr .rdx].reverse ++ []) :=
      State.pushedAll_holds (c := b) _ (by change 8 * 6 ≤ b.sp; omega) trivial
    refine (if_pos ?_).trans (congrArg some hholds.2.2.1)
    rw [State.pushedAll_sp]
    change (b.sp - 8 * 6 + 16) % 8 = 0
    omega
  have hload : run F [.loadGs .rdx 0] (b.at [c.ss, c.sp, c.flags, c.cs, c.ip, c.gpr .rdx] c.gpr
      c.gsBase c.kernelGsBase) = run F [] (b.at [c.ss, c.sp, c.flags, c.cs, c.ip, c.gpr .rdx]
        (update c.gpr .rdx (b.mem c.gsBase)) c.gsBase c.kernelGsBase) :=
    run_loadGs_at hgs (by change c.gsBase + 0 < b.sp - 8 * 6 ∨ b.sp ≤ c.gsBase + 0; omega)
      (by change 8 * 6 ≤ b.sp; omega)
  rw [hgsb] at hload
  have hsecond := hpush [c.ss, c.sp, c.flags, c.cs, c.ip, c.gpr .rdx] (update c.gpr .rdx t)
    [.movImm .rax tokens] [.rax, .rcx] (by simp)
  rw [run_movImm_at] at hsecond
  rw [timerIsr]
  refine (congrArg (Option.bind · _) hfirst).trans ?_
  refine (congrArg (Option.bind · _) hcs).trans ?_
  refine (if_neg (by omega)).trans ?_
  refine (congrArg (Option.bind · _) hload).trans ?_
  refine (if_neg ht0).trans ?_
  exact congrArg (Option.bind · _) hsecond

/-- The state with the general registers on the stack of the thread. -/
def general (c : State X) (handler : ℕ) (g : Reg → ℕ) : State X :=
  (entered c handler).at (words c.toRegs).reverse g c.gsBase c.kernelGsBase

theorem saved_general (handler lreturn : ℕ) (hroom : 192 ≤ c.sp) (hring : c.cs % 4 = 0)
    (hgs : c.gsBase % 8 = 0) (ht : c.mem c.gsBase = t) (ht0 : t ≠ 0)
    (htok : 0 < tokens ∧ tokens < 2 ^ 63) (hout : c.gsBase < c.sp - 192 ∨ c.sp ≤ c.gsBase) :
    ∃ g, g .rdx = t ∧ (c.interrupt handler).bind (timerIsr F tokens lreturn) =
      (run F (saveExtended (8 * F.words) lreturn) (general c handler g)).map .switch := by
  have hsp : (entered c handler).sp = c.sp - c.sp % 16 := rfl
  obtain ⟨g, hg, hsave⟩ := saveGeneral_run (F := F) (b := entered c handler)
    (p := saveExtended (8 * F.words) lreturn)
    [c.ss, c.sp, c.flags, c.cs, c.ip, c.gpr .rdx, c.gpr .rax, c.gpr .rcx]
    (update (update c.gpr .rdx t) .rax tokens) c.kernelGsBase c.gsBase (by omega)
    (by change 8 * 22 ≤ _; omega)
  refine ⟨g, hg, ?_⟩
  rw [timerIsr_kernel hroom hring hgs ht ht0 hout, if_neg (by omega), looked, run_swapgs_at, hsave]
  rfl

section

variable {g : Reg → ℕ} {x : ℕ}

theorem general_sp : (general c handler g).sp = c.sp - c.sp % 16 - 176 := State.pushedAll_sp

theorem general_ext : (general c handler g).ext = c.ext := State.pushedAll_ext

theorem general_holds (hroom : 192 ≤ c.sp) :
    Holds (general c handler g).mem (general c handler g).sp (words c.toRegs) := by
  have h : Holds (general c handler g).mem (general c handler g).sp
      ((words c.toRegs).reverse.reverse ++ []) :=
    State.pushedAll_holds (c := entered c handler) _
      (by change 8 * 22 ≤ c.sp - c.sp % 16; omega) trivial
  rw [List.reverse_reverse, List.append_nil] at h
  exact h

/-- Only the stack of the thread is written. -/
theorem general_frame (hroom : 192 ≤ c.sp) (hx : x < c.sp - c.sp % 16 - 176 ∨ c.sp ≤ x) :
    (general c handler g).mem x = c.mem x := by
  have h := State.pushedAll_mem (c := entered c handler) (a := x) (words c.toRegs).reverse
    (by change x < c.sp - c.sp % 16 - 8 * 22 ∨ c.sp - c.sp % 16 ≤ x; omega)
    (by change 8 * 22 ≤ c.sp - c.sp % 16; omega)
  exact h

end

section

variable {base x : ℕ}

theorem extendedMem_frame (hx : x < base - 8 ∨ base + 8 * F.words ≤ x) (h₁ : x ≠ t + 16)
    (h₂ : x ≠ t + 24) (h8 : 8 ≤ base) : extendedMem F a t lreturn base x = a.mem x := by
  have hout : ¬ (base ≤ x ∧ x < base + 8 * F.words) := by omega
  have hsaved : ¬ (base ≤ x ∧ x < base + 8 * F.words ∧ x % 8 = 0) := by omega
  simp only [extendedMem]
  rw [update_of_ne h₂, update_of_ne h₁, if_neg hsaved, if_neg hout, update_of_ne (by omega)]

theorem extendedMem_sp (ht : t + 32 ≤ base - 8 ∨ base ≤ t) (h8 : 8 ≤ base) :
    extendedMem F a t lreturn base (base - 8) = a.sp := by
  have hout : ¬ (base ≤ base - 8 ∧ base - 8 < base + 8 * F.words) := by omega
  have hsaved : ¬ (base ≤ base - 8 ∧ base - 8 < base + 8 * F.words ∧ (base - 8) % 8 = 0) := by
    omega
  simp only [extendedMem]
  rw [update_of_ne (by omega), update_of_ne (by omega), if_neg hsaved, if_neg hout, update_self]

theorem extendedMem_area {i : ℕ} (hi : i < F.words) (h8 : base % 8 = 0)
    (ht : t + 32 ≤ base ∨ base + 8 * F.words ≤ t) :
    extendedMem F a t lreturn base (base + 8 * i) = (F.save a.ext i).getD 0 := by
  have hin : base ≤ base + 8 * i ∧ base + 8 * i < base + 8 * F.words := by omega
  have hsaved : base ≤ base + 8 * i ∧ base + 8 * i < base + 8 * F.words ∧
      (base + 8 * i) % 8 = 0 := by omega
  have hindex : (base + 8 * i - base) / 8 = i := by omega
  simp only [extendedMem]
  rw [update_of_ne (by omega), update_of_ne (by omega), if_pos hsaved, if_pos hin, hindex]

theorem extendedMem_saved {r : Regs X} (hholds : Holds a.mem a.sp (words r)) (hext : a.ext = r.ext)
    (hbase : base % 64 = 0) (h8 : 8 ≤ base) (hsp : a.sp % 8 = 0)
    (hbelow : base + 8 * F.words ≤ a.sp) (ht : t + 32 ≤ base - 8 ∨ a.sp + 176 ≤ t) :
    Saved F (extendedMem F a t lreturn base) (base - 8) (a.sp + 176) r := by
  have hold : extendedMem F a t lreturn base (base - 8) = a.sp := extendedMem_sp (by omega) h8
  have hcancel : base - 8 + 8 = base := by omega
  refine ⟨?_, ?_, ?_, ?_, ?_, ?_⟩
  · rw [hcancel]
    exact hbase
  · intro i hi
    rw [hcancel, ← hext]
    exact extendedMem_area hi (by omega) (by omega)
  · rw [hold]
    apply hholds.congr
    intro x h₁ h₂
    change x < a.sp + 8 * 22 at h₂
    exact extendedMem_frame (by omega) (by omega) (by omega) h8
  · rw [hold]
    exact hsp
  · rw [hold, hcancel]
    exact hbelow
  · rw [hold]
    rfl

end

/-- A thread that runs in the kernel leaves its registers on its stack when it is preempted. -/
theorem preempted_saved (handler lreturn : ℕ) (hroom : depth F ≤ c.sp) (hring : c.cs % 4 = 0)
    (hgs : c.gsBase % 8 = 0) (ht : c.mem c.gsBase = t) (ht0 : t ≠ 0) (ht8 : t % 8 = 0)
    (htok : 0 < tokens ∧ tokens < 2 ^ 63)
    (hgsout : c.gsBase < c.sp - depth F ∨ c.sp ≤ c.gsBase)
    (htout : t + 32 ≤ c.sp - depth F ∨ c.sp ≤ t) :
    ∃ d lo, (c.interrupt handler).bind (timerIsr F tokens lreturn) = some (.switch d) ∧
      d.gpr .rcx = t ∧ d.sp = lo ∧ d.gsBase = c.gsBase ∧
      d.mem (t + 16) = lo ∧ d.mem (t + 24) = lreturn ∧
      Saved F d.mem lo (c.sp - c.sp % 16) c.toRegs ∧ c.sp - depth F ≤ lo ∧
      ∀ x, x < lo ∨ c.sp ≤ x → x ≠ t + 16 → x ≠ t + 24 → d.mem x = c.mem x := by
  unfold depth at hroom hgsout htout ⊢
  have hstack : 192 ≤ c.sp := by omega
  obtain ⟨g, hg, hgeneral⟩ :=
    saved_general (F := F) handler lreturn hstack hring hgs ht ht0 htok (by omega)
  have hsp : (general c handler g).sp = c.sp - c.sp % 16 - 176 := general_sp
  obtain ⟨base, gpr, hmod, hbelow, habove, hrcx, hrun⟩ := saveExtended_run (F := F)
    (a := general c handler g) lreturn (by omega) hg ht8
  rw [hgeneral]
  refine ⟨_, base - 8, congrArg (Option.map Exit.switch) hrun, hrcx, rfl, rfl, ?_, ?_, ?_,
    by omega, ?_⟩
  · simp [extendedMem]
  · simp [extendedMem]
  · have hsaved : Saved F (extendedMem F (general c handler g) t lreturn base) (base - 8)
        ((general c handler g).sp + 176) c.toRegs :=
      extendedMem_saved (general_holds hstack) general_ext hmod (by omega) (by omega) hbelow
        (by omega)
    have htop : (general c handler g).sp + 176 = c.sp - c.sp % 16 := by omega
    rw [htop] at hsaved
    exact hsaved
  · intro x hx h₁ h₂
    have hout : extendedMem F (general c handler g) t lreturn base x =
        (general c handler g).mem x := extendedMem_frame (by omega) h₁ h₂ (by omega)
    exact hout.trans (general_frame hstack (by omega))

variable {e : State X} {r : Regs X} {lo hi : ℕ}

/-- Memory after `current_proc` and `running_thread` have been stored for thread `t`. -/
def switchedMem (m : ℕ → ℕ) (gs t proc : ℕ) : ℕ → ℕ :=
  update (update m (t + 40) (proc ||| 1)) gs t

theorem switchToInterrupt_run (ht8 : t % 8 = 0) (ht : e.gpr .rdi = t) (hgs : e.gsBase % 8 = 0)
    (hgst : e.gsBase < t + 16 ∨ t + 32 ≤ e.gsBase) (hlo : e.mem (t + 16) = lo)
    (hip : e.mem (t + 24) = lreturn) (hcr3 : e.mem (t + 32) = 0) :
    ∃ g, switchToInterrupt F lreturn e = lreturnCode F { e with
      mem := switchedMem e.mem e.gsBase t (e.gpr .rsi), sp := lo, gpr := g, ip := lreturn } := by
  have h₁ : (t + 16) % 8 = 0 := by omega
  have h₂ : (t + 24) % 8 = 0 := by omega
  have h₃ : t + 16 ≠ e.gsBase := by omega
  have h₄ : t + 24 ≠ e.gsBase := by omega
  have h₅ : (t + 32) % 8 = 0 := by omega
  have h₆ : (t + 40) % 8 = 0 := by omega
  refine ⟨?g, ?run⟩
  case run =>
    simp [switchToInterrupt, switchedMem, run_cons, step, State.read, State.write, State.set, ht,
      hgs, h₁, h₂, h₃, h₄, h₅, h₆, hlo, hip, hcr3]
    rfl

theorem restoreExtended_run {p : List Instr} (h : Saved F e.mem lo hi r) (hsp : e.sp = lo) :
    ∃ g, run F (.pop .rbp :: .movImm .rax allOnes :: .mov .rdx .rax :: .xrstor ::
        .movToSp .rbp :: p) e = run F p { e with sp := e.mem lo, gpr := g, ext := r.ext } := by
  have hmod : lo % 8 = 0 := by
    have := h.aligned
    omega
  have hpop : step F e (.pop .rbp) =
      some { e with gpr := update e.gpr .rbp (e.mem lo), sp := lo + 8 } := by
    change Option.map _ e.pop = _
    rw [State.pop_eq (by omega) (by rw [hsp]), hsp]
    rfl
  have hrestore : F.restore (fun i => e.mem (lo + 8 + 8 * i)) = some r.ext :=
    F.restore_save r.ext _ h.ext
  refine ⟨update (update (update e.gpr .rbp (e.mem lo)) .rax allOnes) .rdx allOnes,
    (run_step hpop).trans ?_⟩
  refine (run_step (i := .movImm .rax _) rfl).trans ((run_step (i := .mov .rdx .rax) rfl).trans ?_)
  have hxrstor : ∀ d : State X, d.FullMask → d.sp = lo + 8 → d.mem = e.mem →
      step F d .xrstor = some { d with ext := r.ext } := by
    intro d hmask hdsp hdmem
    refine (if_pos ⟨hmask, hdsp ▸ h.aligned⟩).trans ?_
    rw [hdsp, hdmem, hrestore]
    rfl
  exact (run_step (hxrstor { e with
    gpr := update (update (update e.gpr .rbp (e.mem lo)) .rax allOnes) .rdx allOnes
    sp := lo + 8 } ⟨rfl, rfl⟩ rfl rfl)).trans rfl

/-- The registers that the code between saving and restoring leaves alone. -/
def calleeSaved : List Reg := [.r15, .r14, .r13, .r12, .r11, .r10, .rbp, .rbx]

theorem restore_run {p : List Instr} (h : Saved F e.mem lo hi r) (hsp : e.sp = lo) :
    ∃ g, (∀ x ∈ calleeSaved, g x = r.gpr x) ∧
      run F (restore ++ p) e = run F p { e with
        sp := e.mem lo + 80, gpr := g, ext := r.ext, fsBase := r.fsBase
        gsBase := r.kernelGsBase, kernelGsBase := e.gsBase } := by
  obtain ⟨g, hg⟩ := restoreExtended_run (p :=
    [Reg.r15, .r14, .r13, .r12, .r11, .r10, .rbp, .rbx, .rax].map Instr.pop ++
      .wrfsbase .rax :: ([Reg.rcx].map Instr.pop ++ .swapgs :: .wrgsbase .rcx :: p)) h hsp
  have hmod := h.generalMod
  obtain ⟨h₁, h₂⟩ := Holds.append ((words r).take 9) ((words r).drop 9) h.general
  obtain ⟨f, hf⟩ : ∃ f, assign g [Reg.r15, .r14, .r13, .r12, .r11, .r10, .rbp, .rbx, .rax]
    ((words r).take 9) = f := ⟨_, rfl⟩
  have hrcx : run F ([Reg.rcx].map Instr.pop ++ .swapgs :: .wrgsbase .rcx :: p)
        { e with sp := e.mem lo + 72, gpr := f, ext := r.ext, fsBase := r.fsBase } =
      run F p { e with
        sp := e.mem lo + 80, gpr := update f .rcx r.kernelGsBase, ext := r.ext
        fsBase := r.fsBase, gsBase := r.kernelGsBase, kernelGsBase := e.gsBase } := by
    obtain ⟨d, hd⟩ : ∃ d : State X, { e with
      sp := e.mem lo + 72, gpr := f, ext := r.ext, fsBase := r.fsBase } = d := ⟨_, rfl⟩
    have hdsp : e.mem lo + 72 = d.sp := by rw [← hd]
    have hdmod : d.sp % 8 = 0 := by omega
    have hdpop : Holds d.mem d.sp [r.kernelGsBase] := by
      rw [← hd]
      exact ⟨h₂.1, trivial⟩
    rw [hd, run_pop [.rcx] hdmod hdpop rfl, ← hd]
    rfl
  refine ⟨update f .rcx r.kernelGsBase, ?_, hg.trans ((run_pop _ hmod h₁ rfl).trans ?_)⟩
  · intro x hx
    rw [← hf]
    simp only [calleeSaved, List.mem_cons, List.not_mem_nil, or_false] at hx
    rcases hx with rfl | rfl | rfl | rfl | rfl | rfl | rfl | rfl <;> rfl
  · rw [hf]
    refine Eq.trans ?_ hrcx
    rw [← hf]
    rfl

theorem popIretq_run {m : ℕ → ℕ} (h : Saved F m lo hi r) (hmem : e.mem = m)
    (hsp : e.sp = m lo + 80) (hg : ∀ x ∈ calleeSaved, e.gpr x = r.gpr x) :
    run F popIretq e = some { e with
      gpr := r.gpr, ip := r.ip, cs := r.cs, flags := r.flags, sp := r.sp, ss := r.ss } := by
  have hmod := h.generalMod
  obtain ⟨-, hrest⟩ := Holds.append ((words r).take 10) ((words r).drop 10) h.general
  obtain ⟨hpop, hiret⟩ := Holds.append (((words r).drop 10).take 7) ((words r).drop 17)
    hrest
  have hgpr : assign e.gpr [.r9, .r8, .rdi, .rsi, .rcx, .rax, .rdx] (((words r).drop 10).take 7) =
      r.gpr := by
    funext x
    cases x
    case rbx | rbp | r10 | r11 | r12 | r13 | r14 | r15 => exact hg _ (by decide)
    all_goals rfl
  have hholds : Holds e.mem e.sp (((words r).drop 10).take 7) := by
    rw [hmem, hsp]
    exact hpop
  refine (run_pop [.r9, .r8, .rdi, .rsi, .rcx, .rax, .rdx] (by omega) hholds rfl).trans ?_
  rw [hgpr, hsp]
  refine run_step (step_iretq ?_ ?_)
  · change (m lo + 80 + 56) % 8 = 0
    omega
  · change Holds e.mem (m lo + 80 + 56) _
    rw [hmem]
    exact hiret

/-- A thread of the kernel goes on with its registers; the base of `%gs` is the one of the core. -/
theorem lreturnCode_run (h : Saved F e.mem lo hi r) (hsp : e.sp = lo) (hring : r.cs % 4 = 0) :
    lreturnCode F e = some { r with gsBase := e.gsBase, mem := e.mem } := by
  obtain ⟨g, hg, hrun⟩ := restore_run (p := []) h hsp
  rw [List.append_nil, run_nil] at hrun
  have hmod := h.generalMod
  have hcs : e.mem (e.mem lo + 80 + 64) = r.cs :=
    (Holds.append ((words r).take 18) ((words r).drop 18) h.general).2.1
  rw [lreturnCode]
  refine (congrArg (Option.bind · _) hrun).trans ?_
  refine (congrArg (Option.bind · _) ((if_pos ?_).trans (congrArg some hcs))).trans ?_
  · change (e.mem lo + 80 + 64) % 8 = 0
    omega
  refine (if_neg (by omega)).trans ?_
  refine (run_step (i := .swapgs) rfl).trans ?_
  exact popIretq_run (e := { e with
    sp := e.mem lo + 80, gpr := g, ext := r.ext, fsBase := r.fsBase
    gsBase := e.gsBase, kernelGsBase := r.kernelGsBase }) h rfl rfl hg

/-- The thread that was preempted is chosen again, and nothing needs to be restored of what the
choice left alone. -/
theorem sameThread_run (h : Saved F e.mem lo hi r) (hsp : e.sp = lo)
    (hg : ∀ x ∈ calleeSaved, e.gpr x = r.gpr x) (hfs : e.fsBase = r.fsBase)
    (hkgs : e.kernelGsBase = r.kernelGsBase) (hext : e.ext = r.ext) :
    run F sameThread e = some { r with gsBase := e.gsBase, mem := e.mem } := by
  have haligned := h.aligned
  obtain ⟨d, hd⟩ : ∃ d : State X, { e with
    gpr := update (update (update e.gpr .rcx 2059) .rax 0) .rdx 0, sp := e.mem lo + 80 } = d :=
    ⟨_, rfl⟩
  have hfirst : run F [.movImm .rcx 2059, .movImm .rax 0, .movImm .rdx 0, .popSp, .addSp 80] e =
      some d := by
    have hread : (if lo % 8 = 0 then some (e.mem lo) else none) = some (e.mem lo) :=
      if_pos (by omega)
    simp [run_cons, step, State.read, State.set, hsp, hread, ← hd]
  have hgpr : ∀ x ∈ calleeSaved, d.gpr x = r.gpr x := by
    intro x hx
    rw [← hg x hx, ← hd]
    simp only [calleeSaved, List.mem_cons, List.not_mem_nil, or_false] at hx
    rcases hx with rfl | rfl | rfl | rfl | rfl | rfl | rfl | rfl <;> rfl
  rw [sameThread, run_append, hfirst, Option.bind_some,
    popIretq_run (e := d) h (by rw [← hd]) (by rw [← hd]) hgpr, ← hd, ← hfs, ← hkgs, ← hext]

/-- Without a token to take, the interrupt leaves the thread its registers. -/
theorem fastExit_run (F : Format X) (lreturn handler : ℕ) (hroom : 192 ≤ c.sp)
    (hring : c.cs % 4 = 0) (hgs : c.gsBase % 8 = 0)
    (ht : c.mem c.gsBase = t) (ht0 : t ≠ 0) (htok : tokens = 0 ∨ 2 ^ 63 ≤ tokens)
    (hout : c.gsBase < c.sp - 192 ∨ c.sp ≤ c.gsBase) :
    ∃ d, (c.interrupt handler).bind (timerIsr F tokens lreturn) = some (.fast d) ∧
      run F fastExit d = some { c with mem := d.mem } ∧
      ∀ x, x < c.sp - 79 ∨ c.sp ≤ x → d.mem x = c.mem x := by
  have hsp : (entered c handler).sp = c.sp - c.sp % 16 := rfl
  refine ⟨looked c handler tokens t, ?_, ?_, ?_⟩
  · rw [timerIsr_kernel hroom hring hgs ht ht0 hout, if_pos htok]
  · have hholds : Holds (looked c handler tokens t).mem (looked c handler tokens t).sp
        ([c.gpr .rcx, c.gpr .rax, c.gpr .rdx] ++ [c.ip, c.cs, c.flags, c.sp, c.ss]) :=
      State.pushedAll_holds (c := entered c handler)
        [c.ss, c.sp, c.flags, c.cs, c.ip, c.gpr .rdx, c.gpr .rax, c.gpr .rcx]
        (by change 8 * 8 ≤ _; omega) trivial
    have hlsp : (looked c handler tokens t).sp = c.sp - c.sp % 16 - 64 := State.pushedAll_sp
    have hgpr : assign (update (update (update (looked c handler tokens t).gpr .rax 0) .rdx 0)
        .rcx 0x80b) [.rcx, .rax, .rdx] [c.gpr .rcx, c.gpr .rax, c.gpr .rdx] = c.gpr := by
      funext x
      cases x <;> rfl
    obtain ⟨hpop, hiret⟩ := Holds.append _ _ hholds
    obtain ⟨d, hd⟩ : ∃ d : State X, { looked c handler tokens t with
      gpr := update (update (update (looked c handler tokens t).gpr .rax 0) .rdx 0) .rcx 0x80b } =
        d := ⟨_, rfl⟩
    have hmoved : run F fastExit (looked c handler tokens t) =
        run F ([Reg.rcx, .rax, .rdx].map Instr.pop ++ [Instr.iretq]) d := by
      rw [← hd]
      rfl
    have hdsp : d.sp = c.sp - c.sp % 16 - 64 := by rw [← hd]; exact hlsp
    have hdpop : Holds d.mem d.sp [c.gpr .rcx, c.gpr .rax, c.gpr .rdx] := by
      rw [← hd]
      exact hpop
    have hdiret : Holds d.mem (d.sp + 24) [c.ip, c.cs, c.flags, c.sp, c.ss] := by
      rw [← hd]
      exact hiret
    have hmod : (d.sp + 24) % 8 = 0 := by omega
    rw [hmoved, run_pop _ (by omega) hdpop rfl]
    refine (run_step (step_iretq hmod hdiret)).trans ?_
    rw [← hd, hgpr]
    rfl
  · intro x hx
    have hmem := State.pushedAll_mem (c := entered c handler) (a := x)
      [c.ss, c.sp, c.flags, c.cs, c.ip, c.gpr .rdx, c.gpr .rax, c.gpr .rcx]
      (by change x < (entered c handler).sp - 8 * 8 ∨ _; omega) (by change 8 * 8 ≤ _; omega)
    exact hmem

end MyosIo.Context
