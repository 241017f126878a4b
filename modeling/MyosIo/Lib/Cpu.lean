import Mathlib.Algebra.Group.Nat.Defs
import Mathlib.Logic.Function.Basic
import Mathlib.Data.Nat.Notation

/-! The registers and the instructions that code which saves and restores a context is made of.
Memory is accessed in aligned words; an access that is not aligned has no result, and neither has
an instruction in a use that is not described here. The status flags of arithmetic are left out. -/
namespace MyosIo.Cpu

open Function

/-- The general registers but `%rsp`. -/
inductive Reg
  | rax | rbx | rcx | rdx | rsi | rdi | rbp | r8 | r9 | r10 | r11 | r12 | r13 | r14 | r15
  deriving DecidableEq

/-- The area, in words, where `xsave` saves the state `X`. A word that `save` does not give is left
as it was, and an area that was zero before is one that `xrstor` restores from. -/
structure Format (X : Type*) where
  words : ℕ
  save : X → ℕ → Option ℕ
  restore : (ℕ → ℕ) → Option X
  restore_save : ∀ e area, (∀ i < words, area i = (save e i).getD 0) → restore area = some e

/-- The registers of a core. -/
structure Regs (X : Type*) where
  gpr : Reg → ℕ
  sp : ℕ
  ip : ℕ
  cs : ℕ
  ss : ℕ
  flags : ℕ
  fsBase : ℕ
  gsBase : ℕ
  kernelGsBase : ℕ
  ext : X

/-- A core and the memory it works on. -/
structure State (X : Type*) extends Regs X where
  mem : ℕ → ℕ

/-- Clear bit `k`. -/
def clearBit (n k : ℕ) : ℕ := n - n / 2 ^ k % 2 * 2 ^ k

/-- `-1` in 32 bits. -/
def allOnes : ℕ := 0xffffffff

def interruptFlag : ℕ := 9
def directionFlag : ℕ := 10

/-- The instructions; `%rsp` has forms of its own. -/
inductive Instr
  | push (r : Reg)
  | pop (r : Reg)
  | movFromSp (r : Reg)
  | movToSp (r : Reg)
  | popSp
  | addSp (n : ℕ)
  | subSpReg (r : Reg)
  | alignSp (n : ℕ)
  | mov (dst src : Reg)
  | movImm (dst : Reg) (n : ℕ)
  | orImm (dst : Reg) (n : ℕ)
  | load (dst base : Reg) (disp : ℕ)
  | store (base : Reg) (disp : ℕ) (src : Reg)
  | loadSp (base : Reg) (disp : ℕ)
  | storeSp (base : Reg) (disp : ℕ)
  | loadGs (dst : Reg) (disp : ℕ)
  | storeGs (disp : ℕ) (src : Reg)
  | jmp (base : Reg) (disp : ℕ)
  | rdfsbase (r : Reg)
  | wrfsbase (r : Reg)
  | rdgsbase (r : Reg)
  | wrgsbase (r : Reg)
  | swapgs
  | cld
  | repStosb
  | xsave (disp : ℕ)
  | xrstor
  | iretq

variable {X : Type*}

namespace State

def read (c : State X) (a : ℕ) : Option ℕ := if a % 8 = 0 then some (c.mem a) else none

def write (c : State X) (a w : ℕ) : Option (State X) :=
  if a % 8 = 0 then some { c with mem := update c.mem a w } else none

def set (c : State X) (r : Reg) (w : ℕ) : State X := { c with gpr := update c.gpr r w }

/-- The state after a push. -/
def pushed (c : State X) (w : ℕ) : State X :=
  { c with sp := c.sp - 8, mem := update c.mem (c.sp - 8) w }

def push (c : State X) (w : ℕ) : Option (State X) :=
  if c.sp % 8 = 0 ∧ 8 ≤ c.sp then some (c.pushed w) else none

/-- The word on the top of the stack, and the state without it. -/
def pop (c : State X) : Option (ℕ × State X) :=
  (c.read c.sp).map fun w => (w, { c with sp := c.sp + 8 })

/-- `rep stosb` with `%al = 0`, forwards. -/
def zeroed (c : State X) : State X :=
  { c with
    mem := fun a => if c.gpr .rdi ≤ a ∧ a < c.gpr .rdi + c.gpr .rcx then 0 else c.mem a
    gpr := update (update c.gpr .rdi (c.gpr .rdi + c.gpr .rcx)) .rcx 0 }

/-- `xsave` to address `a`. -/
def saved (F : Format X) (c : State X) (a : ℕ) : State X :=
  { c with
    mem := fun x =>
      if a ≤ x ∧ x < a + 8 * F.words ∧ x % 8 = 0 then
        (F.save c.ext ((x - a) / 8)).getD (c.mem x)
      else c.mem x }

/-- The mask of all components in `%edx:%eax`. -/
def FullMask (c : State X) : Prop := c.gpr .rax = allOnes ∧ c.gpr .rdx = allOnes

instance (c : State X) : Decidable c.FullMask := inferInstanceAs (Decidable (_ ∧ _))

/-- The state with the words on its stack, the last of them on the top. -/
def pushedAll (c : State X) (ws : List ℕ) : State X := ws.foldl pushed c

/-- The core enters an interrupt handler from ring 0, on the stack it is on. -/
def interrupt (c : State X) (handler : ℕ) : Option (State X) :=
  if 56 ≤ c.sp then
    let entered :=
      { c with sp := c.sp - c.sp % 16 }.pushedAll [c.ss, c.sp, c.flags, c.cs, c.ip]
    some { entered with flags := clearBit c.flags interruptFlag, ip := handler }
  else none

end State

def step (F : Format X) (c : State X) : Instr → Option (State X)
  | .push r => c.push (c.gpr r)
  | .pop r => c.pop.map fun (w, c) => c.set r w
  | .movFromSp r => some (c.set r c.sp)
  | .movToSp r => some { c with sp := c.gpr r }
  | .popSp => (c.read c.sp).map fun w => { c with sp := w }
  | .addSp n => some { c with sp := c.sp + n }
  | .subSpReg r => if c.gpr r ≤ c.sp then some { c with sp := c.sp - c.gpr r } else none
  | .alignSp n => some { c with sp := c.sp - c.sp % n }
  | .mov dst src => some (c.set dst (c.gpr src))
  | .movImm dst n => some (c.set dst n)
  | .orImm dst n => some (c.set dst (c.gpr dst ||| n))
  | .load dst base disp => (c.read (c.gpr base + disp)).map (c.set dst)
  | .store base disp src => c.write (c.gpr base + disp) (c.gpr src)
  | .loadSp base disp => (c.read (c.gpr base + disp)).map fun w => { c with sp := w }
  | .storeSp base disp => c.write (c.gpr base + disp) c.sp
  | .loadGs dst disp => (c.read (c.gsBase + disp)).map (c.set dst)
  | .storeGs disp src => c.write (c.gsBase + disp) (c.gpr src)
  | .jmp base disp => (c.read (c.gpr base + disp)).map fun w => { c with ip := w }
  | .rdfsbase r => some (c.set r c.fsBase)
  | .wrfsbase r => some { c with fsBase := c.gpr r }
  | .rdgsbase r => some (c.set r c.gsBase)
  | .wrgsbase r => some { c with gsBase := c.gpr r }
  | .swapgs => some { c with gsBase := c.kernelGsBase, kernelGsBase := c.gsBase }
  | .cld => some { c with flags := clearBit c.flags directionFlag }
  | .repStosb =>
    if c.flags / 2 ^ directionFlag % 2 = 0 ∧ c.gpr .rax = 0 ∧ c.gpr .rdi % 8 = 0 ∧
      c.gpr .rcx % 8 = 0 then some c.zeroed else none
  | .xsave disp =>
    if c.FullMask ∧ (c.sp + disp) % 64 = 0 then some (c.saved F (c.sp + disp)) else none
  | .xrstor =>
    if c.FullMask ∧ c.sp % 64 = 0 then
      (F.restore fun i => c.mem (c.sp + 8 * i)).map fun e => { c with ext := e }
    else none
  | .iretq => do
    let (ip, c) ← c.pop
    let (cs, c) ← c.pop
    let (flags, c) ← c.pop
    let (sp, c) ← c.pop
    let (ss, c) ← c.pop
    some { c with ip := ip, cs := cs, flags := flags, sp := sp, ss := ss }

def run (F : Format X) (prog : List Instr) (c : State X) : Option (State X) :=
  prog.foldlM (step F) c

variable {F : Format X} {c d : State X} {i : Instr} {p q : List Instr} {m m' : ℕ → ℕ}
  {a w : ℕ} {ws vs : List ℕ} {r : Reg}

@[simp] theorem run_nil : run F [] c = some c := rfl

theorem run_cons : run F (i :: p) c = (step F c i).bind (run F p) := rfl

theorem run_append : run F (p ++ q) c = (run F p c).bind (run F q) := List.foldlM_append

/-- An instruction that has a result. -/
theorem run_step (h : step F c i = some d) : run F (i :: p) c = run F p d := by
  rw [run_cons, h, Option.bind_some]

/-- The words from address `a` on. -/
def Holds (m : ℕ → ℕ) : ℕ → List ℕ → Prop
  | _, [] => True
  | a, w :: ws => m a = w ∧ Holds m (a + 8) ws

theorem Holds.congr (h : Holds m a ws) (hm : ∀ x, a ≤ x → x < a + 8 * ws.length → m' x = m x) :
    Holds m' a ws := by
  induction ws generalizing a with
  | nil => exact h
  | cons w ws ih =>
    rw [List.length_cons] at hm
    refine ⟨(hm a (Nat.le_refl a) (by omega)).trans h.1, ih h.2 ?_⟩
    intro x h₁ h₂
    exact hm x (by omega) (by omega)

theorem Holds.append (vs ws : List ℕ) (h : Holds m a (vs ++ ws)) :
    Holds m a vs ∧ Holds m (a + 8 * vs.length) ws := by
  induction vs generalizing a with
  | nil => exact ⟨trivial, h⟩
  | cons v vs ih =>
    obtain ⟨h₁, h₂⟩ := ih h.2
    refine ⟨⟨h.1, h₁⟩, ?_⟩
    rw [List.length_cons, Nat.mul_add, Nat.add_comm (8 * _), ← Nat.add_assoc]
    exact h₂

theorem State.pushedAll_sp : (c.pushedAll ws).sp = c.sp - 8 * ws.length := by
  induction ws generalizing c with
  | nil => rfl
  | cons w ws ih =>
    refine (ih (c := c.pushed w)).trans ?_
    rw [List.length_cons]
    exact (Nat.sub_sub ..).trans (congrArg _ (by omega))

/-- Only the words below `%rsp` are written. -/
theorem State.pushedAll_mem (ws : List ℕ) (ha : a < c.sp - 8 * ws.length ∨ c.sp ≤ a)
    (hroom : 8 * ws.length ≤ c.sp) : (c.pushedAll ws).mem a = c.mem a := by
  induction ws generalizing c with
  | nil => rfl
  | cons w ws ih =>
    rw [List.length_cons] at hroom ha
    have hrest := ih (c := c.pushed w) (by change a < c.sp - 8 - _ ∨ c.sp - 8 ≤ a; omega)
      (by change _ ≤ c.sp - 8; omega)
    exact hrest.trans (update_of_ne (by omega) _ _)

/-- Only the memory and `%rsp` change. -/
theorem State.pushedAll_eq :
    c.pushedAll ws = { c with sp := (c.pushedAll ws).sp, mem := (c.pushedAll ws).mem } := by
  induction ws generalizing c with
  | nil => rfl
  | cons w ws ih => exact ih (c := c.pushed w)

theorem State.pushedAll_ext : (c.pushedAll ws).ext = c.ext := by rw [pushedAll_eq]

theorem State.pushedAll_fsBase : (c.pushedAll ws).fsBase = c.fsBase := by rw [pushedAll_eq]

theorem State.pushedAll_holds (ws : List ℕ) (hroom : 8 * ws.length ≤ c.sp)
    (h : Holds c.mem c.sp vs) :
    Holds (c.pushedAll ws).mem (c.pushedAll ws).sp (ws.reverse ++ vs) := by
  induction ws generalizing c vs with
  | nil => exact h
  | cons w ws ih =>
    rw [List.length_cons] at hroom
    rw [List.reverse_cons, List.append_assoc]
    refine ih (c := c.pushed w) (by change _ ≤ c.sp - 8; omega) ⟨update_self .., ?_⟩
    change Holds (update c.mem (c.sp - 8) w) (c.sp - 8 + 8) vs
    rw [Nat.sub_add_cancel (by omega)]
    refine h.congr fun x hx _ => update_of_ne ?_ _ _
    omega

theorem run_push {rs : List Reg} (h8 : c.sp % 8 = 0) (hroom : 8 * rs.length ≤ c.sp) :
    run F (rs.map .push ++ p) c = run F p (c.pushedAll (rs.map c.gpr)) := by
  induction rs generalizing c with
  | nil => rfl
  | cons r rs ih =>
    rw [List.length_cons] at hroom
    have hpush : step F c (.push r) = some (c.pushed (c.gpr r)) := if_pos ⟨h8, by omega⟩
    refine (run_step hpush).trans (ih ?_ ?_)
    · change (c.sp - 8) % 8 = 0
      omega
    · change _ ≤ c.sp - 8
      omega

/-- The registers after the words have been popped into them. -/
def assign (gpr : Reg → ℕ) : List Reg → List ℕ → Reg → ℕ
  | r :: rs, w :: ws => assign (update gpr r w) rs ws
  | _, _ => gpr

theorem State.pop_eq (h8 : c.sp % 8 = 0) (h : c.mem c.sp = w) :
    c.pop = some (w, { c with sp := c.sp + 8 }) := by
  rw [State.pop, State.read, if_pos h8, h]
  rfl

theorem run_pop (rs : List Reg) (h8 : c.sp % 8 = 0) (h : Holds c.mem c.sp vs)
    (hlen : vs.length = rs.length) :
    run F (rs.map .pop ++ p) c =
      run F p { c with gpr := assign c.gpr rs vs, sp := c.sp + 8 * rs.length } := by
  induction rs generalizing c vs with
  | nil =>
    cases List.eq_nil_of_length_eq_zero hlen
    rfl
  | cons r rs ih =>
    cases vs with
    | nil => cases hlen
    | cons v vs =>
      have hpop : step F c (.pop r) =
          some { c with gpr := update c.gpr r v, sp := c.sp + 8 } := by
        change Option.map _ c.pop = _
        rw [State.pop_eq h8 h.1]
        rfl
      refine (run_step hpop).trans ((ih ?_ h.2 (Nat.succ.inj hlen)).trans ?_)
      · change (c.sp + 8) % 8 = 0
        omega
      · have hsp : c.sp + 8 + 8 * rs.length = c.sp + 8 * (r :: rs).length := by
          rw [List.length_cons]
          omega
        change run F p { c with gpr := _, sp := c.sp + 8 + 8 * rs.length } = _
        rw [hsp]
        rfl

theorem step_iretq {ip cs flags sp ss : ℕ} (h8 : c.sp % 8 = 0)
    (h : Holds c.mem c.sp [ip, cs, flags, sp, ss]) : step F c .iretq =
      some { c with ip := ip, cs := cs, flags := flags, sp := sp, ss := ss } := by
  obtain ⟨hip, hcs, hflags, hsp, hss, -⟩ := h
  have hpop : ∀ n v, c.mem (c.sp + 8 * n) = v →
      State.pop { c with sp := c.sp + 8 * n } = some (v, { c with sp := c.sp + 8 * (n + 1) }) := by
    intro n v hv
    exact State.pop_eq (by change (c.sp + 8 * n) % 8 = 0; omega) hv
  refine (congrArg (Option.bind · _) (hpop 0 ip hip)).trans ?_
  refine (congrArg (Option.bind · _) (hpop 1 cs hcs)).trans ?_
  refine (congrArg (Option.bind · _) (hpop 2 flags hflags)).trans ?_
  refine (congrArg (Option.bind · _) (hpop 3 sp hsp)).trans ?_
  exact congrArg (Option.bind · _) (hpop 4 ss hss)

/-- The state with the words pushed, other registers and other bases of `%gs`. -/
def State.at (c : State X) (ws : List ℕ) (gpr : Reg → ℕ) (gs kernelGs : ℕ) : State X :=
  { c.pushedAll ws with gpr := gpr, gsBase := gs, kernelGsBase := kernelGs }

section

variable {g : Reg → ℕ} {gs kgs n disp : ℕ} {rs : List Reg}

theorem State.pushedAll_at (d : State X) : State.pushedAll
    { d with gpr := g, gsBase := gs, kernelGsBase := kgs } ws =
      { d.pushedAll ws with gpr := g, gsBase := gs, kernelGsBase := kgs } := by
  induction ws generalizing d with
  | nil => rfl
  | cons w ws ih => exact ih (d.pushed w)

theorem run_push_at (rs : List Reg) (h8 : c.sp % 8 = 0)
    (hroom : 8 * (ws.length + rs.length) ≤ c.sp) :
    run F (rs.map .push ++ p) (c.at ws g gs kgs) =
      run F p (c.at (ws ++ rs.map g) g gs kgs) := by
  have hsp : (c.at ws g gs kgs).sp = c.sp - 8 * ws.length := State.pushedAll_sp
  rw [run_push (by omega) (by omega), State.at, State.pushedAll_at]
  have happend : (c.pushedAll ws).pushedAll (rs.map g) = c.pushedAll (ws ++ rs.map g) :=
    List.foldl_append.symm
  rw [happend]
  rfl

theorem run_rdgsbase_at : run F (.rdgsbase r :: p) (c.at ws g gs kgs) =
    run F p (c.at ws (update g r gs) gs kgs) := rfl

theorem run_rdfsbase_at : run F (.rdfsbase r :: p) (c.at ws g gs kgs) =
    run F p (c.at ws (update g r c.fsBase) gs kgs) := by
  have hfs : (c.pushedAll ws).fsBase = c.fsBase := State.pushedAll_fsBase
  rw [← hfs]
  rfl

theorem run_swapgs_at : run F (.swapgs :: p) (c.at ws g gs kgs) =
    run F p (c.at ws g kgs gs) := rfl

theorem run_movImm_at : run F (.movImm r n :: p) (c.at ws g gs kgs) =
    run F p (c.at ws (update g r n) gs kgs) := rfl

theorem run_loadGs_at (h8 : (gs + disp) % 8 = 0)
    (hout : gs + disp < c.sp - 8 * ws.length ∨ c.sp ≤ gs + disp) (hroom : 8 * ws.length ≤ c.sp) :
    run F (.loadGs r disp :: p) (c.at ws g gs kgs) =
      run F p (c.at ws (update g r (c.mem (gs + disp))) gs kgs) := by
  have hload : step F (c.at ws g gs kgs) (.loadGs r disp) =
      some (c.at ws (update g r (c.mem (gs + disp))) gs kgs) := by
    change Option.map _ (if (gs + disp) % 8 = 0 then _ else _) = _
    rw [if_pos h8, ← State.pushedAll_mem ws hout hroom]
    rfl
  exact run_step hload

end

end MyosIo.Cpu
