import MyosIo.Mutex.Exclusion

/-! What a thread calls and what it is returned. The first look of a routine at `owner` and
`count` decides here by the routine; everything after it is a step of the threads and the mutex. -/
namespace MyosIo.Mutex

open Function

variable {K T : Type*}

/-- `trylock` tells `mtx_trylock` from `mtx_lock`. -/
inductive Call (K : Type*)
  | lock (trylock : Bool)
  | unlock
  | wait (k : K)
  | broadcast (k : K)

/-- `thrd_success`, `thrd_busy` and `thrd_error`. -/
inductive Code
  | success
  | busy
  | error
  deriving DecidableEq

/-- The words of the mutex and of its condition variables are the same. -/
structure State.Same (s t : State K T) : Prop where
  owner : t.core.owner = s.core.owner
  waiters : t.core.mem .waiters = s.core.mem .waiters
  waitEnd : t.core.waitEnd = s.core.waitEnd
  count : t.count = s.count
  cond : t.cond = s.cond
  condLock : t.condLock = s.condLock

/-- A call in progress: the state it was made in, and whether every step of it has kept the
words as they were. -/
structure Frame (K T : Type*) where
  call : Call K
  start : State K T
  kept : Prop

structure Calls (K T : Type*) where
  base : State K T
  frame : T → Option (Frame K T)

inductive Event (K : Type*)
  | call (r : Call K)
  | run
  | ret (r : Call K) (c : Code)

/-- What a routine returns that ends from here. -/
def Pc.code : Pc K T → Code
  | .lockFast _ => .busy
  | .waitOwner _ => .error
  | _ => .success

/-- The places of `cnd_wait`. -/
def Pc.ofWait : Pc K T → Prop
  | .asleep _ | .ready | .ret | .release => True
  | .waitOwner _ | .waitTemp _ | .waitAppend _ _ | .waitLink _ _ => True
  | _ => False

/-- The places of `cnd_broadcast`. -/
def Pc.ofBroadcast : Pc K T → Prop
  | .clearEnd _ | .clearHead _ | .clearExchange _ | .clearUnlock _ => True
  | .next | .temp _ | .move _ | .unreachable => True
  | _ => False

/-- The places of a routine. -/
def Call.fits (r : Call K) (p : Pc K T) : Prop :=
  p = .out ∨ match r with
    | .lock b => p = .ret ∨ p = .lockFast b ∨
      b = false ∧ (p = .lockSlow ∨ p = .asleep false ∨ p = .ready)
    | .unlock => p = .unlock
    | .wait _ => p.ofWait
    | .broadcast _ => p.ofBroadcast

def Calls.init (recursive : Bool) (mem : T → Word T) : Calls K T where
  base := .init recursive mem
  frame _ := none

variable [DecidableEq K] [DecidableEq T]

/-- A step of the call of a thread. -/
def Calls.run (s : Calls K T) (a : T) (t : State K T) : Calls K T where
  base := t
  frame := update s.frame a
    ((s.frame a).map fun f => { f with kept := f.kept ∧ s.base.Same t })

/-- Its last one. -/
def Calls.done (s : Calls K T) (a : T) (t : State K T) : Calls K T where
  base := t
  frame := update s.frame a none

omit [DecidableEq K] in
@[simp] theorem Calls.run_base (s : Calls K T) (a : T) (t : State K T) : (s.run a t).base = t := rfl

omit [DecidableEq K] in
@[simp] theorem Calls.done_base (s : Calls K T) (a : T) (t : State K T) :
    (s.done a t).base = t := rfl

inductive Calls.Step : Calls K T → T × Event K → Calls K T → Prop
  | call {s : Calls K T} {a : T} {r : Call K} (hp : s.base.pc a = .out)
      (hf : s.frame a = none) :
      Step s (a, .call r) { s with frame := update s.frame a (some ⟨r, s.base, True⟩) }
  -- mtx_lock, mtx_trylock
  | lockFree {s : Calls K T} {a : T} {f : Frame K T} {b : Bool} (hp : s.base.pc a = .out)
      (hf : s.frame a = some f) (hr : f.call = .lock b) (ho : s.base.core.owner = none) :
      Step s (a, .run) (s.run a (s.base.call a (.lockFast b) (.fastEnd a)))
  | lockError {s : Calls K T} {a : T} {f : Frame K T} {b : Bool} (hp : s.base.pc a = .out)
      (hf : s.frame a = some f) (hr : f.call = .lock b) (ho : s.base.core.owner = some a)
      (hc : s.base.count = 0 ∨ s.base.count = sizeMax) :
      Step s (a, .ret (.lock b) .error) (s.done a s.base)
  | lockAgain {s : Calls K T} {a : T} {f : Frame K T} {b : Bool} (hp : s.base.pc a = .out)
      (hf : s.frame a = some f) (hr : f.call = .lock b) (ho : s.base.core.owner = some a)
      (hc : ¬ (s.base.count = 0 ∨ s.base.count = sizeMax)) :
      Step s (a, .run) (s.run a { s.base.setPc a .ret with count := s.base.count + 1 })
  | lockOther {s : Calls K T} {a u : T} {f : Frame K T} (hp : s.base.pc a = .out)
      (hf : s.frame a = some f) (hr : f.call = .lock false) (ho : s.base.core.owner = some u)
      (hu : u ≠ a) : Step s (a, .run) (s.run a (s.base.call a .lockSlow (.enter false a .null)))
  | trylockOther {s : Calls K T} {a u : T} {f : Frame K T} (hp : s.base.pc a = .out)
      (hf : s.frame a = some f) (hr : f.call = .lock true) (ho : s.base.core.owner = some u)
      (hu : u ≠ a) : Step s (a, .ret (.lock true) .busy) (s.done a s.base)
  -- mtx_unlock
  | unlockError {s : Calls K T} {a : T} {f : Frame K T} (hp : s.base.pc a = .out)
      (hf : s.frame a = some f) (hr : f.call = .unlock) (ho : s.base.core.owner ≠ some a) :
      Step s (a, .ret .unlock .error) (s.done a s.base)
  | unlockAgain {s : Calls K T} {a : T} {f : Frame K T} (hp : s.base.pc a = .out)
      (hf : s.frame a = some f) (hr : f.call = .unlock) (ho : s.base.core.owner = some a)
      (hc : 1 < s.base.count) :
      Step s (a, .ret .unlock .success) (s.done a { s.base with count := s.base.count - 1 })
  | unlock {s : Calls K T} {a : T} {f : Frame K T} (hp : s.base.pc a = .out)
      (hf : s.frame a = some f) (hr : f.call = .unlock) (ho : s.base.core.owner = some a)
      (hc : ¬ 1 < s.base.count) :
      Step s (a, .run) (s.run a (s.base.call a .unlock (.release a .loadWaiters)))
  -- cnd_wait
  | waitNull {s : Calls K T} {a : T} {f : Frame K T} {k : K} (hp : s.base.pc a = .out)
      (hf : s.frame a = some f) (hr : f.call = .wait k) (ho : s.base.core.owner = none) :
      Step s (a, .ret (.wait k) .error) (s.done a s.base)
  | waitLoad {s : Calls K T} {a : T} {f : Frame K T} {k : K} (hp : s.base.pc a = .out)
      (hf : s.frame a = some f) (hr : f.call = .wait k) (ho : s.base.core.owner ≠ none) :
      Step s (a, .run) (s.run a (s.base.setPc a (.waitOwner k)))
  -- cnd_broadcast
  | clearLock {s : Calls K T} {a : T} {f : Frame K T} {k : K} (hp : s.base.pc a = .out)
      (hf : s.frame a = some f) (hr : f.call = .broadcast k) (hl : s.base.condLock k = none) :
      Step s (a, .run) (s.run a
        { s.base.setPc a (.clearEnd k) with condLock := update s.base.condLock k (some a) })
  -- after the first look
  | run {s : Calls K T} {a : T} {l : Act K T} {t : State K T} (hp : s.base.pc a ≠ .out)
      (hs : Mutex.Step s.base (a, l) t) (ht : t.pc a ≠ .out) : Step s (a, .run) (s.run a t)
  | ret {s : Calls K T} {a : T} {f : Frame K T} {l : Act K T} {t : State K T}
      (hp : s.base.pc a ≠ .out) (hf : s.frame a = some f) (hs : Mutex.Step s.base (a, l) t)
      (ht : t.pc a = .out) : Step s (a, .ret f.call (s.base.pc a).code) (s.done a t)
  -- a thread outside
  | elsewhere {s : Calls K T} {a : T} {v : Word T} (hp : s.base.pc a = .out)
      (hf : s.frame a = none) :
      Step s (a, .run) { s with base := { s.base with core := { s.base.core with
        mem := update s.base.core.mem (.temp0 a) v } } }

/-- A step of the calls is one of the threads and the mutex. -/
theorem Calls.Step.base {s t : Calls K T} {a : T} {e : Event K} (hs : Calls.Step s (a, e) t) :
    (∃ r, e = .call r ∧ t.base = s.base) ∨ ∃ l, Mutex.Step s.base (a, l) t.base := by
  cases hs with
  | call => exact .inl ⟨_, rfl, rfl⟩
  | lockFree hp hf hr ho => exact .inr ⟨_, .lockFree hp ho⟩
  | lockError hp hf hr ho hc => exact .inr ⟨_, .fail hp (.inr hc)⟩
  | lockAgain hp hf hr ho hc => exact .inr ⟨_, .lockAgain hp ho (not_or.mp hc)⟩
  | lockOther hp hf hr ho hu => exact .inr ⟨_, .lockOther hp ho hu⟩
  | trylockOther hp hf hr ho hu => exact .inr ⟨_, .fail hp (.inl (by simp [ho, hu]))⟩
  | unlockError hp hf hr ho => exact .inr ⟨_, .fail hp (.inl ho)⟩
  | unlockAgain hp hf hr ho hc => exact .inr ⟨_, .unlockAgain hp ho hc⟩
  | unlock hp hf hr ho hc => exact .inr ⟨_, .unlock hp ho (Nat.le_of_not_lt hc)⟩
  | waitNull hp hf hr ho => exact .inr ⟨_, .fail hp (.inl (by simp [ho]))⟩
  | waitLoad hp hf hr ho => exact .inr ⟨_, .waitLoad hp ho⟩
  | clearLock hp hf hr hl => exact .inr ⟨_, .clearLock hp hl⟩
  | run hp hs ht => exact .inr ⟨_, hs⟩
  | ret hp hf hs ht => exact .inr ⟨_, hs⟩
  | elsewhere hp hf => exact .inr ⟨_, .elsewhere hp⟩

variable {q q' : Queue T T} {loc loc' : T → Loc K T} {s t : State K T} {a x : T} {l : Act K T}

theorem has_step (hI : Inv q loc s) (hI' : Inv q' loc' t) (hs : Step s (a, l) t)
    (hf : Fair q.fair l.ev q'.fair) :
    Has q' t x ↔ l = .words (.own x) ∨ Has q s x ∧ ¬ (l = .release ∧ x = a) := by
  rw [← hold_step hI hI' hs hf (H := Has q s) fun _ => Iff.rfl]
  cases l with
  | words e => cases e <;> simp [hold, eq_comm]
  | release => simp [hold, and_comm]
  | success =>
    cases hs with
    | ret hp =>
      have hfit : (s.core.op a).phase = .idle := by simpa [hp, Fits] using (hI.here a).fits
      have ha : Has q s a := ⟨((hI.kept a).holds (.inl (by simp [hp, Pc.holds]))).1, by simp [hfit]⟩
      simp only [hold]
      constructor
      · rintro (rfl | h)
        · simp [ha]
        · simp [h]
      · intro h
        right
        simpa using h
  | _ => simp [hold]

theorem has_silent (hI : Inv q loc s) (hI' : Inv q' loc' t) (hs : Step s (a, .silent) t)
    (hf : Fair q.fair .silent q'.fair) : Has q' t x ↔ Has q s x := by
  simpa using has_step (x := x) hI hI' hs hf

namespace Inv

omit [DecidableEq K] [DecidableEq T] in
/-- A thread that reads `owner` has the mutex exactly if it reads itself. -/
theorem has_iff_owner (hI : Inv q loc s) (hp : (s.pc x).readsOwner) :
    Has q s x ↔ s.core.owner = some x := by
  have hidle : (s.core.op x).phase = .idle := by
    have hfit := (hI.here x).fits
    cases hpc : s.pc x <;> simp_all [Pc.readsOwner, Fits]
  have hsleep : ¬ (s.pc x).sleeps := by
    cases hpc : s.pc x <;> simp_all [Pc.readsOwner, Pc.sleeps]
  constructor
  · rintro ⟨hh, -⟩
    have hq := hI.core.quiet (hI.agent_of_holder hh hidle hsleep)
    rw [hq] at hh
    exact hh
  · intro ho
    exact ⟨(hI.holder_of_owner ho hidle hsleep).2, by simp [hidle]⟩

omit [DecidableEq K] [DecidableEq T] in
/-- A thread does not unlock for itself. -/
theorem handed_ne {w : T} (hI : Inv q loc s) (hp : s.pc x = .unlock)
    (h : (s.core.op x).phase = .handed w) : w ≠ x ∧ q.view.holder = some w := by
  have hloc : loc w = .given x := (hI.given w x).mpr h
  refine ⟨fun hw => ?_, ((hI.kept w).holds (.inr (.inr (.inl ⟨x, hloc⟩)))).1⟩
  subst hw
  have := (hI.self w).mpr ⟨by simp [hp, Pc.runs], by simp [h]⟩
  simp [this] at hloc

omit [DecidableEq K] [DecidableEq T] in
/-- It is not the holder any more. -/
theorem not_has_of_unlock (hI : Inv q loc s) (hp : s.pc x = .unlock) : ¬ Has q s x := by
  rintro ⟨hh, hr⟩
  have hfit := (hI.here x).fits
  rw [hp] at hfit
  rcases hfit with h | ⟨w, h⟩ | ⟨w, h⟩
  · exact hr h
  · simp [(hI.core.handing h).2] at hh
  · obtain ⟨hne, hw⟩ := hI.handed_ne hp h
    exact hne (Option.some.inj (hw.symm.trans hh))

omit [DecidableEq K] in
/-- Where a thread is that is made the owner. -/
theorem own_place (hI : Inv q loc s) (hs : s.core.Step (a, .own x) t.core) :
    (∀ y, ¬ Has q s y) ∧ (s.pc x = .asleep false ∨ x = a ∧ (s.pc a = .release ∨ s.pc a = .lockSlow ∨
      ∃ b, s.pc a = .lockFast b)) := by
  obtain ⟨ha, hh, hfr, -⟩ := hI.core.own_front hs
  refine ⟨fun y hy => by simpa [hh] using hy.1, ?_⟩
  have hg (y b) (hy : loc y = .given b) : q.view.holder = some y :=
    ((hI.kept y).holds (.inr (.inr (.inl ⟨b, hy⟩)))).1
  by_cases hx : x = a
  · subst hx
    refine .inr ⟨rfl, ?_⟩
    have hloc : loc x = .queue := (hI.queue x).mpr (by simp [Queue.waiting, hfr])
    have hfit := (hI.here x).fits.cases
    rcases hs.phase.2 with ⟨⟨v, hp⟩, -⟩ | ⟨⟨h, hp⟩, -⟩ <;> rw [hp] at hfit
    · rcases hfit with ⟨-, -, hpc⟩ | ⟨rfl, hpc⟩
      · exact .inr hpc
      · have := (hI.here x).behalf x hp
        simp [hpc, Pc.parked] at this
    · refine .inl (hfit.2.resolve_left fun hpc => ?_)
      have := (hI.self x).mpr ⟨by simp [hpc, Pc.runs], by simp [hp]⟩
      simp [this] at hloc
  · left
    have hsl := hI.sleeps_of_own hI.core hs hg hx
    cases hpc : s.pc x with
    | asleep d =>
      cases d with
      | false => rfl
      | true =>
        have := ((hI.kept x).holds (.inl (by simp [hpc, Pc.holds]))).1
        simp [hh] at this
    | _ => simp [hpc, Pc.sleeps] at hsl

end Inv

/-- `mtx_trylock`, and the first try of `mtx_lock`, has not got the mutex. -/
def Phase.quick : Phase T → Prop
  | .fast _ | .busy => True
  | _ => False

/-- What a step of a thread inside a routine can do. -/
structure Inside (s : State K T) (a : T) (l : Act K T) (t : State K T) : Prop where
  count : t.count = s.count
  release : l = .release → (∃ k, s.pc a = .waitLink k false) ∧ t.pc a = .release
  reads : ∀ k, t.pc a ≠ .waitOwner k
  owner : ∀ k, s.pc a = .waitOwner k → t.pc a ≠ .out → s.core.owner = some a
  append : ∀ k b, t.pc a = .waitAppend k b → b = decide (1 < s.count)
  link : ∀ k b, t.pc a = .waitLink k b → s.pc a = .waitAppend k b
  quick : (t.core.op a).phase.quick → (s.core.op a).phase.quick ∧ s.Same t
  fast : ∀ b, t.pc a = .lockFast b → s.pc a = .lockFast b
  locks : t.pc a = .lockSlow ∨ (∃ b, t.pc a = .lockFast b) →
    (t.core.op a).phase ≠ .owned a → (s.core.op a).phase ≠ .owned a ∧
      l ≠ .words (.own a) ∧ (s.pc a = .lockSlow ∨ ∃ b, s.pc a = .lockFast b)

/-- It stays among the places of its routine. -/
theorem Inv.fits {r : Call K} (hI : Inv q loc s) (hs : Step s (a, l) t) (hp : s.pc a ≠ .out)
    (hr : r.fits (s.pc a)) : r.fits (t.pc a) := by
  have hr := hr.resolve_left hp
  cases hs with
  | words => exact .inr hr
  | locked hp' =>
    rcases hp' with hp' | ⟨b, hp'⟩ <;> rw [hp'] at hr <;> cases r <;>
      simp_all [State.call, State.setPc, Call.fits, Pc.ofWait, Pc.ofBroadcast]
  | waitOwner hp' =>
    rw [hp'] at hr
    by_cases ho : s.core.owner = some a <;> cases r <;>
      simp_all [State.setPc, Call.fits, Pc.ofWait, Pc.ofBroadcast]
  | wake hp' ho =>
    have hne := (hI.handed_ne hp' (by rw [ho]; rfl)).1
    exact .inl (by simp [State.call, State.setPc, hne.symm])
  | @switchTo _ w hp' ho =>
    rw [hp'] at hr
    by_cases hw : a = w <;> cases r <;>
      simp_all [State.call, State.setPc, Call.fits, Pc.ofWait, Pc.ofBroadcast]
  | _ =>
    cases r
    all_goals simp_all [State.call, State.setPc, State.listAdd, Call.fits, Pc.ofWait,
      Pc.ofBroadcast]

theorem Core.Step.quick {s t : Core T T} {e : Ev T} (hs : Core.Step s (a, e) t)
    (hp : (t.op a).phase.quick) :
    (s.op a).phase.quick ∧ t.owner = s.owner ∧ t.mem .waiters = s.mem .waiters ∧
      t.waitEnd = s.waitEnd := by
  cases hs with
  | fastEnd ho | fastFail ho => simp [ho, Op.phase, Phase.quick]
  | _ =>
    simp only [Core.setOp_op, update_self, Enter.afterCas] at hp
    grind -linarith [Op.phase, Phase.quick]

theorem Core.Step.stays_owned {s t : Core T T} {e : Ev T} {n : T} (hs : Core.Step s (a, e) t)
    (hp : (s.op a).phase = .owned n) : (t.op a).phase = .owned n := by
  cases hs <;> simp_all [Op.phase]

theorem Inv.inside (hI : Inv q loc s) (hs : Step s (a, l) t) (hp : s.pc a ≠ .out) :
    Inside s a l t := by
  have hfit := (hI.here a).fits
  cases hs with
  | words hs hq hf =>
    have hworks := hs.works
    constructor
    case quick =>
      intro h
      obtain ⟨hp, ho, hw, he⟩ := hs.quick h
      exact ⟨hp, ⟨ho, hw, he, rfl, rfl, rfl⟩⟩
    case locks =>
      refine fun h h' => ⟨mt hs.stays_owned h', fun he => ?_, h⟩
      obtain rfl := Act.words.inj he
      grind -linarith [Phase.Next, Fits, hs.phase.2]
    all_goals grind -linarith [Fits]
  | queued _ hs | freeUnlock _ hs | freeWait _ hs | moveQueued _ hs =>
    have hnext := hs.phase.2
    constructor
    all_goals try simp only [State.setPc, update_self]
    all_goals grind -linarith [Phase.Next, Phase.quick]
  | _ =>
    constructor
    all_goals try simp only [State.call, State.setPc, State.listAdd, Core.setOp_op, update_self]
    all_goals grind -linarith [Op.phase, Fits, Phase.quick]

/-- Where a routine ends. -/
theorem Step.leaves (hs : Step s (a, l) t) (hp : s.pc a ≠ .out)
    (ht : t.pc a = .out) :
    (∀ x, l ≠ .words (.own x)) ∧ l ≠ .release ∧
      (s.pc a = .ret ∨ s.pc a = .unlock ∨ (∃ k, s.pc a = .clearEnd k) ∨ s.pc a = .next ∨
        (s.pc a = .lockFast true ∧ (s.core.op a).phase = .busy ∧ s.Same t) ∨
        ∃ k, s.pc a = .waitOwner k ∧ s.core.owner ≠ some a ∧ s.Same t) := by
  cases hs with
  | words => exact absurd ht hp
  | freeUnlock hp' | wake hp' | ret hp' | clearEmpty hp' | publish hp' =>
    exact ⟨nofun, nofun, by simp [hp']⟩
  | trylockBusy hp' ho =>
    have hsame : s.Same (s.call a .out .idle) := ⟨rfl, rfl, rfl, rfl, rfl, rfl⟩
    exact ⟨nofun, nofun, by simp [hp', ho, Op.phase, hsame]⟩
  | @waitOwner _ k hp' =>
    refine ⟨nofun, nofun, ?_⟩
    have ho : s.core.owner ≠ some a := fun h => by simp [State.setPc, h] at ht
    have hsame : s.Same (s.setPc a .out) := ⟨rfl, rfl, rfl, rfl, rfl, rfl⟩
    simp [hp', ho, hsame]
  | switchTo _ ho =>
    simp only [State.call, State.setPc, update_apply] at ht
    split at ht <;> simp_all
  | _ => simp_all [State.call, State.setPc, State.listAdd]

end MyosIo.Mutex
