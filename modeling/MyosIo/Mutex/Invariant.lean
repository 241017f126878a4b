import MyosIo.Mutex.Moves

/-! The invariant of the words and the places holds along every run. -/
namespace MyosIo.Mutex

open Function

variable {K T : Type*} [DecidableEq K] [DecidableEq T] {q q' : Queue T T} {loc : T → Loc K T}
  {s t : State K T} {a b n m w : T} {k : K} {l : Act K T} {c : Core T T} {e : Ev T}

/-- What a step is for the mutex. -/
def Act.ev : Act K T → Ev T
  | .words e => e
  | _ => .silent

theorem Core.Step.op_of_ne {s t : Core T T} (hs : s.Step (a, e) t) (hb : b ≠ a) :
    t.op b = s.op b := by
  rw [hs.phase.1, update_of_ne hb]

/-- A step is of one thread only, as far as the words go. -/
theorem Step.op_of_ne (hs : Step s (a, l) t) (hb : b ≠ a) : t.core.op b = s.core.op b := by
  cases hs with
  | words hs | queued _ hs | freeUnlock _ hs | freeWait _ hs | moveQueued _ hs =>
    exact hs.op_of_ne hb
  | _ => simp [State.call, State.setPc, State.listAdd, hb]

namespace Inv

/-- Another thread only wakes one that sleeps. -/
theorem pc_of_ne (hI : Inv q loc s) (hs : Step s (a, l) t) (hb : b ≠ a) :
    t.pc b = s.pc b ∨ (s.pc b).sleeps ∧ (t.pc b = .ready ∨ t.pc b = .ret) := by
  have hgiven {w} (hw : s.core.op a = .done (.handed w)) (hbw : b = w) : (s.pc b).sleeps := by
    subst hbw
    have hloc : loc b = .given a := (hI.given b a).mpr (by rw [hw]; rfl)
    exact ((hI.here a).given b hloc).resolve_right hb
  cases hs with
  | publish =>
    by_cases hm : b ∈ s.batch a
    · exact .inr ⟨(hI.here a).sleeps b ((hI.batch b a).mpr (.inl hm)), by simp [hb, hm]⟩
    · exact .inl (by simp [hb, hm])
  | @wake _ w _ hw =>
    by_cases hbw : b = w
    · exact .inr ⟨hgiven hw hbw, by simp [State.call, State.setPc, hbw]⟩
    · exact .inl (by simp [State.call, State.setPc, hb, hbw])
  | @switchTo _ w _ hw =>
    by_cases hbw : b = w
    · exact .inr ⟨hgiven hw hbw, by simp [State.call, State.setPc, hbw]⟩
    · exact .inl (by simp [State.call, State.setPc, hb, hbw])
  | _ => exact .inl (by simp [State.call, State.setPc, State.listAdd, hb])

omit [DecidableEq K] in
/-- An access that is not the last one of its part. -/
theorem words (hI : Inv q loc s) (hs : s.core.Step (a, e) c) (hq : ∀ n, e ≠ .queued n)
    (hf : ∀ h, e ≠ .free h) :
    ∃ q' loc', Inv q' loc' { s with core := c } ∧ Fair q.fair e q'.fair := by
  obtain ⟨q', hC, hfair⟩ := hI.core.step hs
  have hcases := hfair.cases
  have hkept {loc'} (hT : Tidy q' loc' { s with core := c }) (x : T) :
      Kept q' loc' { s with core := c } x :=
    hI.kept_access (t := { s with core := c }) hs ⟨fun _ _ => rfl, .inl rfl, rfl, rfl, rfl⟩ hfair hT
      (fun _ => .inl rfl)
      (fun x hx => absurd hx (hq x)) x
  have hquiet (he : e = .silent ∨ ∃ h w, e = .hand h w) (hw : q'.waiting = q.waiting) :
      ∃ q' loc', Inv q' loc' { s with core := c } ∧ Fair q.fair e q'.fair := by
    have hT := hI.access hs (hC.here a).reachable he hw
    exact ⟨q', loc, ⟨hT, hC, hkept hT⟩, hfair⟩
  cases e with
  | enter n =>
    have hT := hI.enter hI.core hs hcases.2
    exact ⟨q', _, ⟨hT, hC, hkept hT⟩, hfair⟩
  | own n =>
    obtain ⟨l, hT⟩ := hI.own hI.core hs hfair fun x b hx =>
      ((hI.kept x).holds (.inr (.inr (.inl ⟨b, hx⟩)))).1
    exact ⟨q', _, ⟨hT, hC, hkept hT⟩, hfair⟩
  | hand h w => exact hquiet (.inr ⟨h, w, rfl⟩) hcases.2.2.1
  | silent => exact hquiet (.inl rfl) (congrArg Prod.snd hcases)
  | free h => exact absurd rfl (hf h)
  | queued n => exact absurd rfl (hq n)

omit [DecidableEq K] in
/-- The last access of a part: the thread goes on in its routine. -/
theorem last (hI : Inv q loc s) (hs : s.core.Step (a, e) t.core) (ht : Alone a s t)
    (hp : t.pc a = leave (s.pc a)) (he : (∃ n, e = .queued n) ∨ ∃ h, e = .free h)
    (hpc : s.pc a = .lockSlow ∨ s.pc a = .unlock ∨ s.pc a = .release ∨ ∃ n, s.pc a = .move n)
    (hlock : t.condLock = s.condLock)
    (hal : ∀ x, t.alNode x = s.alNode x ∨ t.alNode x = none)
    (hq : ∀ x, e = .queued x → (s.core.op a).phase = .inside true x → t.alNode x = none) :
    ∃ q' loc', Inv q' loc' t ∧ Fair q.fair e q'.fair := by
  obtain ⟨q', hC, hfair⟩ := hI.core.step hs
  have hcases := hfair.cases
  have hw : q'.waiting = q.waiting := by
    rcases he with ⟨n, rfl⟩ | ⟨h, rfl⟩
    · exact congrArg Prod.snd hcases
    · exact hcases.2.2.2.trans hcases.2.1.symm
  obtain ⟨-, hnext⟩ := hs.phase
  have hfit := (hI.here a).fits.cases
  have hidle : (t.core.op a).phase = .idle ∧ ((∃ v n, (s.core.op a).phase = .inside v n) ∨
      ∃ h, (s.core.op a).phase = .releasing h) := by
    rcases he with ⟨n, rfl⟩ | ⟨h, rfl⟩
    · obtain ⟨⟨v, hv⟩, hi⟩ := hnext
      exact ⟨hi, .inl ⟨v, n, hv⟩⟩
    · exact ⟨hnext.2, .inr ⟨h, hnext.1⟩⟩
  have hT : Tidy q' loc t := by
    refine hI.turn ht hw ?_ (fun k hk => ?_) hlock
    · rw [hp, hidle.1]
      constructor
      all_goals grind -linarith [leave, Pc.runs, Fits, Pc.linking, Pc.sleeps, Pc.parked, Pc.walks]
    · rw [hp] at hk
      grind -linarith [leave, Pc.clears]
  exact ⟨q', loc, ⟨hT, hC, hI.kept_access hs ⟨ht.pc, .inr ⟨he, hp⟩, ht.cond, ht.chain, ht.batch⟩
    hfair hT hal hq⟩, hfair⟩

theorem step (hI : Inv q loc s) (hs : Step s (a, l) t) :
    ∃ q' loc', Inv q' loc' t ∧ Fair q.fair l.ev q'.fair := by
  have hcalm (hp : (s.pc a).calm) (hl : ∀ e, l ≠ .words e) (he : l.ev = .silent) :
      ∃ q' loc', Inv q' loc' t ∧ Fair q.fair l.ev q'.fair := by
    obtain ⟨q', hI', hv, hr⟩ := hI.calm hs hp hl
    refine ⟨q', loc, hI', ?_⟩
    have : q'.fair = q.fair := by simp only [Queue.fair, Queue.waiting, hv, hr]
    rw [this, he]
    exact .silent
  have hfit := (hI.here a).fits
  cases hs with
  | words hs hq hf => exact hI.words hs hq hf
  | @queued _ n c hp hs =>
    refine hI.last (t := { s.setPc a (.asleep false) with core := c }) hs
      ⟨fun b hb => update_of_ne hb .., fun b => hs.op_of_ne, rfl, rfl, rfl⟩
      (by simp [State.setPc, hp, leave]) (.inl ⟨n, rfl⟩) (.inl hp) rfl (fun _ => .inl rfl)
      fun x _ hi => ?_
    simp [hp, hi, Fits] at hfit
  | @freeUnlock _ h c hp hs =>
    exact hI.last (t := { s.setPc a .out with core := c }) hs
      ⟨fun b hb => update_of_ne hb .., fun b => hs.op_of_ne, rfl, rfl, rfl⟩
      (by simp [State.setPc, hp, leave]) (.inr ⟨h, rfl⟩) (.inr (.inl hp)) rfl (fun _ => .inl rfl)
      fun x he => by cases he
  | @freeWait _ h c hp hs =>
    exact hI.last (t := { s.setPc a (.asleep false) with core := c }) hs
      ⟨fun b hb => update_of_ne hb .., fun b => hs.op_of_ne, rfl, rfl, rfl⟩
      (by simp [State.setPc, hp, leave]) (.inr ⟨h, rfl⟩) (.inr (.inr (.inl hp))) rfl
      (fun _ => .inl rfl) fun x he => by cases he
  | @moveQueued _ n m c hp hs =>
    obtain ⟨q', loc', hI', hf⟩ := hI.last
      (t := { s.setPc a .next with core := c, alNode := update s.alNode n none }) hs
      ⟨fun b hb => update_of_ne hb .., fun b => hs.op_of_ne, rfl, rfl, rfl⟩
      (by simp [State.setPc, hp, leave]) (.inl ⟨m, rfl⟩) (.inr (.inr (.inr ⟨n, hp⟩))) rfl
      (fun x => by by_cases hx : x = n <;> simp [hx]) fun x _ hi => by
        obtain rfl : x = n := by simpa [hp, hi, Fits] using hfit
        simp
    refine ⟨q', loc', hI', ?_⟩
    rw [hf.cases]
    exact .silent
  | waitAppend hp => exact ⟨q, _, hI.append hp, .silent⟩
  | clearExchange hp => exact ⟨q, _, hI.clear hp, .silent⟩
  | next hp hc hl => exact ⟨q, _, hI.next hp hc hl, .silent⟩
  | tempNull hp hm => exact ⟨q, _, hI.untouched hp hm, .silent⟩
  | tempMutex hp hm => exact ⟨q, _, hI.tempMutex hp hm, .silent⟩
  | @tempNode _ n m hp hm =>
    have := (hI.kept n).waits (.inr (.inr ⟨a, hp⟩))
    cases hd : (s.pc n).deep <;> simp [hm, hd] at this
  | moveOwner hp ho => exact ⟨q, _, hI.owner hp ho, .silent⟩
  | publish hp hc => exact ⟨q, _, hI.publish hp hc, .silent⟩
  | wake hp ho => exact ⟨q, _, hI.wake hp ho, .silent⟩
  | switchTo hp ho => exact ⟨q, _, hI.switchTo hp ho, .silent⟩
  | schedule hp => exact ⟨q, _, hI.schedule hp _, .silent⟩
  | dispatch hp => exact ⟨q, _, hI.dispatch hp, .silent⟩
  | clearEmpty hp hc =>
    exact ⟨q, loc, hI.clears (.clearEmpty hp hc) (by rw [hp]; rfl) (by simp [hp]) (by simp),
      .silent⟩
  | clearEnd hp hc =>
    exact ⟨q, loc, hI.clears (.clearEnd hp hc) (by rw [hp]; rfl) (by simp [hp]) (by simp), .silent⟩
  | clearHead hp hc =>
    exact ⟨q, loc, hI.clears (.clearHead hp hc) (by rw [hp]; rfl) (by simp [hp]) (by simp), .silent⟩
  | clearUnlock hp =>
    exact ⟨q, loc, hI.clears (.clearUnlock hp) (by rw [hp]; rfl) (by simp [hp]) (by simp), .silent⟩
  | locked hp =>
    refine hcalm ?_ (by simp) rfl
    rcases hp with hp | ⟨b, hp⟩ <;> simp [hp, Pc.calm]
  | _ => exact hcalm (by simp [*, Pc.calm]) (by simp) rfl

omit [DecidableEq K] [DecidableEq T] in
/-- The invariant holds after `mtx_init` and `cnd_init`. -/
theorem init (recursive : Bool) (mem : T → Word T) :
    Inv ⟨.quiet none, none, [], fun _ => none⟩ (fun _ => .self)
      (State.init recursive mem : State K T) where
  self x := by simp [State.init, Core.init, Pc.runs, Op.phase]
  ready x := by simp [State.init]
  cond x k := by simp [State.init]
  chain x b := by simp [State.init]
  hand x b := by simp [State.init, Core.init, Op.phase]
  queue x := by simp [Queue.waiting]
  batch x b := by simp [State.init]
  given x a := by simp [State.init, Core.init, Op.phase]
  condNodup k := by simp [State.init]
  here a := by
    constructor
    all_goals simp [State.init, Core.init, Fits, Op.phase, Pc.linking, Pc.clears]
  core := {
    chain := ⟨rfl, rfl⟩
    nodup := by simp [Links.cells]
    front := by simp
    free := by simp [State.init, Core.init]
    waitEnd := by simp [View.free]
    quiet := by simp [State.init, Core.init]
    inside := by simp
    apart := by simp [State.init, Core.init, Op.node]
    here := fun a => by
      constructor
      all_goals simp [State.init, Core.init, Op.view, Stage, Op.owes, Op.node, Op.nulled] }
  kept x := by
    constructor
    all_goals simp [State.init, Core.init, Waits, Holds, Pc.deep, Pc.holds, Op.phase]

end Inv
end MyosIo.Mutex
