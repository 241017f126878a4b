import MyosIo.Mutex.Keeps

/-! What the routines do outside the words while every thread stays at its place. -/
namespace MyosIo.Mutex

open Function

variable {K T : Type*} [DecidableEq K] [DecidableEq T] {q q' : Queue T T} {loc : T → Loc K T}
  {s t : State K T} {a b n m w : T} {k : K} {l : Act K T} {c : Core T T} {o : Op T} {p : Pc K T}

/-- From here a thread moves none by what it does outside the words and `al_clear`. -/
def Pc.calm : Pc K T → Prop
  | .out | .ret | .lockFast _ | .lockSlow | .waitOwner _ | .waitTemp _ | .waitLink _ _ => True
  | _ => False

namespace Inv

theorem calm_stays (hI : Inv q loc s) (hs : Step s (a, l) t) (hp : (s.pc a).calm)
    (hl : ∀ e, l ≠ .words e) :
    Stays a (s.pc a) (s.core.op a).phase (t.pc a) (t.core.op a).phase := by
  have hfit := (hI.here a).fits
  cases hs with
  | lockFree | lockAgain | lockOther | fastBusy | trylockBusy | locked | ret | fail
  | unlockAgain | unlock | waitLoad | waitOwner | waitTemp | waitDeep | waitRelease | elsewhere
  | clearLock =>
    constructor
    all_goals try simp only [State.call, State.setPc, Core.setOp_op, update_self]
    all_goals grind -linarith [Pc.runs, Fits, Op.phase, Pc.linking, Pc.sleeps, Pc.parked, Pc.walks]
  | _ => simp_all [Pc.calm]

theorem calm_quiet (hI : Inv q loc s) (hs : Step s (a, l) t) (hp : (s.pc a).calm)
    (hl : ∀ e, l ≠ .words e) : Quiet q loc s a t := by
  have hstays := hI.calm_stays hs hp hl
  have hfit := (hI.here a).fits
  have hcases := hfit.cases
  have hkept := (hI.kept a).holds
  have happ := (hI.kept a).append
  have hself := hI.self a
  have hown (h) := hI.holder_of_owner (n := a) h
  unfold Holds at hkept
  cases hs with
  | lockFree | lockAgain | lockOther | fastBusy | trylockBusy | locked | ret | fail
  | unlockAgain | unlock | waitLoad | waitOwner | waitTemp | waitDeep | waitRelease | elsewhere
  | clearLock =>
    refine ⟨by constructor <;> simp +contextual [State.call, State.setPc], hstays, rfl, ?_, ?_, ?_,
      ?_, ?_, ?_, fun _ _ => rfl⟩
    all_goals clear hstays
    all_goals
      try simp only [State.call, State.setPc, Core.setOp_op, Core.setOp_mem,
        update_self, update_apply]
    all_goals grind -linarith [Pc.runs, Fits, Op.phase, Pc.deep, Pc.holds, Pc.sleeps]
  | _ => simp_all [Pc.calm]

omit [DecidableEq K] [DecidableEq T] in
/-- Where a thread stands that is outside the words. -/
theorem idle_view (hf : (s.core.op a).phase = .idle ∨ ∃ r, s.core.op a = .done r) :
    (s.core.op a).view = none ∧ (s.core.op a).owes = none := by
  rcases hf with h | ⟨r, h⟩
  · rw [phase_eq_idle.mp h]
    exact ⟨rfl, rfl⟩
  · rw [h]
    exact ⟨rfl, rfl⟩

theorem calm_core (hI : Inv q loc s) (hs : Step s (a, l) t) (hp : (s.pc a).calm)
    (hl : ∀ e, l ≠ .words e) : ∃ q', t.core.Inv q' ∧ q'.view = q.view ∧ q'.rest = q.rest := by
  have hfit := (hI.here a).fits
  have hself := (hI.self a).mpr
  have hidle (h : (s.core.op a).phase = .idle) := idle_view (s := s) (a := a) (.inl h)
  have hdone {r} (h : s.core.op a = .done r) := idle_view (s := s) (a := a) (.inr ⟨r, h⟩)
  have hout (h : (s.core.op a).phase = .idle) (hr : (s.pc a).runs) :=
    hI.outside_of_self (hself ⟨hr, by simp [h]⟩) (.inl h)
  cases hs with
  | lockFree hp ho =>
    rw [hp] at hfit hout
    exact ⟨q, hI.core.enterCall (hidle hfit) (hout hfit trivial) (.inl rfl), rfl, rfl⟩
  | lockOther hp ho hu =>
    rw [hp] at hfit hout
    exact ⟨q, hI.core.enterCall (hidle hfit) (hout hfit trivial) (.inr (.inl rfl)), rfl, rfl⟩
  | fastBusy hp ho =>
    have hbusy : (s.core.op a).phase = .busy := by rw [ho]; rfl
    have hn := hI.outside_of_self (hself ⟨by simp [hp, Pc.runs], by simp [hbusy]⟩) (.inr hbusy)
    exact ⟨q, hI.core.enterCall (hdone ho) hn (.inr (.inl rfl)), rfl, rfl⟩
  | trylockBusy hp ho | locked hp ho => exact ⟨q, hI.core.idle (hdone ho), rfl, rfl⟩
  | unlock hp ho hc =>
    rw [hp] at hfit
    obtain ⟨ha, -⟩ := hI.holder_of_owner ho hfit (by simp [hp, Pc.sleeps])
    exact ⟨_, hI.core.releaseCall (hidle hfit) ha ho, rfl, rfl⟩
  | waitRelease hp =>
    rw [hp] at hfit
    obtain ⟨hh, ho⟩ := (hI.kept a).holds (.inl (by simp [hp, Pc.holds]))
    have ha := hI.agent_of_holder hh hfit (by simp [hp, Pc.sleeps])
    exact ⟨_, hI.core.releaseCall (hidle hfit) ha ho, rfl, rfl⟩
  | waitTemp hp | elsewhere hp =>
    rw [hp] at hfit hout
    exact ⟨q, hI.core.write (hout hfit trivial) _, rfl, rfl⟩
  | lockAgain | ret | fail | unlockAgain | waitLoad | waitOwner | waitDeep | clearLock =>
    exact ⟨q, hI.core, rfl, rfl⟩
  | _ => simp_all [Pc.calm]

/-- A step of a thread that is not in the hands of another one, and moves none itself. -/
theorem calm (hI : Inv q loc s) (hs : Step s (a, l) t) (hp : (s.pc a).calm)
    (hl : ∀ e, l ≠ .words e) : ∃ q', Inv q' loc t ∧ q'.view = q.view ∧ q'.rest = q.rest := by
  have hq := hI.calm_quiet hs hp hl
  obtain ⟨q', hcore, hv, hr⟩ := hI.calm_core hs hp hl
  have hw : q'.waiting = q.waiting := by rw [Queue.waiting, hv, hr]; rfl
  refine ⟨q', ⟨?_, hcore, hI.kept_quiet hq (by rw [hv])⟩, hv, hr⟩
  have hlock (b) := (hI.here b).lock
  cases hs with
  | @clearLock _ k hp hl =>
    refine hI.stay hq.alone hw hq.stays (fun b i hb => ?_) ?_ ?_
    · simp only [State.setPc, update_apply] at hb ⊢
      grind -linarith [Pc.clears]
    · simp [State.setPc]
    · simp [State.setPc]
  | lockFree | lockAgain | lockOther | fastBusy | trylockBusy | locked | ret | fail
  | unlockAgain | unlock | waitLoad | waitOwner | waitTemp | waitDeep | waitRelease | elsewhere =>
    refine hI.turn hq.alone hw hq.stays (fun k => ?_) rfl
    try simp only [State.call, State.setPc, update_self]
    grind -linarith [Pc.clears, Pc.calm]
  | _ => simp_all [Pc.calm]

/-- The steps of `al_clear` before its exchange, and the one after it. -/
theorem clears (hI : Inv q loc s) (hs : Step s (a, l) t) (hp : (s.pc a).clears k)
    (he : s.pc a ≠ .clearExchange k) (hl : ∀ e, l ≠ .words e) : Inv q loc t := by
  have hh := hI.here a
  have hfit := hh.fits
  have hself := hh.lock
  have hne := hh.nonempty
  have hlock (b) := (hI.here b).lock
  have hq : Quiet q loc s a t := by
    cases hs with
    | clearEmpty | clearEnd | clearHead | clearUnlock =>
      refine ⟨by constructor <;> simp +contextual [State.setPc], ?_, rfl, ?_, ?_, ?_,
        ?_, ?_, ?_, fun _ _ => rfl⟩
      constructor
      all_goals try simp only [State.setPc, update_self]
      all_goals
        grind -linarith [Pc.runs, Fits, Pc.linking, Pc.sleeps, Pc.parked, Pc.walks, Pc.deep,
          Pc.holds]
    | _ => grind -linarith [Pc.clears]
  cases hs with
  | clearEmpty | clearEnd | clearHead | clearUnlock =>
    refine ⟨hI.stay hq.alone rfl hq.stays ?_ ?_ ?_, hI.core, hI.kept_quiet hq rfl⟩
    all_goals simp only [State.setPc, update_self, update_apply]
    · grind -linarith [Pc.clears]
    · grind -linarith
    · grind -linarith
  | _ => grind -linarith [Pc.clears]

omit [DecidableEq K] in
theorem tempMutex (hI : Inv q loc s) (hp : s.pc a = .temp n)
    (hm : s.core.mem (.temp0 n) = .mutex) :
    Inv q loc (s.call a (.move n) (.enter true n .loadEnd)) := by
  have hfit : (s.core.op a).phase = .idle := by simpa [hp, Fits] using (hI.here a).fits
  have hw : Waits s n := .inr (.inr ⟨a, hp⟩)
  have hdeep : (s.pc n).deep = false := by
    have := (hI.kept n).waits hw
    cases hd : (s.pc n).deep <;> simp_all
  have hq : Quiet q loc s a (s.call a (.move n) (.enter true n .loadEnd)) := by
    refine ⟨by constructor <;> simp +contextual [State.call, State.setPc], ?_, rfl, ?_, ?_, ?_,
      ?_, ?_, ?_, fun _ _ => rfl⟩
    constructor
    all_goals try simp only [State.call, State.setPc, Core.setOp_op, Core.setOp_mem, update_self]
    all_goals
      grind -linarith [Pc.runs, Fits, Op.phase, Pc.linking, Pc.sleeps, Pc.parked, Pc.walks, Pc.deep,
        Pc.holds]
  refine hI.quiet hq ?_ rfl rfl (by simp [State.call, State.setPc, Pc.clears]) rfl
  exact hI.core.enterCall (idle_view (.inl hfit)) (hI.outside_of_waits hw) (.inr (.inr rfl))

omit [DecidableEq K] in
/-- The scheduler uses the node of a ready thread. -/
theorem schedule (hI : Inv q loc s) (hp : s.pc a = .ready) (v : Option T) :
    Inv q loc { s with alNode := update s.alNode a v } := by
  have hr : loc a = .ready := (hI.ready a).mpr hp
  refine { hI with here := fun b => { hI.here b with }, kept := fun x => { hI.kept x with
    clean := fun h => ?_ } }
  have hxa : x ≠ a := by
    rintro rfl
    simp [hr] at h
  show update s.alNode a v x = none
  rw [update_of_ne hxa]
  exact (hI.kept x).clean h

end Inv
end MyosIo.Mutex
