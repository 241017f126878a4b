import MyosIo.Mutex.Invariant

/-! Who holds the mutex is read off the history of a run, and compared with `owner`. -/
namespace MyosIo.Mutex

open Function

variable {K T : Type*}

/-- A thread holds the mutex from when it is made the owner, or `mtx_lock`, `mtx_trylock` or
`cnd_wait` returns `thrd_success` to it, until it starts the release that is not recursive. -/
def hold (H : T → Prop) : T × Act K T → T → Prop
  | (_, .words (.own n)), x => x = n ∨ H x
  | (a, .success), x => x = a ∨ H x
  | (a, .release), x => x ≠ a ∧ H x
  | _, x => H x

def Holding (xs : List (T × Act K T)) : T → Prop := replay hold (fun _ => False) xs

/-- The next step of the thread reads `owner`. -/
def Pc.readsOwner : Pc K T → Prop
  | .out | .waitOwner _ => True
  | _ => False

variable [DecidableEq K] [DecidableEq T] {q q' : Queue T T} {loc loc' : T → Loc K T}
  {s t : State K T} {a b n x : T} {k : K} {l : Act K T} {c : Core T T} {e : Ev T}

/-- The call starts a release, and its own accesses carry it on and end it. -/
theorem releasing_step (hI : Inv q loc s) (hs : Step s (a, l) t) (hw : ∀ e, l ≠ .words e)
    (hr : l ≠ .release) :
    (t.core.op x).phase = .releasing x ↔ (s.core.op x).phase = .releasing x := by
  have hfit := (hI.here a).fits
  cases hs with
  | words | queued | freeUnlock | freeWait => exact absurd rfl (hw _)
  | unlock | waitRelease => exact absurd rfl hr
  | @moveQueued _ n m c hp hs =>
    by_cases hx : x = a
    · subst hx
      obtain ⟨-, ⟨v, hv⟩, hi⟩ := hs.phase
      simp [hv, hi]
    · simp only [hs.op_of_ne hx]
  | lockFree | lockOther | fastBusy | trylockBusy | locked | wake | switchTo | tempMutex
  | moveOwner =>
    simp only [State.call, State.setPc, State.listAdd, Core.setOp_op, update_apply,
      apply_ite Op.phase]
    grind -linarith [Fits, Op.phase]
  | _ => exact Iff.rfl

/-- Who has the mutex in the queue and has not begun to release it. -/
def Has (q : Queue T T) (s : State K T) (x : T) : Prop :=
  q.view.holder = some x ∧ (s.core.op x).phase ≠ .releasing x

omit [DecidableEq K] in
theorem hold_words (hI : Inv q loc s) (hC : t.core.Inv q') (hs : s.core.Step (a, e) t.core)
    (hf : Fair q.fair e q'.fair) {H : T → Prop} (hH : ∀ x, H x ↔ Has q s x) :
    hold H (a, (.words e : Act K T)) x ↔ Has q' t x := by
  have hcases := hf.cases
  have hfit := (hI.here a).fits.cases
  obtain ⟨hop, hnext⟩ := hs.phase
  have hother (hx : x ≠ a) : (t.core.op x).phase = (s.core.op x).phase := by rw [hs.op_of_ne hx]
  have hsame (hh : q'.view.holder = q.view.holder)
      (hp : (t.core.op a).phase = .releasing a ↔ (s.core.op a).phase = .releasing a) :
      H x ↔ Has q' t x := by
    rw [hH, Has, Has, hh]
    by_cases hx : x = a
    · rw [hx, Ne, Ne, hp]
    · rw [hother hx]
  have hends {h} (hh : q.view.holder = some h) (hp : (s.core.op a).phase = .releasing h)
      (hh' : q'.view.holder = none) : H x ↔ Has q' t x := by
    rw [hH, Has, Has, hh, hh']
    rw [hp] at hfit
    obtain ⟨rfl, -⟩ := hfit
    constructor
    · rintro ⟨hx, hne⟩
      obtain rfl := Option.some.inj hx
      exact absurd hp hne
    · simp
  cases e with
  | own n =>
    obtain ⟨ha, hh, -, -⟩ := hI.core.own_front hs
    have hn : (t.core.op n).phase ≠ .releasing n := by
      by_cases hna : n = a
      · subst hna
        rcases hnext with ⟨-, hp⟩ | ⟨-, hp⟩ <;> simp [hp]
      · rw [hs.op_of_ne hna]
        intro hp
        have := hI.core.releasing hp
        simp [hh] at this
    have hq' : q'.view.holder = some n := hcases.2.1
    show x = n ∨ H x ↔ _
    rw [hH, Has, Has, hh, hq']
    constructor
    · rintro (rfl | h)
      · exact ⟨rfl, hn⟩
      · simp at h
    · exact fun h => .inl (Option.some.inj h.1).symm
  | hand h w => exact hends hcases.1 hnext.1 hcases.2.1
  | free h => exact hends hcases.1 hnext.1 hcases.2.2.1
  | enter n =>
    refine hsame hcases.1 ?_
    rcases hnext with ⟨hp, hp'⟩ | ⟨b, hp, hp'⟩ <;> simp [hp, hp']
  | queued n =>
    refine hsame (congrArg Prod.fst hcases) ?_
    obtain ⟨⟨b, hp⟩, hp'⟩ := hnext
    simp [hp, hp']
  | silent =>
    refine hsame (congrArg Prod.fst hcases) ?_
    rcases hnext with hp | ⟨⟨n, hp⟩, hp'⟩ | hp'
    · rw [hp]
    · simp [hp, hp']
    · exact absurd (phase_eq_unreachable.mp hp') (hC.here a).reachable

theorem hold_step (hI : Inv q loc s) (hI' : Inv q' loc' t) (hs : Step s (a, l) t)
    (hf : Fair q.fair l.ev q'.fair) {H : T → Prop} (hH : ∀ x, H x ↔ Has q s x) :
    hold H (a, l) x ↔ Has q' t x := by
  by_cases hw : ∃ e, l = .words e
  · obtain ⟨e, rfl⟩ := hw
    refine hold_words hI hI'.core ?_ hf hH
    cases hs <;> assumption
  rw [not_exists] at hw
  have hh : q'.view.holder = q.view.holder := by
    cases l with
    | words e => exact absurd rfl (hw e)
    | _ => exact congrArg Prod.fst hf.cases
  by_cases hr : l = .release
  · subst hr
    have hop : ∃ o : Op T, t.core.op = update s.core.op a o ∧ o.phase = .releasing a := by
      cases hs <;> exact ⟨.release a .loadWaiters, rfl, rfl⟩
    obtain ⟨o, hop, ho⟩ := hop
    show x ≠ a ∧ H x ↔ _
    rw [hH, Has, Has, hh, hop]
    by_cases hx : x = a
    · simp [hx, ho]
    · simp [hx]
  have hsame : H x ↔ Has q' t x := by
    rw [hH, Has, Has, hh, Ne, Ne, releasing_step hI hs hw hr]
  cases l with
  | words e => exact absurd rfl (hw e)
  | release => exact absurd rfl hr
  | success =>
    have ha : H a := by
      cases hs with
      | ret hp =>
        have hfit : (s.core.op a).phase = .idle := by simpa [hp, Fits] using (hI.here a).fits
        exact (hH a).mpr ⟨((hI.kept a).holds (.inl (by simp [hp, Pc.holds]))).1, by simp [hfit]⟩
    show x = a ∨ H x ↔ _
    rw [← hsame]
    exact or_iff_right_of_imp fun hx => hx ▸ ha
  | _ => exact hsame

variable {recursive : Bool} {mem : T → Word T} {xs : List (T × Act K T)}

/-- The invariant along a run, with the history of who holds the mutex. -/
theorem run_inv (h : Run Step (State.init recursive mem : State K T) xs s) :
    ∃ q loc, Inv q loc s ∧ ∀ x, Holding xs x ↔ Has q s x := by
  induction h with
  | refl => exact ⟨_, _, .init recursive mem, fun x => by simp [Holding, Has]⟩
  | @step xs s t e _ hs ih =>
    obtain ⟨q, loc, hI, hH⟩ := ih
    obtain ⟨a, l⟩ := e
    obtain ⟨q', loc', hI', hf⟩ := hI.step hs
    refine ⟨q', loc', hI', fun x => ?_⟩
    rw [Holding, replay_snoc]
    exact hold_step hI hI' hs hf hH

theorem Inv.owner_of_success {a : T} (hI : Inv q loc s)
    (hs : Step s (a, .success) t) : s.core.owner = some a := by
  cases hs with
  | ret hp => exact ((hI.kept a).holds (.inl (by simp [hp, Pc.holds]))).2

/-- Mutual exclusion: at most one thread holds the mutex, whoever is told that it has got it is
the one `owner` names, and no thread but the holder ever reads itself from `owner`. -/
theorem mutual_exclusion (h : Run Step (State.init recursive mem : State K T) xs s) :
    (∀ x y, Holding xs x → Holding xs y → x = y) ∧
      (∀ a t, Step s (a, .success) t → s.core.owner = some a) ∧
      ∀ x, s.core.owner = some x → (s.pc x).readsOwner → Holding xs x := by
  obtain ⟨q, loc, hI, hH⟩ := run_inv h
  refine ⟨fun x y hx hy => ?_, fun a t hs => ?_, fun x ho hr => ?_⟩
  · have hx := ((hH x).mp hx).1
    have hy := ((hH y).mp hy).1
    exact Option.some.inj (hx.symm.trans hy)
  · exact hI.owner_of_success hs
  · have hfit := (hI.here x).fits
    cases hpc : s.pc x with
    | out | waitOwner =>
      rw [hpc] at hfit
      obtain ⟨-, hh⟩ := hI.holder_of_owner ho hfit (by simp [hpc, Pc.sleeps])
      exact (hH x).mpr ⟨hh, by rw [show (s.core.op x).phase = .idle from hfit]; simp⟩
    | _ => simp [hpc, Pc.readsOwner] at hr

/-- Thread `true` locks the mutex on the fast path, thread `false` enters behind it and sleeps until
thread `true` hands the mutex over. -/
theorem mutual_exclusion_sample : ∃ xs, ∃ s : State Unit Bool,
    Run Step (State.init false (fun _ => .null)) xs s ∧ (true, .success) ∈ xs ∧
      Holding xs false ∧ s.core.owner = some false ∧ ∀ x, Holding xs x → x = false := by
  have h : Run Step (State.init false (fun _ => .null) : State Unit Bool) [] _ := .refl
  have h := h.step (.lockFree (a := true) (b := false) rfl rfl)
  have h := h.step (.words (.fastEnd (a := true) (n := true) rfl) nofun nofun)
  have h := h.step (.words (.fastCas (a := true) (n := true) rfl rfl) nofun nofun)
  have h := h.step (.words (.own (a := true) (b := false) (n := true) rfl) nofun nofun)
  have h := h.step (.locked (a := true) (n := true) (.inr ⟨false, rfl⟩) rfl)
  -- thread `false` finds an owner
  have h := h.step (.lockOther (a := false) (u := true) rfl rfl (by decide))
  have h := h.step (.words (.null (a := false) (b := false) (n := false) rfl) nofun nofun)
  have h := h.step (.words (.loadEnd (a := false) (b := false) (n := false) rfl) nofun nofun)
  have h := h.step (.words (.exchange (a := false) (b := false) (n := false) rfl) nofun nofun)
  have h := h.step (.queued (a := false) rfl
    (.link (a := false) (b := false) (n := false) (c := .waiters) rfl))
  have h := (h.step (.ret (a := true) rfl)).step (.unlock (a := true) rfl rfl (by decide))
  -- thread `true` hands the mutex over
  have h := h.step (.words (.loadWaiters (a := true) (h := true) rfl) nofun nofun)
  have h := h.step (.words (.loadNext (a := true) (h := true) (w := false) rfl) nofun nofun)
  have h := h.step (.words (.loadEndNext (a := true) (h := true) (w := false) rfl) nofun nofun)
  have h := h.step (.words (.clearWaiters (a := true) (h := true) (w := false) rfl) nofun nofun)
  have h := h.step (.words (.casLast (a := true) (h := true) (w := false) rfl rfl) nofun nofun)
  have h := h.step (.words (.storeOwner (a := true) (h := true) (w := false) rfl) nofun nofun)
  have h := (h.step (.wake (a := true) (w := false) rfl rfl)).step (.dispatch (a := false) rfl)
  have hm := mutual_exclusion h
  refine ⟨_, _, h, by simp, ?_, hm.2.1 false _ (.ret rfl), fun x hx => hm.1 x false hx ?_⟩ <;>
    simp [Holding, replay, hold]

end MyosIo.Mutex
