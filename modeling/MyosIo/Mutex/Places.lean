import MyosIo.Mutex.Phase

/-! Every thread is in one place: it executes its own code, or it is in one list, or it is in the
hands of one other thread. -/
namespace MyosIo.Mutex

open Function

variable {K T : Type*}

/-- `batch b` also has the thread that broadcast `b` has made the owner and is about to add;
`given a` is the new owner that the release of `a` has to wake. -/
inductive Loc (K T : Type*)
  | self
  | cond (k : K)
  | chain (b : T)
  | hand (b : T)
  | queue
  | batch (b : T)
  | given (a : T)
  | ready

/-- The thread executes its own code, and not only the end of its `cnd_wait`. -/
def Pc.runs : Pc K T → Prop
  | .asleep _ | .ready | .release | .waitLink _ _ => False
  | _ => True

def Pc.sleeps : Pc K T → Prop
  | .asleep _ => True
  | _ => False

/-- A thread another one may move: it sleeps or is on its way to. -/
def Pc.parked : Pc K T → Prop
  | .asleep _ | .release | .waitLink _ _ => True
  | _ => False

/-- The thread is inside `al_clear` of the list of `k`, which a spinlock protects. -/
def Pc.clears (k : K) : Pc K T → Prop
  | .clearEnd k' | .clearHead k' | .clearExchange k' | .clearUnlock k' => k' = k
  | _ => False

def Pc.walks : Pc K T → Prop
  | .clearUnlock _ | .next | .temp _ | .move _ => True
  | _ => False

/-- How the place of a thread in its routine and in the words of the mutex go together. -/
def Fits (a : T) : Pc K T → Phase T → Prop
  | .lockFast _, p => p = .fast a ∨ p = .inside false a ∨ p = .owned a ∨ p = .busy
  | .lockSlow, p => p = .before false a ∨ p = .inside false a ∨ p = .owned a
  | .unlock, p | .release, p => p = .releasing a ∨ (∃ w, p = .handing a w) ∨ ∃ w, p = .handed w
  | .move n, p => p = .before true n ∨ p = .inside true n ∨ p = .owned n
  | .unreachable, _ => False
  | _, p => p = .idle

theorem Fits.cases {a : T} {p : Pc K T} {f : Phase T} : Fits a p f → match f with
    | .idle => True
    | .fast n => n = a ∧ ∃ b, p = .lockFast b
    | .before v n => v = false ∧ n = a ∧ p = .lockSlow ∨ v = true ∧ p = .move n
    | .inside v n =>
      v = false ∧ n = a ∧ (p = .lockSlow ∨ ∃ b, p = .lockFast b) ∨ v = true ∧ p = .move n
    | .owned n => n = a ∧ (p = .lockSlow ∨ ∃ b, p = .lockFast b) ∨ p = .move n
    | .busy => ∃ b, p = .lockFast b
    | .releasing n | .handing n _ => n = a ∧ (p = .unlock ∨ p = .release)
    | .handed _ => p = .unlock ∨ p = .release
    | .unreachable => False := by
  intro h
  cases f <;> cases p <;> simp_all [Fits]

structure Placed (q : Queue T T) (loc : T → Loc K T) (s : State K T) : Prop where
  self : ∀ x, loc x = .self ↔ (s.pc x).runs ∧ (s.core.op x).phase ≠ .inside false x
  ready : ∀ x, loc x = .ready ↔ s.pc x = .ready
  cond : ∀ x k, loc x = .cond k ↔ x ∈ s.cond k
  chain : ∀ x b, loc x = .chain b ↔ x ∈ s.chain b
  hand : ∀ x b, loc x = .hand b ↔ s.pc b = .temp x ∨ (s.core.op b).phase = .before true x
  queue : ∀ x, loc x = .queue ↔ x ∈ q.waiting
  batch : ∀ x b, loc x = .batch b ↔
    x ∈ s.batch b ∨ s.pc b = .move x ∧ (s.core.op b).phase = .owned x
  given : ∀ x a, loc x = .given a ↔ (s.core.op a).phase = .handed x

/-- What a thread may rely on. -/
structure Local (loc : T → Loc K T) (s : State K T) (a : T) : Prop where
  fits : Fits a (s.pc a) (s.core.op a).phase
  linking : (s.pc a).linking → (∃ k, loc a = .cond k) ∨ ∃ b, loc a = .chain b
  lock : ∀ k, (s.pc a).clears k → s.condLock k = some a
  nonempty : ∀ k, s.pc a = .clearHead k ∨ s.pc a = .clearExchange k → s.cond k ≠ []
  linked : ∀ k, s.pc a = .clearExchange k → ∀ x ∈ (s.cond k).head?, ¬ (s.pc x).linking
  walks : ¬ (s.pc a).walks → s.chain a = [] ∧ s.batch a = []
  nodup : (s.chain a).Nodup
  first : ∀ x ∈ (s.chain a).head?, ¬ (s.pc x).linking
  sleeps : ∀ x, loc x = .batch a → (s.pc x).sleeps
  given : ∀ x, loc x = .given a → (s.pc x).sleeps ∨ x = a
  behalf : ∀ x, (s.core.op a).phase = .inside true x → (s.pc x).parked

/-- The routines of all threads together. -/
structure Tidy (q : Queue T T) (loc : T → Loc K T) (s : State K T) : Prop extends
    Placed q loc s where
  condNodup : ∀ k, (s.cond k).Nodup
  here : ∀ a, Local loc s a

/-- Between the two a thread has moved none, neither itself. -/
structure Stays (a : T) (p : Pc K T) (f : Phase T) (p' : Pc K T) (f' : Phase T) : Prop where
  self : p'.runs ∧ f' ≠ .inside false a ↔ p.runs ∧ f ≠ .inside false a
  ready : p' = .ready ↔ p = .ready
  hand : ∀ x, p' = .temp x ∨ f' = .before true x ↔ p = .temp x ∨ f = .before true x
  batch : ∀ x, p' = .move x ∧ f' = .owned x ↔ p = .move x ∧ f = .owned x
  given : ∀ x, f' = .handed x ↔ f = .handed x
  behalf : ∀ x, f' = .inside true x → f = .inside true x
  fits : Fits a p' f'
  linking : p'.linking → p.linking
  sleeps : p.sleeps → p'.sleeps
  parked : p.parked → p'.parked
  walks : p.walks → p'.walks

variable [DecidableEq T] {q q' : Queue T T} {loc : T → Loc K T}
  {s t : State K T} {a b n w : T} {k : K} {l : Act K T} {c : Core T T} {e : Ev T}

/-- Only thread `a` does something, and none of the lists changes. -/
structure Alone (a : T) (s t : State K T) : Prop where
  pc : ∀ b ≠ a, t.pc b = s.pc b
  op : ∀ b ≠ a, t.core.op b = s.core.op b
  cond : t.cond = s.cond
  chain : t.chain = s.chain
  batch : t.batch = s.batch

theorem Placed.stay (hp : Placed q loc s) (ht : Alone a s t) (hq : q'.waiting = q.waiting)
    (hs : Stays a (s.pc a) (s.core.op a).phase (t.pc a) (t.core.op a).phase) :
    Placed q' loc t := by
  obtain ⟨hpc, hop, hc, hch, hb⟩ := ht
  obtain ⟨s1, s2, s3, s4, s5⟩ := hs
  constructor
  · intro x
    rw [hp.self]
    by_cases hx : x = a
    · rw [hx, s1]
    · rw [hpc x hx, hop x hx]
  · intro x
    rw [hp.ready]
    by_cases hx : x = a
    · rw [hx, s2]
    · rw [hpc x hx]
  · simpa only [hc] using hp.cond
  · simpa only [hch] using hp.chain
  · intro x b
    rw [hp.hand]
    by_cases hx : b = a
    · rw [hx, s3]
    · rw [hpc b hx, hop b hx]
  · simpa only [hq] using hp.queue
  · intro x b
    rw [hp.batch, hb]
    by_cases hx : b = a
    · rw [hx, s4]
    · rw [hpc b hx, hop b hx]
  · intro x b
    rw [hp.given]
    by_cases hx : b = a
    · rw [hx, s5]
    · rw [hop b hx]

theorem Tidy.stay (hI : Tidy q loc s) (ht : Alone a s t) (hq : q'.waiting = q.waiting)
    (hs : Stays a (s.pc a) (s.core.op a).phase (t.pc a) (t.core.op a).phase)
    (hlock : ∀ b k, (t.pc b).clears k → t.condLock k = some b)
    (hne : ∀ k, t.pc a = .clearHead k ∨ t.pc a = .clearExchange k → t.cond k ≠ [])
    (hhead : ∀ k, t.pc a = .clearExchange k → ∀ x ∈ (t.cond k).head?, ¬ (s.pc x).linking) :
    Tidy q' loc t := by
  have hlinking {x : T} (h : (t.pc x).linking) : (s.pc x).linking := by
    by_cases hx : x = a
    · subst hx
      exact hs.linking h
    · rwa [← ht.pc x hx]
  have hsleeps {x : T} (h : (s.pc x).sleeps) : (t.pc x).sleeps := by
    by_cases hx : x = a
    · subst hx
      exact hs.sleeps h
    · rwa [ht.pc x hx]
  have hparked {x : T} (h : (s.pc x).parked) : (t.pc x).parked := by
    by_cases hx : x = a
    · subst hx
      exact hs.parked h
    · rwa [ht.pc x hx]
  refine { hI.toPlaced.stay ht hq hs with
    condNodup := by simpa only [ht.cond] using hI.condNodup, here := fun b => ?_ }
  have hb := hI.here b
  exact {
    fits := by
      by_cases h : b = a
      · rw [h]
        exact hs.fits
      · rw [ht.pc b h, ht.op b h]
        exact hb.fits
    linking h := hb.linking (hlinking h)
    lock := hlock b
    nonempty := by
      by_cases h : b = a
      · rwa [h]
      · rw [ht.pc b h, ht.cond]
        exact hb.nonempty
    linked := by
      intro k hk x hx hl
      by_cases h : b = a
      · exact hhead k (h ▸ hk) x hx (hlinking hl)
      · rw [ht.pc b h] at hk
        rw [ht.cond] at hx
        exact hb.linked k hk x hx (hlinking hl)
    walks := by
      intro h
      rw [ht.chain, ht.batch]
      by_cases hba : b = a
      · subst hba
        exact hb.walks fun hw => h (hs.walks hw)
      · rw [ht.pc b hba] at h
        exact hb.walks h
    nodup := by rw [ht.chain]; exact hb.nodup
    first := by
      rw [ht.chain]
      exact fun x hx hl => hb.first x hx (hlinking hl)
    sleeps x hx := hsleeps (hb.sleeps x hx)
    given x hx := (hb.given x hx).imp_left hsleeps
    behalf := by
      intro x hx
      by_cases h : b = a
      · subst h
        exact hparked (hb.behalf x (hs.behalf x hx))
      · rw [ht.op b h] at hx
        exact hparked (hb.behalf x hx) }

/-- The same for a step that has nothing to do with `al_clear`. -/
theorem Tidy.turn (hI : Tidy q loc s) (ht : Alone a s t) (hq : q'.waiting = q.waiting)
    (hs : Stays a (s.pc a) (s.core.op a).phase (t.pc a) (t.core.op a).phase)
    (hc : ∀ k, ¬ (t.pc a).clears k) (hlock : t.condLock = s.condLock) : Tidy q' loc t := by
  refine hI.stay ht hq hs (fun b k hb => ?_)
    (fun k hk => (hc k (by rcases hk with hk | hk <;> simp [hk, Pc.clears])).elim)
    fun k hk => (hc k (by simp [hk, Pc.clears])).elim
  by_cases hba : b = a
  · exact absurd hb (hba ▸ hc k)
  · rw [ht.pc b hba] at hb
    rw [hlock]
    exact (hI.here b).lock k hb

omit [DecidableEq T] in
theorem Tidy.parked (hI : Tidy q loc s) (hs : loc n ≠ .self) (hr : loc n ≠ .ready)
    (hp : (s.core.op n).phase ≠ .inside false n) : (s.pc n).parked := by
  have hself := mt (hI.self n).mpr hs
  have hready := mt (hI.ready n).mpr hr
  cases hpc : s.pc n <;> simp_all [Pc.runs, Pc.parked]

omit [DecidableEq T] in
/-- A thread at the front of the queue sleeps, unless it takes the mutex itself. -/
theorem Tidy.sleeps_of_queue (hI : Tidy q loc s) (hC : s.core.Inv q) (hn : loc n = .queue)
    (hh : q.view.holder = none) (hgiven : ∀ x b, loc x = .given b → q.view.holder = some x)
    (hp : (s.core.op n).phase ≠ .inside false n) : q.agent = some n ∨ (s.pc n).sleeps := by
  have hpark := hI.parked (by simp [hn]) (by simp [hn]) hp
  have hfit := (hI.here n).fits
  have hlink := (hI.here n).linking
  cases hpc : s.pc n with
  | asleep d => exact .inr trivial
  | waitLink k d => simp [hpc, Pc.linking, hn] at hlink
  | release =>
    rw [hpc] at hfit
    rcases hfit with h | ⟨w, h⟩ | ⟨w, h⟩
    · exact .inl (hC.releasing h).1
    · exact .inl (hC.handing h).1
    · simp [hgiven w n ((hI.given w n).mpr h)] at hh
  | _ => simp [hpc, Pc.parked] at hpark

/-- An access by which no thread changes its place. -/
theorem Tidy.access (hI : Tidy q loc s) (hs : s.core.Step (a, e) c) (hu : c.op a ≠ .unreachable)
    (he : e = .silent ∨ ∃ h w, e = .hand h w) (hq : q'.waiting = q.waiting) :
    Tidy q' loc { s with core := c } := by
  have hfit := (hI.here a).fits
  have hcases := hfit.cases
  obtain ⟨hop, hnext⟩ := hs.phase
  have hu := phase_eq_unreachable.not.mpr hu
  have hworks := hs.works
  refine hI.turn (a := a) ⟨fun b _ => rfl, fun b hb => ?_, rfl, rfl, rfl⟩ hq ?_ (fun k hk => ?_) rfl
  · simp only
    rw [hop, update_of_ne hb]
  · constructor
    all_goals grind -linarith [Pc.runs, Fits, Phase.Next]
  · grind -linarith [Pc.clears, Phase.Next, Fits]

theorem Tidy.enter (hI : Tidy q loc s) (hC : s.core.Inv q) (hs : s.core.Step (a, .enter n) c)
    (hq : q'.waiting = q.waiting ++ [n]) : Tidy q' (update loc n .queue) { s with core := c } := by
  obtain ⟨hop, hnext⟩ := hs.phase
  generalize c.op a = o at hop hnext
  have hcases := (hI.here a).fits.cases
  obtain ⟨v, hpv, hpc⟩ : ∃ v, o.phase = .inside v n ∧
      (v = false ∧ n = a ∧ ((s.core.op a).phase = .fast a ∧ (∃ b, s.pc a = .lockFast b) ∨
        (s.core.op a).phase = .before false a ∧ s.pc a = .lockSlow) ∨
      v = true ∧ (s.core.op a).phase = .before true n ∧ s.pc a = .move n) := by
    rcases hnext with ⟨hp, hp'⟩ | ⟨v, hp, hp'⟩ <;> rw [hp] at hcases <;> grind -linarith
  clear hcases hnext
  have hln : loc n = .self ∨ loc n = .hand a := by
    have h1 := hI.self n
    have h2 := hI.hand n a
    grind -linarith [Pc.runs]
  have hpark (h : loc n = .hand a) : (s.pc n).parked := by
    refine hI.parked (by simp [h]) (by simp [h]) fun hp => ?_
    simpa [h] using (hI.queue n).mpr (hC.waiting_of_inside hp)
  have hrun (h : v = true) : loc n = .hand a := by
    grind -linarith [hI.hand]
  obtain ⟨p1, p2, p3, p4, p5, p6, p7, p8⟩ := hI.toPlaced
  have hh := hI.here
  constructor
  · constructor
    all_goals
      try simp only [hop, hq, update_apply, List.mem_append, List.mem_singleton,
        apply_ite Op.phase, hpv]
    all_goals grind -linarith [Pc.runs]
  · exact hI.condNodup
  · intro b
    obtain ⟨f1, f2, f3, f4, f5, f6, f7, f8, f9, f10, f11⟩ := hh b
    constructor
    all_goals try simp only [hop, update_apply, apply_ite Op.phase, hpv]
    all_goals grind -linarith [Pc.runs, Fits, Pc.linking]

/-- A thread that another one makes the owner sleeps. -/
theorem Tidy.sleeps_of_own (hI : Tidy q loc s) (hC : s.core.Inv q)
    (hs : s.core.Step (a, .own n) c) (hg : ∀ x b, loc x = .given b → q.view.holder = some x)
    (hna : n ≠ a) : (s.pc n).sleeps := by
  obtain ⟨ha, hh, hfr, -⟩ := hC.own_front hs
  have hln : loc n = .queue := (hI.queue n).mpr (by simp [Queue.waiting, hfr])
  have hin : (s.core.op n).phase ≠ .inside false n := fun h => by
    have := hC.inside_front h hfr
    simp [ha, hna.symm] at this
  refine (hI.sleeps_of_queue hC hln hh hg hin).resolve_left ?_
  simpa [ha] using hna.symm

theorem Tidy.own (hI : Tidy q loc s) (hC : s.core.Inv q) (hs : s.core.Step (a, .own n) c)
    (hf : Fair q.fair (.own n) q'.fair)
    (hg : ∀ x b, loc x = .given b → q.view.holder = some x) :
    ∃ l, Tidy q' (update loc n l) { s with core := c } := by
  obtain ⟨ha, hh, hfr, ho⟩ := hC.own_front hs
  obtain ⟨hop, hnext⟩ := hs.phase
  generalize c.op a = o at hop hnext
  have hcases := (hI.here a).fits.cases
  have hfair := hf.cases
  have hw : q'.waiting = q.rest := by
    simpa [Queue.fair, Queue.waiting, hfr] using hfair.2.2.symm
  have hq : q.waiting = n :: q.rest := by simp [Queue.waiting, hfr]
  have hn := hC.front n (by simp [hfr])
  have hln : loc n = .queue := (hI.queue n).mpr (by simp [hq])
  have hin {b v} (h : (s.core.op b).phase = .inside v n) : b = a := by
    simpa [ha] using (hC.inside_front h hfr).symm
  have hsl := hI.sleeps_of_own hC hs hg
  obtain ⟨p1, p2, p3, p4, p5, p6, p7, p8⟩ := hI.toPlaced
  have hhr := hI.here
  rcases hnext with ⟨⟨v, hp⟩, hp'⟩ | ⟨⟨h, hp⟩, hp'⟩
  · have hna (hv : v = true) : n ≠ a := by
      rintro rfl
      have := (hhr n).behalf n (hv ▸ hp)
      rw [hp] at hcases
      grind -linarith [Pc.parked]
    refine ⟨if v then .batch a else .self, ?_⟩
    rw [hp] at hcases
    constructor
    · constructor
      all_goals
        try simp only [hop, hw, update_apply,  apply_ite Op.phase, hp']
      all_goals grind -linarith [Pc.runs]
    · exact hI.condNodup
    · intro b
      obtain ⟨f1, f2, f3, f4, f5, f6, f7, f8, f9, f10, f11⟩ := hhr b
      constructor
      all_goals try simp only [hop, update_apply, apply_ite Op.phase, hp']
      all_goals grind -linarith [Pc.runs, Fits, Pc.linking]
  · refine ⟨.given a, ?_⟩
    rw [hp] at hcases
    constructor
    · constructor
      all_goals
        try simp only [hop, hw, update_apply,  apply_ite Op.phase, hp']
      all_goals grind -linarith [Pc.runs]
    · exact hI.condNodup
    · intro b
      obtain ⟨f1, f2, f3, f4, f5, f6, f7, f8, f9, f10, f11⟩ := hhr b
      constructor
      all_goals try simp only [hop, update_apply, apply_ite Op.phase, hp']
      all_goals grind -linarith [Pc.runs, Fits, Pc.parked, Pc.linking, Pc.sleeps]

end MyosIo.Mutex
