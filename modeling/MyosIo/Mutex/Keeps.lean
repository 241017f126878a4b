import MyosIo.Mutex.Places

/-! The `temp0` of a thread that waits on a condition variable is still as `cnd_wait` left it, and
a thread that has the mutex, or is about to find out, is its owner. -/
namespace MyosIo.Mutex

open Function

variable {K T : Type*}

/-- The thread waits with a mutex it has locked more than once. -/
def Pc.deep : Pc K T → Bool
  | .asleep d | .waitLink _ d => d
  | _ => false

/-- The thread has the mutex, whatever another one is doing to it. -/
def Pc.holds : Pc K T → Prop
  | .ret | .ready | .waitTemp _ | .waitAppend _ _ | .waitLink _ _ | .asleep true => True
  | _ => False

/-- The thread waits on a condition variable, or a broadcast is about to read its `temp0`. -/
def Waits (s : State K T) (x : T) : Prop :=
  (∃ k, x ∈ s.cond k) ∨ (∃ b, x ∈ s.chain b) ∨ ∃ b, s.pc b = .temp x

/-- The thread is the owner, or is going to be told. -/
def Holds (loc : T → Loc K T) (s : State K T) (x : T) : Prop :=
  (s.pc x).holds ∨ (∃ b, loc x = .batch b) ∨ (∃ b, loc x = .given b) ∨
    (s.core.op x).phase = .owned x

structure Kept (q : Queue T T) (loc : T → Loc K T) (s : State K T) (x : T) : Prop where
  waits : Waits s x → s.core.mem (.temp0 x) = if (s.pc x).deep then .null else .mutex
  append : ∀ k d, s.pc x = .waitAppend k d →
    s.core.mem (.temp0 x) = if d then .null else .mutex
  deep : (s.pc x).deep = true → Waits s x ∨ ∃ b, loc x = .batch b
  holds : Holds loc s x → q.view.holder = some x ∧ s.core.owner = some x
  clean : loc x = .self ∨ (loc x = .queue ∧ ∀ b, (s.core.op b).phase ≠ .inside true x) ∨
    (∃ b, loc x = .given b) → s.alNode x = none

/-- The invariant of mutexes and condition variables. -/
structure Inv (q : Queue T T) (loc : T → Loc K T) (s : State K T) : Prop extends
    Tidy q loc s where
  core : s.core.Inv q
  kept : ∀ x, Kept q loc s x

variable [DecidableEq T] {q q' : Queue T T} {loc loc' : T → Loc K T}
  {s t : State K T} {a b n w x : T} {k : K} {l : Act K T} {c : Core T T} {e : Ev T}

omit [DecidableEq T] in
theorem Fits.works {p : Pc K T} {f : Phase T} (h : Fits a p f) (hf : f ≠ .idle) :
    p.deep = false ∧ ¬ p.holds ∧ (∀ n, p ≠ .temp n) ∧ ∀ k d, p ≠ .waitAppend k d := by
  cases p <;> simp_all [Fits, Pc.deep, Pc.holds]

omit [DecidableEq T] in
/-- A thread becomes the owner by the access that makes it the owner. -/
theorem Phase.Next.owned {p p' : Phase T} (h : p.Next e p') (hp : p' = .owned n ∨ p' = .handed n) :
    e = .own n ∨ e = .silent ∧ p = p' := by
  cases e <;> grind -linarith [Phase.Next]

omit [DecidableEq T] in
theorem Waits.place (hI : Tidy q loc s) (hw : Waits s n) :
    loc n ≠ .self ∧ loc n ≠ .queue ∧ (∀ b, loc n ≠ .batch b) ∧
      ∀ b, (s.core.op b).phase ≠ .before true n := by
  have hbefore {b} (h : (s.core.op b).phase = .before true n) : loc n = .hand b :=
    (hI.hand n b).mpr (.inr h)
  rcases hw with ⟨k, h⟩ | ⟨b, h⟩ | ⟨b, h⟩
  · have hl := (hI.cond n k).mpr h
    exact ⟨by simp [hl], by simp [hl], by simp [hl], fun b hb => by simpa [hl] using hbefore hb⟩
  · have hl := (hI.chain n b).mpr h
    exact ⟨by simp [hl], by simp [hl], by simp [hl], fun b hb => by simpa [hl] using hbefore hb⟩
  · have hl := (hI.hand n b).mpr (.inl h)
    refine ⟨by simp [hl], by simp [hl], by simp [hl], fun d hd => ?_⟩
    obtain rfl : b = d := by simpa [hl] using hbefore hd
    have := (hI.here b).fits.cases
    rw [hd] at this
    simp [h] at this

/-- A step outside the words by which no thread changes its place. -/
structure Quiet (q : Queue T T) (loc : T → Loc K T) (s : State K T) (a : T) (t : State K T) :
    Prop where
  alone : Alone a s t
  stays : Stays a (s.pc a) (s.core.op a).phase (t.pc a) (t.core.op a).phase
  owner : t.core.owner = s.core.owner
  mem : ∀ x, t.core.mem (.temp0 x) = s.core.mem (.temp0 x) ∨ x = a ∧ loc a = .self
  append : ∀ k d, t.pc a = .waitAppend k d →
    t.core.mem (.temp0 a) = if d then .null else .mutex
  deep : (t.pc a).deep = (s.pc a).deep
  temp : ∀ x, t.pc a ≠ .temp x ∧ (s.pc a = .temp x → (s.pc x).deep = false)
  holds : (t.pc a).holds ∨ (t.core.op a).phase = .owned a →
    q.view.holder = some a ∧ s.core.owner = some a
  inside : ∀ n, (s.core.op a).phase ≠ .inside true n
  alNode : ∀ x, loc x ≠ .ready → t.alNode x = s.alNode x

namespace Inv

omit [DecidableEq T] in
/-- A thread is nowhere in the mutex. -/
theorem outside (hI : Inv q loc s) (hn : loc n ≠ .queue) (hb : ∀ b, loc n ≠ .batch b)
    (hbefore : ∀ b, (s.core.op b).phase ≠ .before true n)
    (hself : loc n = .self → (s.core.op n).phase = .idle ∨ (s.core.op n).phase = .busy) :
    Core.Inv.Outside q s.core n := by
  have hfit (b) := (hI.here b).fits.cases
  have hrun (h : s.pc n = .lockSlow ∨ ∃ b, s.pc n = .lockFast b) : loc n = .self := by
    refine (hI.self n).mpr ⟨?_, fun hp => hn ((hI.queue n).mpr (hI.core.waiting_of_inside hp))⟩
    rcases h with h | ⟨b, h⟩ <;> simp [h, Pc.runs]
  refine hI.core.outside (mt (hI.queue n).mpr hn) (fun b hp => ?_) (fun b v hp => ?_) fun b hp => ?_
  · have := hfit b
    rw [hp] at this
    obtain ⟨rfl, hpc⟩ := this
    simpa [hp] using hself (hrun (.inr hpc))
  · have := hfit b
    rw [hp] at this
    rcases this with ⟨rfl, rfl, hpc⟩ | ⟨rfl, -⟩
    · simpa [hp] using hself (hrun (.inl hpc))
    · exact hbefore b hp
  · have := hfit b
    rw [hp] at this
    rcases this with ⟨rfl, hpc⟩ | hm
    · simpa [hp] using hself (hrun hpc)
    · exact hb b ((hI.batch n b).mpr (.inr ⟨hm, hp⟩))

omit [DecidableEq T] in
theorem outside_of_waits (hI : Inv q loc s) (hw : Waits s n) : Core.Inv.Outside q s.core n := by
  obtain ⟨hself, hqueue, hbatch, hbefore⟩ := hw.place hI.toTidy
  exact hI.outside hqueue hbatch hbefore fun h => absurd h hself

omit [DecidableEq T] in
theorem outside_of_self (hI : Inv q loc s) (hl : loc n = .self)
    (hp : (s.core.op n).phase = .idle ∨ (s.core.op n).phase = .busy) :
    Core.Inv.Outside q s.core n := by
  refine hI.outside (by simp [hl]) (by simp [hl]) (fun b h => ?_) fun _ => hp
  simpa [hl] using (hI.hand n b).mpr (.inr h)

omit [DecidableEq T] in
/-- Whoever `owner` names and who is outside the words has the mutex, and no agent is at work. -/
theorem holder_of_owner (hI : Inv q loc s) (ho : s.core.owner = some n)
    (hp : (s.core.op n).phase = .idle) (hs : ¬ (s.pc n).sleeps) :
    q.agent = none ∧ q.view.holder = some n := by
  rcases hI.core.owner_phase ho with ⟨ha, hv⟩ | ⟨b, hb⟩
  · exact ⟨ha, by simp [hv]⟩
  · have hfit := (hI.here b).fits.cases
    rcases hb with hb | hb | ⟨w, hb⟩ <;> rw [hb] at hfit
    · rcases hfit with ⟨rfl, -⟩ | hm
      · simp [hb] at hp
      · exact absurd ((hI.here b).sleeps n ((hI.batch n b).mpr (.inr ⟨hm, hb⟩))) hs
    · obtain ⟨rfl, -⟩ := hfit
      simp [hb] at hp
    · obtain ⟨rfl, -⟩ := hfit
      simp [hb] at hp

omit [DecidableEq T] in
/-- The same when it is known to have it. -/
theorem agent_of_holder (hI : Inv q loc s) (hh : q.view.holder = some n)
    (hp : (s.core.op n).phase = .idle) (hs : ¬ (s.pc n).sleeps) : q.agent = none := by
  rcases hI.core.holder_phase hh with ⟨ha, -⟩ | ⟨b, hb⟩
  · exact ha
  · have hfit := (hI.here b).fits.cases
    rcases hb with hb | hb <;> rw [hb] at hfit
    · rcases hfit with ⟨rfl, -⟩ | hm
      · simp [hb] at hp
      · exact absurd ((hI.here b).sleeps n ((hI.batch n b).mpr (.inr ⟨hm, hb⟩))) hs
    · obtain ⟨rfl, -⟩ := hfit
      simp [hb] at hp

/-- Where a thread is when its part on the words is over and nobody is the owner by it. -/
def leave : Pc K T → Pc K T
  | .lockSlow | .release => .asleep false
  | .unlock => .out
  | .move _ => .next
  | p => p

/-- What an access changes besides the words. -/
structure Access (s : State K T) (a : T) (e : Ev T) (t : State K T) : Prop where
  pc : ∀ b ≠ a, t.pc b = s.pc b
  self : t.pc a = s.pc a ∨ ((∃ n, e = .queued n) ∨ ∃ h, e = .free h) ∧
    t.pc a = leave (s.pc a)
  cond : t.cond = s.cond
  chain : t.chain = s.chain
  batch : t.batch = s.batch

/-- A thread at work on the words neither waits on a condition variable nor is told that it has the
mutex. -/
theorem access_works (hI : Inv q loc s) (hs : s.core.Step (a, e) t.core) (ht : Access s a e t) :
    (t.pc a).deep = false ∧ ¬ (t.pc a).holds ∧ (∀ n, t.pc a ≠ .temp n) ∧
      ∀ k d, t.pc a ≠ .waitAppend k d := by
  have hpa := (hI.here a).fits.works hs.works
  rcases ht.self with h | ⟨-, h⟩ <;> rw [h]
  · exact hpa
  · unfold leave
    split
    case h_5 => exact hpa
    all_goals simp [Pc.deep, Pc.holds]

theorem access_deep (hI : Inv q loc s) (hs : s.core.Step (a, e) t.core) (ht : Access s a e t)
    (x : T) : (t.pc x).deep = (s.pc x).deep := by
  by_cases hx : x = a
  · rw [hx, (hI.access_works hs ht).1, ((hI.here a).fits.works hs.works).1]
  · rw [ht.pc x hx]

theorem access_waits_iff (hI : Inv q loc s) (hs : s.core.Step (a, e) t.core)
    (ht : Access s a e t) (x : T) : Waits t x ↔ Waits s x := by
  have htemp (b) : t.pc b = .temp x ↔ s.pc b = .temp x := by
    by_cases hb : b = a
    · simp [hb, hI.access_works hs ht, (hI.here a).fits.works hs.works]
    · rw [ht.pc b hb]
  simp only [Waits, ht.cond, ht.chain, htemp]

/-- A thread in a batch stays there until the batch is published. -/
theorem access_batch (hI : Inv q loc s) (hs : s.core.Step (a, e) t.core) (ht : Access s a e t)
    (hI' : Tidy q' loc' t) (hx : loc x = .batch b) : loc' x = .batch b := by
  refine (hI'.batch x b).mpr ?_
  rw [ht.batch]
  refine ((hI.batch x b).mp hx).imp_right ?_
  rintro ⟨hm, ho⟩
  by_cases hba : b = a
  · subst hba
    have hnext := hs.phase.2
    rw [ho] at hnext
    have := (hI'.here b).fits.cases
    have hself := ht.self
    cases e <;> grind -linarith [Phase.Next]
  · rw [ht.pc b hba, hs.phase_of_ne hba]
    exact ⟨hm, ho⟩

/-- Only the access that makes a thread the owner gives it the mutex. -/
theorem access_holds (hI : Inv q loc s) (hs : s.core.Step (a, e) t.core) (ht : Access s a e t)
    (hI' : Tidy q' loc' t) (he : e ≠ .own x) (hh : Holds loc' t x) : Holds loc s x := by
  have howned {b} (h : (t.core.op b).phase = .owned x ∨ (t.core.op b).phase = .handed x) :
      (s.core.op b).phase = (t.core.op b).phase ∧ (b = a → e = .silent) := by
    by_cases hb : b = a
    · subst hb
      have := (hs.phase.2.owned h).resolve_left he
      exact ⟨this.2, fun _ => this.1⟩
    · exact ⟨(hs.phase_of_ne hb).symm, fun h => absurd h hb⟩
  rcases hh with h | ⟨b, h⟩ | ⟨b, h⟩ | h
  · have hxa : x ≠ a := fun hxa => (hI.access_works hs ht).2.1 (hxa ▸ h)
    exact .inl (by rwa [← ht.pc x hxa])
  · refine .inr (.inl ⟨b, (hI.batch x b).mpr ?_⟩)
    rw [← ht.batch]
    refine ((hI'.batch x b).mp h).imp_right ?_
    rintro ⟨hm, ho⟩
    obtain ⟨h1, h2⟩ := howned (.inl ho)
    refine ⟨?_, h1.trans ho⟩
    by_cases hb : b = a
    · rcases ht.self with hself | ⟨hself, -⟩
      · rwa [hb, ← hself, ← hb]
      · simp [h2 hb] at hself
    · rwa [← ht.pc b hb]
  · have ho := (hI'.given x b).mp h
    exact .inr (.inr (.inl ⟨b, (hI.given x b).mpr ((howned (.inr ho)).1.trans ho)⟩))
  · exact .inr (.inr (.inr ((howned (.inl h)).1.trans h)))

omit [DecidableEq T] in
/-- A thread that has the mutex is not the one that is being released. -/
theorem releasing_ne_holds (hI : Inv q loc s) (hh : Holds loc s x) :
    (s.core.op a).phase ≠ .releasing x := by
  intro hr
  obtain ⟨rfl, hpc⟩ : x = a ∧ (s.pc a = .unlock ∨ s.pc a = .release) := by
    have := (hI.here a).fits.cases
    rwa [hr] at this
  rcases hh with h | ⟨b, h⟩ | ⟨b, h⟩ | h
  · rcases hpc with hpc | hpc <;> simp [hpc, Pc.holds] at h
  · have := (hI.here b).sleeps x h
    rcases hpc with hpc | hpc <;> simp [hpc, Pc.sleeps] at this
  · rcases (hI.here b).given x h with h' | rfl
    · rcases hpc with hpc | hpc <;> simp [hpc, Pc.sleeps] at h'
    · cases hr.symm.trans ((hI.given x x).mp h)
  · simp [hr] at h

/-- The places in which the node of a thread in the array list is not used. -/
def Unused (loc : T → Loc K T) (s : State K T) (x : T) : Prop :=
  loc x = .self ∨ (loc x = .queue ∧ ∀ b, (s.core.op b).phase ≠ .inside true x) ∨
    ∃ b, loc x = .given b

theorem unused_of_own (hI : Inv q loc s) (hs : s.core.Step (a, .own x) c)
    (hp : (s.core.op a).phase ≠ .inside true x) : Unused loc s x := by
  obtain ⟨ha, -, hfr, -⟩ := hI.core.own_front hs
  refine .inr (.inl ⟨(hI.queue x).mpr (by simp [Queue.waiting, hfr]), fun b h => ?_⟩)
  obtain rfl : a = b := by simpa [ha] using hI.core.inside_front h hfr
  exact hp h

theorem access_unused_self (hI : Inv q loc s) (hs : s.core.Step (a, e) t.core)
    (ht : Access s a e t) (hI' : Tidy q' loc' t) (h : loc' x = .self) : Unused loc s x := by
  have hnext := hs.phase.2
  obtain ⟨hr, hp⟩ := (hI'.self x).mp h
  by_cases hxa : x = a
  · subst hxa
    have hcases := (hI.here x).fits.cases
    have hfit := (hI'.here x).fits
    have hself := ht.self
    by_cases hpx : (s.core.op x).phase = .inside false x
    · rw [hpx] at hnext hcases
      have he : e = .own x := by
        cases e <;> grind -linarith [Phase.Next, Fits, leave, Pc.runs]
      exact hI.unused_of_own (he ▸ hs) (by simp [hpx])
    · refine .inl ((hI.self x).mpr ⟨?_, hpx⟩)
      rcases hself with hself | ⟨⟨n, rfl⟩ | ⟨h, rfl⟩, hself⟩
      · rwa [← hself]
      · obtain ⟨⟨v, hv⟩, -⟩ := hnext
        rw [hv] at hcases
        rcases hcases with ⟨rfl, rfl, -⟩ | ⟨-, hpc⟩
        · exact absurd hv hpx
        · simp [hpc, Pc.runs]
      · rw [hnext.1] at hcases
        rcases hcases with ⟨-, hpc | hpc⟩
        · simp [hpc, Pc.runs]
        · simp [hself, hpc, leave, Pc.runs] at hr
  · rw [ht.pc x hxa] at hr
    rw [hs.phase_of_ne hxa] at hp
    exact .inl ((hI.self x).mpr ⟨hr, hp⟩)

theorem access_unused_queue (hI : Inv q loc s) (hs : s.core.Step (a, e) t.core)
    (hf : Fair q.fair e q'.fair) (hI' : Tidy q' loc' t) (h : loc' x = .queue)
    (hb : ∀ b, (t.core.op b).phase ≠ .inside true x)
    (hq : ¬ (e = .queued x ∧ (s.core.op a).phase = .inside true x)) : Unused loc s x := by
  have hnext := hs.phase.2
  have hw := (hI'.queue x).mp h
  have hfair := hf.cases
  by_cases hx : x ∈ q.waiting
  · refine .inr (.inl ⟨(hI.queue x).mpr hx, fun b hbx => ?_⟩)
    by_cases hba : b = a
    · subst hba
      have hfit := (hI'.here b).fits.cases
      have hne : e ≠ .own x := by
        rintro rfl
        obtain ⟨-, -, hfr, -⟩ := hI.core.own_front hs
        have hrest := hI.core.front x (by simp [hfr])
        have : q'.waiting = q.rest := by
          simpa [Queue.fair, Queue.waiting, hfr] using hfair.2.2.symm
        exact hrest (this ▸ hw)
      have hsame := hb b
      rw [hbx] at hnext
      cases e <;> grind -linarith [Phase.Next]
    · exact hb b ((hs.phase_of_ne hba).trans hbx)
  · have he : e = .enter x := by
      simp only [Queue.fair] at hfair
      cases e <;> grind -linarith
    subst he
    refine .inl ((hI.self x).mpr ?_)
    have hcases := (hI.here a).fits.cases
    rcases hnext with ⟨hp, -⟩ | ⟨v, hp, hp'⟩ <;> rw [hp] at hcases
    · obtain ⟨rfl, d, hpc⟩ := hcases
      simp [hp, hpc, Pc.runs]
    · rcases hcases with ⟨-, rfl, hpc⟩ | ⟨rfl, -⟩
      · simp [hp, hpc, Pc.runs]
      · exact absurd hp' (hb a)

theorem access_unused_given (hI : Inv q loc s) (hs : s.core.Step (a, e) t.core)
    (hI' : Tidy q' loc' t) (h : loc' x = .given b) : Unused loc s x := by
  have ho := (hI'.given x b).mp h
  by_cases hba : b = a
  · subst hba
    rcases hs.phase.2.owned (.inr ho) with rfl | ⟨-, he⟩
    · refine hI.unused_of_own hs fun hd => ?_
      have hnext := hs.phase.2
      simp [Phase.Next, hd, ho] at hnext
    · exact .inr (.inr ⟨b, (hI.given x b).mpr (he.trans ho)⟩)
  · exact .inr (.inr ⟨b, (hI.given x b).mpr ((hs.phase_of_ne hba).symm.trans ho)⟩)

theorem kept_access (hI : Inv q loc s) (hs : s.core.Step (a, e) t.core) (ht : Access s a e t)
    (hf : Fair q.fair e q'.fair) (hI' : Tidy q' loc' t)
    (hal : ∀ x, t.alNode x = s.alNode x ∨ t.alNode x = none)
    (hq : ∀ x, e = .queued x → (s.core.op a).phase = .inside true x → t.alNode x = none) (x : T) :
    Kept q' loc' t x := by
  have hdeep := hI.access_deep hs ht x
  have hwaits := hI.access_waits_iff hs ht x
  have hmem (h : Core.Inv.Outside q s.core x) : t.core.mem (.temp0 x) = s.core.mem (.temp0 x) :=
    hI.core.mem_outside hs h.1 h.2.1 (h.2.2 a)
  have hx := hI.kept x
  constructor
  case waits =>
    intro hw
    rw [hdeep, hmem (hI.outside_of_waits (hwaits.mp hw))]
    exact hx.waits (hwaits.mp hw)
  case append =>
    intro k d hpc
    have hxa : x ≠ a := fun h => (hI.access_works hs ht).2.2.2 k d (h ▸ hpc)
    rw [ht.pc x hxa] at hpc
    have hidle : (s.core.op x).phase = .idle := by simpa [hpc, Fits] using (hI.here x).fits
    rw [hmem (hI.outside_of_self ((hI.self x).mpr (by simp [hpc, hidle, Pc.runs])) (.inl hidle))]
    exact hx.append k d hpc
  case deep =>
    intro hd
    rw [hdeep] at hd
    refine (hx.deep hd).imp hwaits.mpr ?_
    rintro ⟨b, hb⟩
    exact ⟨b, hI.access_batch hs ht hI' hb⟩
  case holds =>
    intro hh
    by_cases he : e = .own x
    · subst he
      exact ⟨hf.cases.2.1, (hI.core.own_front hs).2.2.2⟩
    have hold := hI.access_holds hs ht hI' he hh
    obtain ⟨hh, ho⟩ := hx.holds hold
    exact hI.core.keeps hs hf hh ho (hI.releasing_ne_holds hold)
  case clean =>
    intro hc
    by_cases hq' : e = .queued x ∧ (s.core.op a).phase = .inside true x
    · exact hq x hq'.1 hq'.2
    refine (hal x).elim (fun h => h.trans (hx.clean ?_)) id
    rcases hc with h | ⟨h, hb⟩ | ⟨b, h⟩
    · exact hI.access_unused_self hs ht hI' h
    · exact hI.access_unused_queue hs hf hI' h hb hq'
    · exact hI.access_unused_given hs hI' h

theorem kept_quiet (hI : Inv q loc s) (ht : Quiet q loc s a t)
    (hv : q'.view.holder = q.view.holder) (x : T) : Kept q' loc t x := by
  have hx := hI.kept x
  have hd : (t.pc x).deep = (s.pc x).deep := by
    by_cases hxa : x = a
    · rw [hxa, ht.deep]
    · rw [ht.alone.pc x hxa]
  constructor
  case waits =>
    intro hw
    have hw : Waits s x := by
      refine hw.imp (by simp [ht.alone.cond]) (Or.imp (by simp [ht.alone.chain]) ?_)
      rintro ⟨b, hb⟩
      have hba : b ≠ a := fun h => (ht.temp x).1 (h ▸ hb)
      exact ⟨b, (ht.alone.pc b hba).symm.trans hb⟩
    rw [hd, (ht.mem x).resolve_right fun h => (hw.place hI.toTidy).1 (h.1 ▸ h.2)]
    exact hx.waits hw
  case append =>
    intro k d hk
    by_cases hxa : x = a
    · subst hxa
      exact ht.append k d hk
    · rw [(ht.mem x).resolve_right fun h => hxa h.1]
      exact hx.append k d ((ht.alone.pc x hxa).symm.trans hk)
  case deep =>
    intro h
    rw [hd] at h
    refine (hx.deep h).imp_left
      (Or.imp (by simp [ht.alone.cond]) (Or.imp (by simp [ht.alone.chain]) ?_))
    rintro ⟨b, hb⟩
    have hba : b ≠ a := fun hba => by simp [(ht.temp x).2 (hba ▸ hb)] at h
    exact ⟨b, (ht.alone.pc b hba).trans hb⟩
  case holds =>
    intro h
    rw [hv, ht.owner]
    by_cases hxa : x = a
    · subst hxa
      rcases h with h | h | h | h
      · exact ht.holds (.inl h)
      · exact hx.holds (.inr (.inl h))
      · exact hx.holds (.inr (.inr (.inl h)))
      · exact ht.holds (.inr h)
    · refine hx.holds (h.imp (by rw [ht.alone.pc x hxa]; exact id) (Or.imp id (Or.imp id ?_)))
      rw [ht.alone.op x hxa]
      exact id
  case clean =>
    intro h
    have hr : loc x ≠ .ready := by
      rcases h with h | ⟨h, -⟩ | ⟨b, h⟩ <;> simp [h]
    rw [ht.alNode x hr]
    refine hx.clean (h.imp_right (Or.imp_left (And.imp_right fun hb b hbx => hb b ?_)))
    have hba : b ≠ a := fun hba => ht.inside x (hba ▸ hbx)
    rwa [ht.alone.op b hba]

theorem quiet (hI : Inv q loc s) (ht : Quiet q loc s a t) (hcore : t.core.Inv q')
    (hv : q'.view = q.view) (hr : q'.rest = q.rest) (hc : ∀ k, ¬ (t.pc a).clears k)
    (hlock : t.condLock = s.condLock) : Inv q' loc t where
  toTidy := hI.turn ht.alone (by rw [Queue.waiting, hv, hr]; rfl) ht.stays hc hlock
  core := hcore
  kept := hI.kept_quiet ht (by rw [hv])

end Inv
end MyosIo.Mutex
