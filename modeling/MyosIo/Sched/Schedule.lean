import MyosIo.Sched.Memory

/-! A schedule says which core goes on and what happens to it; playing it computes a run in
memory. -/
namespace MyosIo.Sched.Memory

open Function AlList

variable {C T P : Type*}

/-- `go` is the next step of a core at its place. The others begin something: a call that makes
threads schedulable, leaving a thread, an interrupt, the initialisation of a member, and a store to
the word of a thread on a wait queue. -/
inductive Move (C T : Type*)
  | go (c : C)
  | call (c : C) (t : T) (ts : List T)
  | block (c : C)
  | timer (c : C)
  | deliver (c : C)
  | init (c : C) (m : Node C T)
  | word (t : T) (v : Option T)

variable [DecidableEq C] [DecidableEq T]

/-- `State.places` by the place, with the running thread `r`. -/
def puts (c : C) (r : Option T) : Pc T → Node C T → Bool
  | .window, .core d => d = c
  | .tick, .below u _ => r = some u
  | _, _ => false

/-- `Prepared` by the places. -/
def prepares (c : C) : Spinlock.Pc (Node C T) → Pc T → Bool
  | p, .withdraw => p = .ready (.core c)
  | .ready (.below u _), .tickAppend me => u = me
  | _, .tickAppend _ => false
  | _, _ => true

/-- The next step of a core outside of the list and its lock. -/
def next (s : Sched.State C T P) (c : C) : Option (Sched.Event C T × Sched.State C T P) :=
  match s.pc c with
  | .incNum n => some (.silent, { s.setPc c (.testNum n) with num := s.num + n })
  | .testNum n => some (.silent, s.setPc c (if s.num = 0 then .incOld n else .testIdle n))
  | .testIdle n =>
    if s.idle = 0 then some (.skip c, s.setPc c (.incOld n)) else some (.silent, s.setPc c (.ipi n))
  | .ipi n => some (.silent,
      { s.setPc c (.incOld n) with pending := fun d => d ≠ c || s.pending d })
  | .incOld n => some (.silent, { s.setPc c .run with old := s.old + n })
  | .leave => (s.running c).map fun t => (.silent,
      { s.setPc c .announce with coreProc := update s.coreProc c (s.threadProc t) })
  | .announce => some (.silent, { s.setPc c .setNull with idle := s.idle + 1 })
  | .setNull => some (.silent, { s.setPc c .window with running := update s.running c none })
  | .window => some (.silent, s.setPc c .withdraw)
  | .withdraw => some (.silent, { s.setPc c .load with idle := s.idle - 1 })
  | .load => some (.silent, s.setPc c (if s.num = 0 then .reannounce else .reserve s.num))
  | .reserve v =>
    if s.num = v then some (.silent, { s.setPc c .decOld with num := v - 1 })
    else some (.silent, s.setPc c (if s.num = 0 then .reannounce else .reserve s.num))
  | .reannounce => some (.silent, { s.setPc c .idle with idle := s.idle + 1 })
  | .decOld => some (.silent, { s.setPc c (.lock none) with old := s.old - 1 })
  | .switch t => some (.dispatch c t, { s.setPc c .run with
      threadProc := update s.threadProc t (s.coreProc c)
      running := update s.running c (some t) })
  | .tickFail => some (.silent, { s.setPc c .run with old := s.old + 1 })
  | .tick => (s.running c).map fun me => (.silent,
      { s.setPc c (.tickAppend me) with coreProc := update s.coreProc c (s.threadProc me) })
  | .finish me t => some (.silent,
      { s.setPc c (if t = me then .run else .switch t) with old := s.old + 1 })
  | _ => none

/-- An interrupt outside of the list and its lock. -/
def interrupt (s : Sched.State C T P) (c : C) (timer : Bool) :
    Option (Sched.Event C T × Sched.State C T P) :=
  match s.pc c with
  | .run => if timer then some (.tick c,
      { s.setPc c (if s.old ≤ 0 then .tickFail else .tick) with old := s.old - 1 }) else none
  | .idle | .window =>
    if timer then some (.tick c, s.setPc c .window)
    else if s.pending c then
      some (.silent, { s.setPc c .window with pending := update s.pending c false })
    else none
  | _ => none

/-- The next step of a core in `spin_lock`. -/
def spinLock (s : State C T P) (c : C) (cur : Option T) : Option (State C T P) :=
  match s.mtx.pc c with
  | .exchanged m none => some (((s.setMtx c (.held m)).setPc c (.pop cur)).setCons c .forceLoadHead)
  | .exchanged m (some last) => some { s with mtx :=
      { s.mtx.setPc c (.spin m) with next := update s.mtx.next last (some m) } }
  | .spin m =>
    if s.mtx.isLocked m then
      some (((s.setMtx c (.held m)).setPc c (.pop cur)).setCons c .forceLoadHead)
    else none
  | _ => none

/-- The next step of a core in `al_delete_front_force`. -/
def deleteFront (s : State C T P) (c : C) (cur : Option T) : Option (Event C T × State C T P) :=
  match s.cons c with
  | .forceLoadHead =>
    (s.mem (.head ())).map fun h => (.sched .silent, s.setCons c (.forceLoadEnd h))
  | .forceLoadEnd h => some (.sched .silent,
      s.setCons c (if s.last = some h then .storeNull h else .loadNext h))
  | .storeNull h => some (.sched .silent, (s.store (.head ()) none).setCons c (.casEnd h))
  | .casEnd h =>
    if s.last = some h then
      some (.sched (.remove c h), State.removed { s with last := none } c cur h none)
    else some (.sched .silent, s.setCons c (.loadNext h))
  | .loadNext h => (s.mem (.node h)).map fun n => (.sched .silent, s.setCons c (.storeHead h n))
  | .storeHead h n => some (.sched (.remove c h),
      State.removed (s.store (.head ()) (some n)) c cur h (some n))
  | _ => none

/-- The next step of a core in `spin_unlock`. -/
def spinUnlock (s : State C T P) (c : C) (cur : Option T) (t : T) : Option (State C T P) :=
  match s.mtx.pc c, s.cons c with
  | .held m, _ => some (s.setMtx c (if s.mtx.lock = some m then .cas m else .waitNext m))
  | .cas m, .ret u next =>
    if s.mtx.lock = some m then
      if u = t then
        some (State.released { s with
          mtx := { s.mtx.setPc c .idle with lock := none } } c cur t next)
      else none
    else some (s.setMtx c (.waitNext m))
  | .waitNext m, _ => (s.mtx.next m).map fun n => s.setMtx c (.grant m n)
  | .grant _ n, .ret u next =>
    if u = t then
      some (State.released { s with mtx :=
        { s.mtx.setPc c .idle with isLocked := update s.mtx.isLocked n true } } c cur t next)
    else none
  | _, _ => none

/-- The next step of a core at the list and its lock. -/
def inside (s : State C T P) (c : C) : Option (Event C T × State C T P) :=
  match s.sched.pc c with
  | .link ts =>
    match s.prod c with
    | .store t d => some (.sched .silent, (s.linkEnd c t d).setPc c (.incNum ts.length))
    | .idle => none
  | .tickAppend me => some (.sched .silent, { s.exchangeEnd c me me with
      sched := { s.sched.setPc c (.tickLink me) with queue := s.sched.queue ++ [me] } })
  | .tickLink me =>
    match s.prod c with
    | .store t d =>
      if t = me then some (.sched .silent, (s.linkEnd c me d).setPc c (.lock (some me))) else none
    | .idle => none
  | .lock cur =>
    match s.mtx.pc c with
    | .ready m => some (.enter c, { s with
        sched := { s.sched.setPc c (.spin cur) with lock := s.sched.lock ++ [c] }
        mtx := { s.mtx.setPc c (.exchanged m s.mtx.lock) with lock := some m } })
    | _ => none
  | .spin cur => (spinLock s c cur).map fun t => (.sched .silent, t)
  | .pop cur => deleteFront s c cur
  | .unlock cur u => (spinUnlock s c cur u).map fun t => (.sched .silent, t)
  | .clear cur u => some (.sched .silent, { s.setPc c (chosen cur u) with
      mem := if s.got c = none then s.mem else update s.mem (.node u) none })
  | _ => none

/-- A step outside of the list and its lock, if the member is ready where it has to be. -/
def beside (s : State C T P) (c : C) (r : Sched.Event C T × Sched.State C T P) :
    Option (Event C T × State C T P) :=
  if prepares c (s.mtx.pc c) (r.2.pc c) then some (.sched r.1, { s with sched := r.2 }) else none

def fire (s : State C T P) : Move C T → Option (Event C T × State C T P)
  | .go c => inside s c <|> (next s.sched c).bind (beside s c)
  | .timer c => (interrupt s.sched c true).bind (beside s c)
  | .deliver c => (interrupt s.sched c false).bind (beside s c)
  | .call c t ts =>
    match s.sched.pc c with
    | .run =>
      if (t :: ts).Nodup ∧ (∀ u ∈ t :: ts, s.sched.blocked u = true) ∧
          (links Unit T).Stored s.mem (.node t) ts then
        some (.sched .silent, { s.exchangeEnd c t ((t :: ts).getLast (List.cons_ne_nil t ts)) with
          sched := (s.sched.append (t :: ts)).setPc c (.link (t :: ts)) })
      else none
    | _ => none
  | .block c =>
    match s.sched.pc c, s.sched.running c with
    | .run, some t => some (.sched .silent, { s with sched :=
        { s.sched.setPc c .leave with blocked := update s.sched.blocked t true } })
    | _, _ => none
  | .init c m =>
    if puts c (s.sched.running c) (s.sched.pc c) m then
      match s.mtx.pc c with
      | .initNext m' =>
        if m' = m then some (.sched .silent, { s with mtx :=
          { s.mtx.setPc c (.ready m) with next := update s.mtx.next m none } })
        else none
      | p =>
        if p.member = none ∨ p.member = some (.core c) then some (.sched .silent, { s with mtx :=
          { s.mtx.setPc c (.initNext m) with isLocked := update s.mtx.isLocked m false } })
        else none
    else none
  | .word t v =>
    if s.sched.blocked t then some (.sched .silent, s.store (.node t) v) else none

variable {s t : State C T P} {c : C} {e : Event C T} {cur : Option T} {u : T}
  {r r' : Sched.State C T P} {e' : Sched.Event C T}

/-- What makes a step one outside of the list and its lock. -/
structure Outside (s : Sched.State C T P) (c : C) (e : Sched.Event C T) (t : Sched.State C T P) :
    Prop where
  step : Sched.Step s e t
  others : ∀ d ≠ c, t.pc d = s.pc d
  aside : aside (s.pc c) ∧ aside (t.pc c)
  blocked : t.blocked = s.blocked

theorem places_of_puts {m : Node C T} (h : puts c (s.sched.running c) (s.sched.pc c) m) :
    s.places c m := by
  cases hp : s.sched.pc c <;> cases m <;> simp [puts, hp] at h
  case window.core d => exact .inl ⟨hp, by rw [h]⟩
  case tick.below u sp => exact .inr ⟨hp, u, sp, h, rfl⟩

theorem prepared_of_prepares {p : Spinlock.Pc (Node C T)} {q : Pc T} (h : prepares c p q) :
    Prepared c p q := by
  cases q with
  | withdraw =>
    have hready : p = .ready (.core c) := by simpa [prepares] using h
    exact hready
  | tickAppend me =>
    cases p with
    | ready m =>
      cases m with
      | core d => simp [prepares] at h
      | below u sp =>
        obtain rfl : u = me := by simpa [prepares] using h
        exact ⟨sp, rfl⟩
    | _ => simp [prepares] at h
  | _ => trivial

theorem Outside.intro {p : Pc T} (hs : Sched.Step r e' r') (hp : r'.pc = update r.pc c p)
    (ha : Memory.aside (r.pc c) ∧ Memory.aside p) (hb : r'.blocked = r.blocked) :
    Outside r c e' r' := by
  refine ⟨hs, fun d hd => ?_, ?_, hb⟩
  · rw [hp, update_of_ne hd]
  · rwa [hp, update_self]

theorem Outside.toStep (h : Outside s.sched c e' r) (hp : Prepared c (s.mtx.pc c) (r.pc c)) :
    Step s (.sched e') { s with sched := r } := by
  refine .aside h.step (fun d => ?_) fun u hu hr => ?_
  · rcases eq_or_ne d c with rfl | hne
    · exact .inr ⟨h.aside.1, h.aside.2, hp⟩
    · exact .inl (h.others d hne)
  · rw [h.blocked, hu] at hr
    cases hr

/-- The next step of a core is one of its own. -/
theorem next_outside (h : next r c = some (e', r')) : Outside r c e' r' := by
  cases hp : r.pc c with
  | incNum n =>
    obtain ⟨rfl, rfl⟩ : _ ∧ _ := by simpa [next, hp] using h
    exact .intro (.incNum hp) rfl (by simp [hp, aside]) rfl
  | testNum n =>
    obtain ⟨rfl, rfl⟩ : _ ∧ _ := by simpa [next, hp] using h
    exact .intro (.testNum hp) rfl ⟨by rw [hp]; rfl, by split <;> rfl⟩ rfl
  | testIdle n =>
    by_cases hi : r.idle = 0
    · obtain ⟨rfl, rfl⟩ : _ ∧ _ := by simpa [next, hp, hi] using h
      exact .intro (.skip hp hi) rfl (by simp [hp, aside]) rfl
    · obtain ⟨rfl, rfl⟩ : _ ∧ _ := by simpa [next, hp, hi] using h
      exact .intro (.testIdle hp hi) rfl (by simp [hp, aside]) rfl
  | ipi n =>
    obtain ⟨rfl, rfl⟩ : _ ∧ _ := by simpa only [next, hp, Option.some.injEq, Prod.mk.injEq] using h
    exact .intro (.ipi hp) rfl (by simp [hp, aside]) rfl
  | incOld n =>
    obtain ⟨rfl, rfl⟩ : _ ∧ _ := by simpa [next, hp] using h
    exact .intro (.incOld hp) rfl (by simp [hp, aside]) rfl
  | leave =>
    obtain ⟨u, hu, rfl, rfl⟩ : ∃ u, _ ∧ _ ∧ _ := by simpa [next, hp] using h
    exact .intro (.readProc hp hu) rfl (by simp [hp, aside]) rfl
  | announce =>
    obtain ⟨rfl, rfl⟩ : _ ∧ _ := by simpa [next, hp] using h
    exact .intro (.announce hp) rfl (by simp [hp, aside]) rfl
  | setNull =>
    obtain ⟨rfl, rfl⟩ : _ ∧ _ := by simpa [next, hp] using h
    exact .intro (.setNull hp) rfl (by simp [hp, aside]) rfl
  | window =>
    obtain ⟨rfl, rfl⟩ : _ ∧ _ := by simpa [next, hp] using h
    exact .intro (.cli hp) rfl (by simp [hp, aside]) rfl
  | withdraw =>
    obtain ⟨rfl, rfl⟩ : _ ∧ _ := by simpa [next, hp] using h
    exact .intro (.withdraw hp) rfl (by simp [hp, aside]) rfl
  | load =>
    obtain ⟨rfl, rfl⟩ : _ ∧ _ := by simpa [next, hp] using h
    exact .intro (.load hp) rfl ⟨by rw [hp]; rfl, by split <;> rfl⟩ rfl
  | reserve v =>
    by_cases hn : r.num = v
    · obtain ⟨rfl, rfl⟩ : _ ∧ _ := by simpa [next, hp, hn] using h
      exact .intro (.casOk hp hn) rfl (by simp [hp, aside]) rfl
    · obtain ⟨rfl, rfl⟩ : _ ∧ _ := by simpa [next, hp, hn] using h
      exact .intro (.casFail hp hn) rfl ⟨by rw [hp]; rfl, by split <;> rfl⟩ rfl
  | reannounce =>
    obtain ⟨rfl, rfl⟩ : _ ∧ _ := by simpa [next, hp] using h
    exact .intro (.reannounce hp) rfl (by simp [hp, aside]) rfl
  | decOld =>
    obtain ⟨rfl, rfl⟩ : _ ∧ _ := by simpa [next, hp] using h
    exact .intro (.decOld hp) rfl (by simp [hp, aside]) rfl
  | switch u =>
    obtain ⟨rfl, rfl⟩ : _ ∧ _ := by simpa [next, hp] using h
    exact .intro (.switch hp) rfl (by simp [hp, aside]) rfl
  | tickFail =>
    obtain ⟨rfl, rfl⟩ : _ ∧ _ := by simpa [next, hp] using h
    exact .intro (.tickFail hp) rfl (by simp [hp, aside]) rfl
  | tick =>
    obtain ⟨u, hu, rfl, rfl⟩ : ∃ u, _ ∧ _ ∧ _ := by simpa [next, hp] using h
    exact .intro (.tick hp hu) rfl (by simp [hp, aside]) rfl
  | finish me u =>
    obtain ⟨rfl, rfl⟩ : _ ∧ _ := by simpa [next, hp] using h
    exact .intro (.finish hp) rfl ⟨by rw [hp]; rfl, by split <;> rfl⟩ rfl
  | _ => simp [next, hp] at h

theorem interrupt_outside {timer : Bool} (h : interrupt r c timer = some (e', r')) :
    Outside r c e' r' := by
  cases hp : r.pc c with
  | run =>
    obtain ⟨ht, rfl, rfl⟩ : _ ∧ _ ∧ _ := by simpa [interrupt, hp] using h
    exact .intro (.timer hp) rfl ⟨by rw [hp]; rfl, by split <;> rfl⟩ rfl
  | idle =>
    cases timer with
    | true =>
      obtain ⟨rfl, rfl⟩ : _ ∧ _ := by simpa [interrupt, hp] using h
      exact .intro (.timerIdle (.inl hp)) rfl (by simp [hp, aside]) rfl
    | false =>
      obtain ⟨hi, rfl, rfl⟩ : _ ∧ _ ∧ _ := by simpa [interrupt, hp] using h
      exact .intro (.deliverIdle (.inl hp) hi) rfl (by simp [hp, aside]) rfl
  | window =>
    cases timer with
    | true =>
      obtain ⟨rfl, rfl⟩ : _ ∧ _ := by simpa [interrupt, hp] using h
      exact .intro (.timerIdle (.inr hp)) rfl (by simp [hp, aside]) rfl
    | false =>
      obtain ⟨hi, rfl, rfl⟩ : _ ∧ _ ∧ _ := by simpa [interrupt, hp] using h
      exact .intro (.deliverIdle (.inr hp) hi) rfl (by simp [hp, aside]) rfl
  | _ => simp [interrupt, hp] at h

theorem spinLock_step (hp : s.sched.pc c = .spin cur) (h : spinLock s c cur = some t) :
    Step s (.sched .silent) t := by
  rw [spinLock] at h
  split at h
  next hm =>
    cases h
    exact .fast hp hm
  next hm =>
    cases h
    exact .linkLock hm
  next hm =>
    split at h
    next hl =>
      cases h
      exact .spin hp hm hl
    next => cases h
  next => cases h

theorem deleteFront_step (hp : s.sched.pc c = .pop cur) (h : deleteFront s c cur = some (e, t)) :
    Step s e t := by
  rw [deleteFront] at h
  split at h
  next hc =>
    obtain ⟨x, hx, rfl, rfl⟩ : ∃ x, _ ∧ _ ∧ _ := by simpa using h
    exact .loadHead hc hx
  next hc =>
    cases h
    exact .loadEnd hc
  next hc =>
    cases h
    exact .storeNull hc
  next hc =>
    split at h
    next he =>
      cases h
      exact .casOk hp hc he
    next he =>
      cases h
      exact .casFail hc he
  next hc =>
    obtain ⟨x, hx, rfl, rfl⟩ : ∃ x, _ ∧ _ ∧ _ := by simpa using h
    exact .loadNext hc hx
  next hc =>
    cases h
    exact .storeHead hp hc
  next => cases h

theorem spinUnlock_step (hp : s.sched.pc c = .unlock cur u) (h : spinUnlock s c cur u = some t) :
    Step s (.sched .silent) t := by
  rw [spinUnlock] at h
  split at h
  next hm =>
    cases h
    exact .load hp hm
  next hm hc =>
    split at h
    next hl =>
      split at h
      next hu =>
        subst hu
        cases h
        exact .cas hp hc hm hl
      next => cases h
    next hl =>
      cases h
      exact .casLost hm hl
  next hm =>
    obtain ⟨n, hn, rfl⟩ : ∃ n, _ ∧ _ := by simpa using h
    exact .waitNext hm hn
  next hm hc =>
    split at h
    next hu =>
      subst hu
      cases h
      exact .grant hp hc hm
    next => cases h
  next => cases h

theorem inside_step (h : inside s c = some (e, t)) : Step s e t := by
  rw [inside] at h
  split at h
  next hp =>
    split at h
    next hl =>
      cases h
      exact .link hp hl
    next => cases h
  next hp =>
    cases h
    exact .tickAppend hp
  next hp =>
    split at h
    next hl =>
      split at h
      next hu =>
        subst hu
        cases h
        exact .tickLink hp hl
      next => cases h
    next => cases h
  next hp =>
    split at h
    next hm =>
      cases h
      exact .exchange hp hm
    next => cases h
  next hp =>
    obtain ⟨hr, rfl⟩ : _ ∧ _ := by simpa using h
    exact spinLock_step hp hr
  next hp => exact deleteFront_step hp h
  next hp =>
    obtain ⟨hr, rfl⟩ : _ ∧ _ := by simpa using h
    exact spinUnlock_step hp hr
  next hp =>
    cases h
    exact .clear hp
  next => cases h

theorem beside_step {x : Sched.Event C T × Sched.State C T P} (hx : Outside s.sched c x.1 x.2)
    (h : beside s c x = some (e, t)) : Step s e t := by
  rw [beside] at h
  split at h
  next hp =>
    cases h
    exact hx.toStep (prepared_of_prepares hp)
  next => cases h

/-- What a schedule says is a step. -/
theorem fire_step {m : Move C T} (h : fire s m = some (e, t)) : Step s e t := by
  cases m with
  | go c =>
    rw [fire, Option.orElse_eq_some] at h
    obtain h | ⟨-, h⟩ := h
    · exact inside_step h
    · obtain ⟨x, hx, h⟩ := Option.bind_eq_some_iff.mp h
      exact beside_step (next_outside hx) h
  | timer c =>
    obtain ⟨x, hx, h⟩ := Option.bind_eq_some_iff.mp h
    exact beside_step (interrupt_outside hx) h
  | deliver c =>
    obtain ⟨x, hx, h⟩ := Option.bind_eq_some_iff.mp h
    exact beside_step (interrupt_outside hx) h
  | call c u us =>
    rw [fire] at h
    split at h
    next hp =>
      split at h
      next hc =>
        cases h
        exact .append (.inl rfl) hp hc.1 hc.2.1 hc.2.2
      next => cases h
    next => cases h
  | block c =>
    rw [fire] at h
    split at h
    next hp hr =>
      cases h
      refine .aside (.publish hp hr) (fun d => ?_) fun w hw hw' => ?_
      · rcases eq_or_ne d c with rfl | hne
        · refine .inr ⟨by rw [hp]; rfl, ?_, ?_⟩ <;> simp [Sched.State.setPc, aside, Prepared]
        · exact .inl (update_of_ne hne _ _)
      · simp only [update_apply] at hw'
        split at hw'
        · cases hw'
        · cases hw.symm.trans hw'
    next => cases h
  | init c m =>
    rw [fire] at h
    split at h
    next hm =>
      have hm := places_of_puts hm
      split at h
      next hp =>
        split at h
        next heq =>
          subst heq
          cases h
          exact .initNext hm hp
        next => cases h
      next =>
        split at h
        next hold =>
          cases h
          exact .initLocked hm hold
        next => cases h
    next => cases h
  | word u v =>
    rw [fire] at h
    split at h
    next hb =>
      cases h
      exact .client hb
    next => cases h

instance [Fintype C] {s : State C T P} {e : Event C T} : Decidable (Ordered s e) :=
  match e with
  | .enter c => inferInstanceAs (Decidable (∀ d ≠ c, (s.sched.pc d).published = none))
  | .sched _ => .isTrue trivial

/-- A schedule as long as its steps are as wanted, with the events and the last state. -/
def play (wanted : State C T P → Event C T → Bool) (s : State C T P) :
    List (Move C T) → Option (List (Event C T) × State C T P)
  | [] => some ([], s)
  | m :: ms => (fire s m).bind fun (e, t) =>
    if wanted s e then (play wanted t ms).map fun (xs, r) => (e :: xs, r) else none

variable {wanted : State C T P → Event C T → Bool} {ms : List (Move C T)} {xs : List (Event C T)}

theorem play_run (h : play wanted s ms = some (xs, t)) :
    Run (fun s e t => Step s e t ∧ wanted s e) s xs t := by
  induction ms generalizing s xs with
  | nil =>
    obtain ⟨rfl, rfl⟩ : _ ∧ _ := by simpa [play] using h
    exact .refl
  | cons m ms ih =>
    obtain ⟨⟨e, r⟩, hr, h⟩ := Option.bind_eq_some_iff.mp h
    dsimp only at h
    split at h
    next hw =>
      obtain ⟨⟨ys, r'⟩, hplay, hxs⟩ := Option.map_eq_some_iff.mp h
      cases hxs
      exact (ih hplay).cons ⟨fire_step hr, hw⟩
    next => cases h

/-- A schedule that comes to its end is a run. -/
theorem run_of_play (ms : List (Move C T)) (q : State C T P → Prop) [DecidablePred q]
    (h : (play (fun _ _ => true) s ms).any fun r => q r.2) : ∃ xs t, Run Step s xs t ∧ q t := by
  obtain ⟨⟨xs, t⟩, hplay, hq⟩ := (Option.any_eq_true _ _).mp h
  exact ⟨xs, t, (play_run hplay).mono fun _ _ _ hs => hs.1, of_decide_eq_true hq⟩

/-- A schedule in which the cores enter the lock in order. -/
theorem ordered_of_play [Fintype C] (ms : List (Move C T)) (q : State C T P → Prop)
    [DecidablePred q] (h : (play (fun s e => Ordered s e) s ms).any fun r => q r.2) :
    ∃ xs t, Run OrderedStep s xs t ∧ q t := by
  obtain ⟨⟨xs, t⟩, hplay, hq⟩ := (Option.any_eq_true _ _).mp h
  refine ⟨xs, t, (play_run hplay).mono fun _ _ _ hs => ?_, of_decide_eq_true hq⟩
  exact ⟨hs.1, of_decide_eq_true hs.2⟩

end MyosIo.Sched.Memory
