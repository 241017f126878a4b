import MyosIo.Sched.Refinement

/-! Every step keeps what memory says, as long as the cores enter the lock in order. -/
namespace MyosIo.Sched.Memory

open Function AlList

variable {C T P : Type*} [DecidableEq C] [DecidableEq T] [Fintype C] {s t : State C T P} {c d : C}
  {l l' : FifoLock C (Node C T)} {e : Event C T} {u : T} {m : Node C T}
  {mem : Cell Unit T → Option T} {k : Consumer T} {lk : Spinlock.State C (Node C T)}

omit [DecidableEq C] [DecidableEq T] [Fintype C] in
theorem locking_of_aside {q : Pc T} (h : aside q) : q.locking = false := by
  cases q <;> first | rfl | cases h

omit [DecidableEq C] [DecidableEq T] [Fintype C] in
theorem owes_aside {p : Producer Unit T} {q : Pc T} (h : aside q) : Owes p q ↔ p = .idle := by
  cases q <;> first | rfl | cases h

omit [DecidableEq C] [DecidableEq T] [Fintype C] in
theorem deletes_aside {q : Pc T} (h : aside q) : Deletes k q ↔ k = .idle := by
  cases q <;> first | rfl | cases h

omit [Fintype C] in
/-- Only a core that enters the lock comes into it. -/
theorem entered (hs : Step s e t) (hc : (s.sched.pc c).locking = false)
    (ht : (t.sched.pc c).locking) : e = .enter c := by
  cases hs with
  | @aside e t hs hpc hword =>
    obtain hpc | ⟨-, haside, -⟩ := hpc c
    · rw [hpc, hc] at ht
      cases ht
    · cases ht.symm.trans (locking_of_aside haside)
  | @exchange c' cur m hp hm =>
    rcases eq_or_ne c c' with rfl | hne
    · rfl
    · simp only [Sched.State.setPc, update_of_ne hne] at ht
      rw [hc] at ht
      cases ht
  | _ =>
    exfalso
    simp only [State.setPc, State.setMtx, State.setCons, State.store,
      State.linkEnd, State.removed, State.released, Sched.State.setPc, Sched.State.append, chosen,
      update_apply] at ht
    grind -linarith [Pc.locking]

/-- What the scheduler needs of the step. -/
theorem Inv.base (hi : Inv l s) (hs : Step s e t) (ho : Ordered s e) :
    Tokens t.sched ∧ Placed t.sched ∧ Locked t.sched ∧ Behind t.sched ∧ Alone t.sched := by
  obtain ⟨hsame, -⟩ | hstep := hi.sim hs
  · rw [hsame]
    exact ⟨hi.tokens, hi.placed, hi.locked, hi.behind, hi.alone⟩
  · have horder : InOrder s.sched t.sched := by
      intro c hc ht d hd
      rw [entered hs hc ht] at ho
      exact ho d hd
    exact ⟨tokens_step hi.tokens hstep, placed_step hi.tokens.standing hi.placed hstep,
      locked_turn hi.locked hstep.turn,
      behind_turn hi.tokens hi.locked hi.behind hstep.turn horder,
      alone_step hi.placed hi.behind hi.alone hstep⟩

/-- A step of a core with its member. -/
theorem Inv.mtx (hi : Inv l s) (hl : Spinlock.Inv l lk) (hpc : ∀ d ≠ c, lk.pc d = s.mtx.pc d)
    (hc : AtLock c (lk.pc c) (s.sched.running c) (s.sched.pc c)) :
    Inv l { s with mtx := lk } := by
  refine ⟨hi.tokens, hi.placed, hi.locked, hi.behind, hi.alone, hl, hi.order, fun d => ?_, hi.owes,
    hi.deletes, hi.list, hi.words⟩
  rcases eq_or_ne d c with rfl | hne
  · exact hc
  · change AtLock d (lk.pc d) _ _
    rw [hpc d hne]
    exact hi.member d

/-- A step of a core in `al_delete_front_force`. -/
theorem Inv.consume (mem : Cell Unit T → Option T) (k : Consumer T) (hi : Inv l s)
    (hc : s.cons c ≠ .idle) (hr : removing (s.cons c) = none)
    (hk : k ≠ .idle) (hrk : removing k = none)
    (hlist : Listed s.mem s.last s.prod (s.cons c) s.sched.queue →
      Listed mem s.last s.prod k s.sched.queue)
    (hmem : ∀ u, mem (.node u) = s.mem (.node u)) :
    Inv l { s with mem := mem, cons := update s.cons c k } := by
  obtain ⟨cur, hp⟩ := hi.popping hc hr
  obtain ⟨⟨m, w, rfl⟩, hcons⟩ := hi.consumer_eq (c := c) (by rw [hp]; rfl)
  refine ⟨hi.tokens, hi.placed, hi.locked, hi.behind, hi.alone, hi.lock, hi.order, hi.member,
    hi.owes, fun d => ?_, ?_, fun d u hd => ?_⟩
  · rcases eq_or_ne d c with rfl | hne
    · change Deletes (update s.cons d k d) (s.sched.pc d)
      rw [update_self, hp]
      exact ⟨hrk, hk⟩
    · change Deletes (update s.cons c k d) (s.sched.pc d)
      rw [update_of_ne hne]
      exact hi.deletes d
  · have hconsumer : State.consumer { s with mem := mem, cons := update s.cons c k }
        ⟨some (c, m), w⟩ = k := update_self ..
    rw [hconsumer]
    exact hlist (hcons ▸ hi.list)
  · change _ ∨ _ ∨ mem (.node u) = none
    rw [hmem u]
    exact hi.words d u hd

/-- A step of core `c`: what has to be shown of the core and of its effect on the others. -/
theorem Inv.move (hi : Inv l s) (hs : Step s e t) (ho : Ordered s e) (c : C)
    (hothers : ∀ d ≠ c, t.sched.pc d = s.sched.pc d ∧ t.mtx.pc d = s.mtx.pc d ∧
      t.prod d = s.prod d ∧ t.cons d = s.cons d ∧ t.got d = s.got d)
    (hrun : t.sched.running = s.sched.running)
    (hlock : Spinlock.Inv l' t.mtx) (horder : l'.queue.map Prod.fst = t.sched.lock)
    (hmember : AtLock c (t.mtx.pc c) (s.sched.running c) (t.sched.pc c))
    (howes : Owes (t.prod c) (t.sched.pc c)) (hdeletes : Deletes (t.cons c) (t.sched.pc c))
    (hlist : Listed t.mem t.last t.prod (t.consumer l') t.sched.queue)
    (hwords : ∀ u, t.sched.hand c = some u → (∃ cur, t.sched.pc c = .unlock cur u) ∨
      (∃ cur, t.sched.pc c = .clear cur u ∧ t.got c ≠ none) ∨ t.mem (.node u) = none)
    (hmem : ∀ d ≠ c, ∀ u, s.sched.hand d = some u → s.mem (.node u) = none →
      t.mem (.node u) = none) : Inv l' t := by
  obtain ⟨htokens, hplaced, hlocked, hbehind, halone⟩ := hi.base hs ho
  refine ⟨htokens, hplaced, hlocked, hbehind, halone, hlock, horder, fun d => ?_, fun d => ?_,
    fun d => ?_, hlist, fun d u hd => ?_⟩
  all_goals rcases eq_or_ne d c with rfl | hne
  · rw [hrun]
    exact hmember
  · obtain ⟨hpc, hmtx, -⟩ := hothers d hne
    rw [hpc, hmtx, hrun]
    exact hi.member d
  · exact howes
  · obtain ⟨hpc, -, hprod, -⟩ := hothers d hne
    rw [hpc, hprod]
    exact hi.owes d
  · exact hdeletes
  · obtain ⟨hpc, -, -, hcons, -⟩ := hothers d hne
    rw [hpc, hcons]
    exact hi.deletes d
  · exact hwords u hd
  · obtain ⟨hpc, -, -, -, hgot⟩ := hothers d hne
    have hhand : s.sched.hand d = some u := by
      rw [← hd, Sched.State.hand, Sched.State.hand, hpc, hrun]
    rw [hpc, hgot]
    exact (hi.words d u hhand).imp_right (Or.imp_right (hmem d hne u hhand))

theorem Inv.of_aside {e : Sched.Event C T} {t : Sched.State C T P} (hi : Inv l s)
    (hs : Sched.Step s.sched e t)
    (hpc : ∀ c, t.pc c = s.sched.pc c ∨
      aside (s.sched.pc c) ∧ aside (t.pc c) ∧ Prepared c (s.mtx.pc c) (t.pc c))
    (hword : ∀ u, s.sched.blocked u = true → t.blocked u = false → s.mem (.node u) = none) :
    Inv l { s with sched := t } := by
  obtain ⟨htokens, hplaced, hlocked, hbehind, halone⟩ := hi.base (.aside hs hpc hword) trivial
  obtain ⟨hqueue, hlock⟩ := aside_frame hs fun c => (hpc c).imp_right fun h => ⟨h.1, h.2.1⟩
  refine ⟨htokens, hplaced, hlocked, hbehind, halone, hi.lock, hi.order.trans hlock.symm,
    atLock_aside hs hpc hi.member, fun d => ?_, fun d => ?_, ?_, fun d u hd => ?_⟩
  · obtain hd | ⟨hs, ht, -⟩ := hpc d
    · change Owes _ (t.pc d)
      rw [hd]
      exact hi.owes d
    · exact (owes_aside ht).mpr ((owes_aside hs).mp (hi.owes d))
  · obtain hd | ⟨hs, ht, -⟩ := hpc d
    · change Deletes _ (t.pc d)
      rw [hd]
      exact hi.deletes d
    · exact (deletes_aside ht).mpr ((deletes_aside hs).mp (hi.deletes d))
  · change Listed _ _ _ _ t.queue
    rw [hqueue]
    exact hi.list
  · obtain hh | ⟨hb, hb'⟩ | hq := hand_step hi.tokens.standing hs hd
    · obtain ⟨cur, hp⟩ | ⟨cur, hp, hgot⟩ | hnull := hi.words d u hh
      · obtain hd | ⟨hs, -⟩ := hpc d
        · exact .inl ⟨cur, hd.trans hp⟩
        · rw [hp] at hs
          cases hs
      · obtain hd | ⟨hs, -⟩ := hpc d
        · exact .inr (.inl ⟨cur, hd.trans hp, hgot⟩)
        · rw [hp] at hs
          cases hs
      · exact .inr (.inr hnull)
    · exact .inr (.inr (hword u hb hb'))
    · exact absurd (hqueue ▸ hq) (hplaced.not_queued hd)

/-- What the consumer has removed is in the hands of the core that has the lock. -/
theorem Inv.removing_hand (hi : Inv l s) (hr : removing (s.consumer l) = some u) :
    ∃ c cur, s.sched.pc c = .unlock cur u := by
  obtain ⟨holder, w⟩ := l
  cases holder with
  | none => cases hr
  | some x =>
    refine ⟨x.1, ?_⟩
    have hdel := hi.deletes x.1
    change removing (s.cons x.1) = some u at hr
    cases hp : s.sched.pc x.1 with
    | pop cur =>
      rw [hp] at hdel
      cases hdel.1.symm.trans hr
    | unlock cur t =>
      rw [hp] at hdel
      obtain ⟨next, hk⟩ := hdel
      rw [hk] at hr
      exact ⟨cur, congrArg _ (Option.some.inj hr)⟩
    | _ =>
      rw [hp] at hdel
      rw [show s.cons x.1 = .idle from hdel] at hr
      cases hr

/-- A thread in the hands of a core is in no place of the list. -/
theorem Inv.free_of_hand (hi : Inv l s) (hc : s.sched.hand c = some u)
    (hp : ∀ cur, s.sched.pc c ≠ .unlock cur u) :
    u ∉ s.sched.queue ∧ removing (s.consumer l) ≠ some u := by
  refine ⟨hi.placed.not_queued hc, fun hr => ?_⟩
  obtain ⟨d, cur, hd⟩ := hi.removing_hand hr
  have hand : s.sched.hand d = some u := by
    rw [Sched.State.hand, hd]
    rfl
  obtain rfl := hi.placed.hand_unique hc hand
  exact hp cur hd

/-- Neither is a thread on a wait queue. -/
theorem Inv.free_of_blocked (hi : Inv l s) (hb : s.sched.blocked u = true) :
    u ∉ s.sched.queue ∧ removing (s.consumer l) ≠ some u := by
  refine ⟨fun hq => ?_, fun hr => ?_⟩
  · cases hi.placed.place_unique (p := .listed) (q := .blocked) hq hb
  · obtain ⟨d, cur, hd⟩ := hi.removing_hand hr
    have hnot := hi.placed.not_blocked (c := d) (u := u) (by rw [Sched.State.hand, hd]; rfl)
    cases hnot.symm.trans hb

theorem Inv.of_client (hi : Inv l s) (hb : s.sched.blocked u = true) (v : Option T) :
    Inv l (s.store (.node u) v) := by
  obtain ⟨hq, hr⟩ := hi.free_of_blocked hb
  refine ⟨hi.tokens, hi.placed, hi.locked, hi.behind, hi.alone, hi.lock, hi.order, hi.member,
    hi.owes, hi.deletes, hi.list.client hq hr v, fun c w hc => ?_⟩
  have hne : Cell.node (K := Unit) w ≠ .node u := by
    rintro ⟨⟩
    cases (hi.placed.not_blocked hc).symm.trans hb
  refine (hi.words c w hc).imp_right (Or.imp_right fun hw => ?_)
  exact (update_of_ne hne _ _).trans hw

theorem Inv.of_stack (hi : Inv l s) (hp : s.sched.pc c = .run) (hr : s.sched.running c = some u)
    (sp : ℕ) (b : Bool) (n : Option (Node C T)) : Inv l { s with mtx := { s.mtx with
      isLocked := update s.mtx.isLocked (.below u sp) b
      next := update s.mtx.next (.below u sp) n } } := by
  have hhand : s.sched.hand c = some u := by rw [Sched.State.hand, hp]; exact hr
  refine hi.mtx (c := c) (Spinlock.inv_unused hi.lock (fun d hd => ?_) b n) (fun _ _ => rfl)
    (hi.member c)
  rcases eq_or_ne d c with rfl | hne
  · have hmember := hi.member d
    rw [hp] at hmember
    cases Stale.member hmember hd
  · exact hi.unused hhand hne sp hd

/-- A core that initialises its member is the only one that uses it. -/
theorem Inv.places_unused (hi : Inv l s) (hm : s.places c m) (hd : d ≠ c) :
    (s.mtx.pc d).member ≠ some m := by
  obtain ⟨-, rfl⟩ | ⟨hp, me, sp, hr, rfl⟩ := hm
  · intro hmember
    obtain hm | ⟨me, sp, hm, -⟩ := (hi.member d).member hmember
    · cases hm
      exact hd rfl
    · cases hm
  · exact hi.unused (by rw [Sched.State.hand, hp]; exact hr) hd sp

theorem Inv.of_initLocked (hi : Inv l s) (hm : s.places c m)
    (hold : (s.mtx.pc c).member = none ∨ (s.mtx.pc c).member = some (.core c)) :
    Inv l { s with mtx :=
      { s.mtx.setPc c (.initNext m) with isLocked := update s.mtx.isLocked m false } } := by
  have hqueued : (s.mtx.pc c).queued = none := by
    refine (hi.member c).queued ?_
    obtain ⟨hp, -⟩ | ⟨hp, -⟩ := hm <;> rw [hp] <;> rfl
  have hinit := Spinlock.inv_initLocked (m := m) (Spinlock.inv_forget hi.lock hqueued)
    (update_self ..) (fun d => by
      rcases eq_or_ne d c with rfl | hne
      · simp [Spinlock.State.setPc, Spinlock.Pc.member]
      · simpa [Spinlock.State.setPc, hne] using hi.places_unused hm hne)
  simp only [Spinlock.State.setPc, update_idem] at hinit
  refine hi.mtx (c := c) hinit (fun d hd => update_of_ne hd _ _) ?_
  obtain ⟨hp, rfl⟩ | ⟨hp, me, sp, hr, rfl⟩ := hm
  · rw [hp]
    exact .inr (.inl (update_self ..))
  · rw [hp]
    exact .inr ⟨me, sp, hr, .inl (update_self ..)⟩

theorem Inv.of_initNext (hi : Inv l s) (hm : s.places c m) (hp : s.mtx.pc c = .initNext m) :
    Inv l { s with mtx :=
      { s.mtx.setPc c (.ready m) with next := update s.mtx.next m none } } := by
  refine hi.mtx (c := c) (Spinlock.inv_initNext hi.lock hp) (fun d hd => update_of_ne hd _ _) ?_
  obtain ⟨hpc, rfl⟩ | ⟨hpc, me, sp, hr, rfl⟩ := hm
  · rw [hpc]
    exact .inr (.inr (update_self ..))
  · rw [hpc]
    exact .inr ⟨me, sp, hr, .inr (update_self ..)⟩

theorem Inv.of_linkLock {last : Node C T} (hi : Inv l s)
    (hm : s.mtx.pc c = .exchanged m (some last)) : Inv l { s with mtx :=
      { s.mtx.setPc c (.spin m) with next := update s.mtx.next last (some m) } } := by
  refine hi.mtx (c := c) (Spinlock.inv_link hi.lock hm) (fun d hd => update_of_ne hd _ _) ?_
  obtain ⟨cur, hk, ⟨hq, -⟩ | ⟨-, hp⟩ | ⟨t, -, hp | hp | hp | ⟨n, hp⟩⟩⟩ :=
    (hi.member c).keeps (m := m) (by rw [hm]; rfl)
  · rw [hq]
    exact ⟨m, hk, .inl (update_self ..)⟩
  all_goals cases hm.symm.trans hp

/-- The core that leaves the lock moves on without touching memory. -/
theorem Inv.of_unlock {p : Spinlock.Pc (Node C T)} (hi : Inv l s)
    (hl : Spinlock.Inv l (s.mtx.setPc c p))
    (hm : s.mtx.pc c = .held m ∧ (∃ cur t, s.sched.pc c = .unlock cur t) ∨ s.mtx.pc c = .cas m ∨
      s.mtx.pc c = .waitNext m)
    (hp : p = .cas m ∨ p = .waitNext m ∨ ∃ n, p = .grant m n) : Inv l (s.setMtx c p) := by
  refine hi.mtx (c := c) hl (fun d hd => update_of_ne hd _ _) ?_
  obtain ⟨cur, hk, hwhere⟩ := (hi.member c).keeps (m := m) (by
    obtain ⟨hm, -⟩ | hm | hm := hm <;> rw [hm] <;> rfl)
  obtain ⟨t, hq⟩ : ∃ t, s.sched.pc c = .unlock cur t := by
    obtain ⟨hq, hx | ⟨o, hx⟩⟩ | ⟨hq, hx⟩ | ⟨t, hq, -⟩ := hwhere
    · obtain ⟨hm, -⟩ | hm | hm := hm <;> cases hm.symm.trans hx
    · obtain ⟨hm, -⟩ | hm | hm := hm <;> cases hm.symm.trans hx
    · obtain ⟨-, cur', t, hq'⟩ | hm | hm := hm
      · cases hq.symm.trans hq'
      · cases hm.symm.trans hx
      · cases hm.symm.trans hx
    · exact ⟨t, hq⟩
  rw [hq]
  exact ⟨m, hk, .inr (by simpa [State.setMtx, Spinlock.State.setPc] using hp)⟩

/-- The word of a thread in the hands of a core is empty, unless the core has just removed it. -/
theorem Inv.word_null {u : T} (hi : Inv l s) (hh : s.sched.hand c = some u)
    (hp : ∀ cur, s.sched.pc c ≠ .unlock cur u ∧ s.sched.pc c ≠ .clear cur u) :
    s.mem (.node u) = none := by
  obtain ⟨cur, hw⟩ | ⟨cur, hw, -⟩ | hw := hi.words c u hh
  · exact absurd hw (hp cur).1
  · exact absurd hw (hp cur).2
  · exact hw

theorem Inv.of_append {t : T} {ts : List T} {e : Sched.Event C T} (hi : Inv l s)
    (he : e = .silent ∨ e = .keyboard c ∧ ts = []) (hp : s.sched.pc c = .run)
    (hnd : (t :: ts).Nodup) (hb : ∀ u ∈ t :: ts, s.sched.blocked u = true)
    (hlinks : (links Unit T).Stored s.mem (.node t) ts) :
    Inv l { s.exchangeEnd c t ((t :: ts).getLast (List.cons_ne_nil t ts)) with
      sched := (s.sched.append (t :: ts)).setPc c (.link (t :: ts)) } := by
  have hmember := hi.member c
  have howes := hi.owes c
  have hdeletes := hi.deletes c
  rw [hp] at hmember howes hdeletes
  have hlist := hi.list.append howes hnd (fun u hu => hi.free_of_blocked (hb u hu)) hlinks
  refine hi.move (.append he hp hnd hb hlinks) trivial c
    (fun d hd => ⟨update_of_ne hd _ _, rfl, update_of_ne hd _ _, rfl, rfl⟩) rfl hi.lock hi.order
    ?_ ?_ ?_ hlist (fun u hu => ?_) fun _ _ _ _ h => h
  · simp only [Sched.State.setPc, update_self]
    exact hmember
  · simp only [Sched.State.setPc, State.exchangeEnd, update_self]
    exact ⟨_, rfl⟩
  · simp only [Sched.State.setPc, update_self]
    exact hdeletes
  · have hhand : s.sched.hand c = some u := by
      rw [← hu, Sched.State.hand, Sched.State.hand, hp]
      simp [Sched.State.setPc, Sched.State.append, Pc.hand]
    exact .inr (.inr (hi.word_null hhand (by simp [hp])))

theorem Inv.of_tickAppend {me : T} (hi : Inv l s) (hp : s.sched.pc c = .tickAppend me) :
    Inv l { s.exchangeEnd c me me with
      sched := { s.sched.setPc c (.tickLink me) with queue := s.sched.queue ++ [me] } } := by
  have hmember := hi.member c
  have howes := hi.owes c
  have hdeletes := hi.deletes c
  rw [hp] at hmember howes hdeletes
  have hhand : s.sched.hand c = some me := by rw [Sched.State.hand, hp]; rfl
  have hword := hi.word_null hhand (by simp [hp])
  have hfree := hi.free_of_hand hhand (by simp [hp])
  have hlist := hi.list.append howes (show [me].Nodup from List.nodup_singleton me)
    (fun u hu => List.mem_singleton.mp hu ▸ hfree) hword
  refine hi.move (.tickAppend hp) trivial c
    (fun d hd => ⟨update_of_ne hd _ _, rfl, update_of_ne hd _ _, rfl, rfl⟩) rfl hi.lock hi.order
    ?_ ?_ ?_ hlist (fun u hu => ?_) fun _ _ _ _ h => h
  · simp only [Sched.State.setPc, update_self]
    exact hmember
  · simp only [Sched.State.setPc, State.exchangeEnd, update_self]
    exact ⟨_, rfl⟩
  · simp only [Sched.State.setPc, update_self]
    exact hdeletes
  · simp [Sched.State.hand, Sched.State.setPc, Pc.hand] at hu

theorem Inv.of_linkEnd {t : T} {d : Cell Unit T} {q : Pc T} (hi : Inv l s)
    (hs : Step s (.sched .silent) ((s.linkEnd c t d).setPc c q)) (hl : s.prod c = .store t d)
    (hmember : AtLock c (s.mtx.pc c) (s.sched.running c) q) (hq : aside q) (hc : s.cons c = .idle)
    (hhand : ∀ u, q.hand (s.sched.running c) = some u →
      s.sched.hand c = some u ∧ s.mem (.node u) = none) :
    Inv l ((s.linkEnd c t d).setPc c q) := by
  have hother : ∀ c u, s.sched.hand c = some u → s.mem (.node u) = none →
      update s.mem d (some t) (.node u) = none := by
    intro c u hu hnull
    refine (update_of_ne ?_ _ _).trans hnull
    rintro rfl
    exact hi.placed.not_queued hu (hi.list.owed_cell hl)
  refine hi.move hs trivial c
    (fun d hd => ⟨update_of_ne hd _ _, rfl, update_of_ne hd _ _, rfl, rfl⟩) rfl hi.lock hi.order
    ?_ ?_ ?_ (hi.list.link hl) (fun u hu => ?_) fun d _ u hu => hother d u hu
  · simp only [State.setPc, Sched.State.setPc, update_self]
    exact hmember
  · simp only [State.setPc, Sched.State.setPc, State.linkEnd, update_self]
    exact (owes_aside hq).mpr rfl
  · simp only [State.setPc, Sched.State.setPc, update_self]
    exact (deletes_aside hq).mpr hc
  · obtain ⟨hu, hnull⟩ := hhand u (by
      simpa [State.setPc, State.linkEnd, State.store, Sched.State.setPc, Sched.State.hand] using hu)
    exact .inr (.inr (hother c u hu hnull))

theorem Inv.of_link {t : T} {ts : List T} {d : Cell Unit T} (hi : Inv l s)
    (hp : s.sched.pc c = .link ts) (hl : s.prod c = .store t d) :
    Inv l ((s.linkEnd c t d).setPc c (.incNum ts.length)) := by
  have hmember := hi.member c
  have hdeletes := hi.deletes c
  rw [hp] at hmember hdeletes
  refine hi.of_linkEnd (.link hp hl) hl hmember rfl hdeletes fun u hu => ?_
  have hhand : s.sched.hand c = some u := by rw [Sched.State.hand, hp]; exact hu
  exact ⟨hhand, hi.word_null hhand (by simp [hp])⟩

theorem Inv.of_tickLink {me : T} {d : Cell Unit T} (hi : Inv l s)
    (hp : s.sched.pc c = .tickLink me) (hl : s.prod c = .store me d) :
    Inv l ((s.linkEnd c me d).setPc c (.lock (some me))) := by
  have hmember := hi.member c
  have hdeletes := hi.deletes c
  rw [hp] at hmember hdeletes
  obtain ⟨sp, hm⟩ := hmember
  exact hi.of_linkEnd (.tickLink hp hl) hl ⟨_, ⟨sp, rfl⟩, hm⟩ rfl hdeletes nofun

theorem Inv.of_exchange {cur : Option T} (hi : Inv l s) (hp : s.sched.pc c = .lock cur)
    (hm : s.mtx.pc c = .ready m) (ho : Ordered s (.enter c)) : ∃ l', Inv l' { s with
      sched := { s.sched.setPc c (.spin cur) with lock := s.sched.lock ++ [c] }
      mtx := { s.mtx.setPc c (.exchanged m s.mtx.lock) with lock := some m } } := by
  have hmember := hi.member c
  have howes := hi.owes c
  have hdeletes := hi.deletes c
  rw [hp] at hmember howes hdeletes
  obtain ⟨m', hk, hm'⟩ := hmember
  obtain rfl : m = m' := by
    rw [hm] at hm'
    exact Spinlock.Pc.ready.inj hm'
  have hqueue : FifoLock.queue { l with waiting := l.waiting ++ [(c, m)] } = l.queue ++ [(c, m)] :=
    (List.append_assoc ..).symm
  refine ⟨_, hi.move (.exchange hp hm) ho c
    (fun d hd => ⟨update_of_ne hd _ _, update_of_ne hd _ _, rfl, rfl, rfl⟩) rfl
    (Spinlock.inv_exchange hi.lock hm) ?_ ?_ ?_ ?_ hi.list (fun u hu => ?_) fun _ _ _ _ h => h⟩
  · rw [hqueue, List.map_append, hi.order]
    rfl
  · simp only [Sched.State.setPc, Spinlock.State.setPc, update_self]
    exact ⟨m, hk, .inr ⟨_, rfl⟩⟩
  · simp only [Sched.State.setPc, update_self]
    exact howes
  · simp only [Sched.State.setPc, update_self]
    exact hdeletes
  · simp [Sched.State.hand, Sched.State.setPc, Pc.hand] at hu

/-- A core takes the lock it may take, and calls `al_delete_front_force`. -/
theorem Inv.of_acquire {cur : Option T} (hi : Inv l s)
    (hs : Step s (.sched .silent)
      (((s.setMtx c (.held m)).setPc c (.pop cur)).setCons c .forceLoadHead))
    (hp : s.sched.pc c = .spin cur) (hg : Spinlock.Granted s.mtx m (s.mtx.pc c)) :
    ∃ l', Inv l' (((s.setMtx c (.held m)).setPc c (.pop cur)).setCons c .forceLoadHead) := by
  have howes := hi.owes c
  have hdeletes := hi.deletes c
  rw [hp] at howes hdeletes
  obtain ⟨w, rfl, -⟩ := hi.lock.granted hg
  obtain ⟨l', hl', hlock⟩ := Spinlock.inv_acquire hi.lock hg
  cases hl'
  obtain ⟨cur', hk, ⟨hq, -⟩ | ⟨hq, -⟩ | ⟨t, hq, -⟩⟩ := (hi.member c).keeps (m := m) (by
    obtain hm | ⟨hm, -⟩ := hg <;> rw [hm] <;> rfl)
  · obtain rfl : cur = cur' := by
      rw [hp] at hq
      exact Pc.spin.inj hq
    refine ⟨_, hi.move hs trivial c
      (fun d hd => ⟨update_of_ne hd _ _, update_of_ne hd _ _, rfl, update_of_ne hd _ _, rfl⟩) rfl
      hlock hi.order ?_ ?_ ?_ ?_ (fun u hu => ?_) fun _ _ _ _ h => h⟩
    · simp only [State.setCons, State.setPc, State.setMtx, Sched.State.setPc,
        Spinlock.State.setPc, update_self]
      exact ⟨m, hk, rfl⟩
    · simp only [State.setCons, State.setPc, State.setMtx, Sched.State.setPc, update_self]
      exact howes
    · simp only [State.setCons, State.setPc, State.setMtx, Sched.State.setPc, update_self]
      exact ⟨rfl, by simp⟩
    · have hconsumer : State.consumer (((s.setMtx c (.held m)).setPc c (.pop cur)).setCons c
          .forceLoadHead) ⟨some (c, m), w⟩ = .forceLoadHead := update_self ..
      rw [hconsumer]
      exact hi.list.advance (k := .idle) rfl fun s _ _ hc => .callForce hc
    · simp [State.setCons, State.setPc, State.setMtx, Sched.State.hand, Sched.State.setPc,
        Pc.hand] at hu
  · cases hp.symm.trans hq
  · cases hp.symm.trans hq

/-- `al_delete_front_force` takes a thread out of the list. -/
theorem Inv.of_removed {cur last next : Option T} {h : T} (hi : Inv l s)
    (hs : Step s (.sched (.remove c h))
      (State.removed { s with mem := mem, last := last } c cur h next))
    (hp : s.sched.pc c = .pop cur)
    (hlist : Listed mem last s.prod (.ret h next) (s.sched.queue.erase h))
    (hmem : ∀ u, mem (.node u) = s.mem (.node u)) :
    Inv l (State.removed { s with mem := mem, last := last } c cur h next) := by
  obtain ⟨⟨m, w, rfl⟩, -⟩ := hi.consumer_eq (c := c) (by rw [hp]; rfl)
  have hmember := hi.member c
  have howes := hi.owes c
  rw [hp] at hmember howes
  obtain ⟨m', hk, hm⟩ := hmember
  refine hi.move hs trivial c
    (fun d hd => ⟨update_of_ne hd _ _, rfl, rfl, update_of_ne hd _ _, rfl⟩) rfl hi.lock hi.order
    ?_ ?_ ?_ ?_ (fun u hu => ?_) fun d _ u _ hnull => (hmem u).trans hnull
  · simp only [State.removed, State.setCons, Sched.State.setPc, update_self]
    exact ⟨m', hk, .inl hm⟩
  · simp only [State.removed, State.setCons, Sched.State.setPc, update_self]
    exact howes
  · simp only [State.removed, State.setCons, Sched.State.setPc, update_self]
    exact ⟨next, rfl⟩
  · have hconsumer : State.consumer (State.removed { s with mem := mem, last := last } c cur h
        next) ⟨some (c, m), w⟩ = .ret h next := update_self ..
    rw [hconsumer]
    exact hlist
  · obtain rfl : h = u := by
      simpa [State.removed, State.setCons, Sched.State.hand, Sched.State.setPc, Pc.hand] using hu
    exact .inl ⟨cur, update_self ..⟩

/-- The core leaves the lock. -/
theorem Inv.of_released {cur next : Option T} {t : T} (hi : Inv l s)
    (hs : Step s (.sched .silent) (State.released { s with mtx := lk } c cur t next))
    (hp : s.sched.pc c = .unlock cur t) (hc : s.cons c = .ret t next)
    (hl : Spinlock.Inv l' lk) (hpc : lk.pc = update s.mtx.pc c .idle) (hfree : l'.holder = none)
    (horder : s.sched.lock = c :: l'.queue.map Prod.fst) :
    Inv l' (State.released { s with mtx := lk } c cur t next) := by
  have howes := hi.owes c
  rw [hp] at howes
  have hlist := hi.list
  rw [(hi.consumer_eq (c := c) (by rw [hp]; rfl)).2, hc] at hlist
  refine hi.move hs trivial c
    (fun d hd => ⟨update_of_ne hd _ _, ?_, rfl, update_of_ne hd _ _, update_of_ne hd _ _⟩) rfl hl
    ?_ ?_ ?_ ?_ ?_ (fun u hu => ?_) fun _ _ _ _ h => h
  · exact (congrFun hpc d).trans (update_of_ne hd _ _)
  · change _ = s.sched.lock.erase c
    rw [horder, List.erase_cons_head]
  · simp only [State.released, State.setCons, Sched.State.setPc, update_self, hpc]
    exact .inl rfl
  · simp only [State.released, State.setCons, Sched.State.setPc, update_self]
    exact howes
  · simp only [State.released, State.setCons, Sched.State.setPc, update_self]
    rfl
  · have hconsumer : State.consumer (State.released { s with mtx := lk } c cur t next) l' =
        .idle := by rw [State.consumer, hfree]
    rw [hconsumer]
    exact hlist.ret
  · obtain rfl : t = u := by
      simpa [State.released, State.setCons, Sched.State.hand, Sched.State.setPc, Pc.hand] using hu
    cases next with
    | none => exact .inr (.inr hlist.ret_none)
    | some n =>
      refine .inr (.inl ⟨cur, update_self .., ?_⟩)
      simp [State.released, State.setCons]

theorem Inv.of_clear {cur : Option T} {t : T} (hi : Inv l s) (hp : s.sched.pc c = .clear cur t) :
    Inv l { s.setPc c (chosen cur t) with
      mem := if s.got c = none then s.mem else update s.mem (.node t) none } := by
  have hmember := hi.member c
  have howes := hi.owes c
  have hdeletes := hi.deletes c
  rw [hp] at hmember howes hdeletes
  have hhand : s.sched.hand c = some t := by rw [Sched.State.hand, hp]; rfl
  have hplace : aside (chosen cur t) ∧ (chosen cur t).hand (s.sched.running c) = some t ∧
      (AtLock c (s.mtx.pc c) (s.sched.running c) (chosen cur t) ↔ Stale c (s.mtx.pc c)) := by
    cases cur <;> exact ⟨rfl, rfl, Iff.rfl⟩
  refine hi.move (.clear hp) trivial c (fun d hd => ⟨update_of_ne hd _ _, rfl, rfl, rfl, rfl⟩) rfl
    hi.lock hi.order ?_ ?_ ?_ ?_ (fun u hu => .inr (.inr ?_)) fun d hd u hu hnull => ?_
  · simp only [State.setPc, Sched.State.setPc, update_self]
    exact hplace.2.2.mpr hmember
  · simp only [State.setPc, Sched.State.setPc, update_self]
    exact (owes_aside hplace.1).mpr howes
  · simp only [State.setPc, Sched.State.setPc, update_self]
    exact (deletes_aside hplace.1).mpr hdeletes
  · obtain ⟨hq, hr⟩ := hi.free_of_hand hhand (by simp [hp])
    change Listed (if s.got c = none then s.mem else update s.mem (.node t) none) _ _ _ _
    split
    · exact hi.list
    · exact hi.list.client hq hr none
  · obtain rfl : t = u := by
      simpa [State.setPc, Sched.State.hand, Sched.State.setPc, hplace.2.1] using hu
    change (if s.got c = none then s.mem else update s.mem (.node t) none) (.node t) = none
    split
    next hgot =>
      obtain ⟨_, hw⟩ | ⟨_, -, hw⟩ | hw := hi.words c t hhand
      · cases hp.symm.trans hw
      · exact absurd hgot hw
      · exact hw
    next => exact update_self ..
  · change (if s.got c = none then s.mem else update s.mem (.node t) none) (.node u) = none
    have hne : Cell.node (K := Unit) u ≠ .node t := by
      rintro ⟨⟩
      exact hd (hi.placed.hand_unique hu hhand)
    split
    · exact hnull
    · exact (update_of_ne hne _ _).trans hnull

/-- A lock that nobody waits for is left. -/
theorem Inv.of_cas {cur next : Option T} {t : T} (hi : Inv l s) (hp : s.sched.pc c = .unlock cur t)
    (hc : s.cons c = .ret t next) (hm : s.mtx.pc c = .cas m) (hl : s.mtx.lock = some m) :
    ∃ l', Inv l' (State.released { s with mtx :=
      { s.mtx.setPc c .idle with lock := none } } c cur t next) := by
  obtain ⟨m', w, rfl⟩ := (hi.consumer_eq (c := c) (by rw [hp]; rfl)).1
  obtain ⟨l', hfree, hlock⟩ := Spinlock.inv_casOk hi.lock hm hl
  cases hfree
  have hforget := Spinlock.inv_forget (c := c) hlock
    (by simp [Spinlock.State.setPc, Spinlock.Pc.queued])
  simp only [Spinlock.State.setPc, update_idem] at hforget
  exact ⟨_, hi.of_released (.cas hp hc hm hl) hp hc hforget rfl rfl hi.order.symm⟩

/-- The lock is handed over. -/
theorem Inv.of_grant {cur next : Option T} {t : T} {n : Node C T} (hi : Inv l s)
    (hp : s.sched.pc c = .unlock cur t) (hc : s.cons c = .ret t next)
    (hm : s.mtx.pc c = .grant m n) : ∃ l', Inv l' (State.released { s with mtx :=
      { s.mtx.setPc c .idle with isLocked := update s.mtx.isLocked n true } } c cur t next) := by
  obtain ⟨m', w, rfl⟩ := (hi.consumer_eq (c := c) (by rw [hp]; rfl)).1
  obtain ⟨l', hhand, hlock⟩ := Spinlock.inv_grant hi.lock hm
  cases hhand
  exact ⟨_, hi.of_released (.grant hp hc hm) hp hc hlock rfl rfl hi.order.symm⟩

theorem Inv.step (hi : Inv l s) (hs : Step s e t) (ho : Ordered s e) : ∃ l', Inv l' t := by
  cases hs with
  | aside hs hpc hword => exact ⟨l, hi.of_aside hs hpc hword⟩
  | client hb => exact ⟨l, hi.of_client hb _⟩
  | stack hp hr => exact ⟨l, hi.of_stack hp hr _ _ _⟩
  | append he hp hnd hb hlinks => exact ⟨l, hi.of_append he hp hnd hb hlinks⟩
  | link hp hl => exact ⟨l, hi.of_link hp hl⟩
  | initLocked hm hold => exact ⟨l, hi.of_initLocked hm hold⟩
  | initNext hm hp => exact ⟨l, hi.of_initNext hm hp⟩
  | tickAppend hp => exact ⟨l, hi.of_tickAppend hp⟩
  | tickLink hp hl => exact ⟨l, hi.of_tickLink hp hl⟩
  | exchange hp hm => exact hi.of_exchange hp hm ho
  | fast hp hm => exact hi.of_acquire (.fast hp hm) hp (.inl hm)
  | linkLock hm => exact ⟨l, hi.of_linkLock hm⟩
  | spin hp hm hl => exact hi.of_acquire (.spin hp hm hl) hp (.inr ⟨hm, hl⟩)
  | loadHead hc hm =>
    refine ⟨l, hi.consume s.mem (.forceLoadEnd _) (by rw [hc]; nofun)
      (by rw [hc]; rfl) nofun rfl (fun h => ?_) fun _ => rfl⟩
    rw [hc] at h
    exact h.advance rfl fun r hmem _ hcons => .forceHead hcons (by rw [hmem]; exact hm)
  | @loadEnd c h hc =>
    refine ⟨l, hi.consume s.mem (if s.last = some h then .storeNull h else .loadNext h)
      (by rw [hc]; nofun) (by rw [hc]; rfl) (by split <;> nofun) (by split <;> rfl)
      (fun hlist => ?_) fun _ => rfl⟩
    rw [hc] at hlist
    refine hlist.advance (by split <;> rfl) fun r _ hlast hcons => ?_
    rw [← hlast]
    exact .forceEnd hcons
  | storeNull hc =>
    refine ⟨l, hi.consume _ (.casEnd _) (by rw [hc]; nofun) (by rw [hc]; rfl) nofun rfl
      (fun h => ?_) fun _ => rfl⟩
    rw [hc] at h
    exact h.storeNull
  | @casOk c cur h hp hc he =>
    have hlist := hi.list
    rw [(hi.consumer_eq (c := c) (by rw [hp]; rfl)).2, hc] at hlist
    obtain ⟨hq, hlist⟩ := hlist.casOk he
    refine ⟨l, hi.of_removed (.casOk hp hc he) hp ?_ fun _ => rfl⟩
    rw [hq, List.erase_cons_head]
    exact hlist
  | casFail hc he =>
    refine ⟨l, hi.consume s.mem (.loadNext _) (by rw [hc]; nofun) (by rw [hc]; rfl)
      nofun rfl (fun h => ?_) fun _ => rfl⟩
    rw [hc] at h
    exact h.advance rfl fun r _ hlast hcons => .casFail hcons (by rw [hlast]; exact he)
  | loadNext hc hm =>
    refine ⟨l, hi.consume s.mem (.storeHead _ _) (by rw [hc]; nofun) (by rw [hc]; rfl)
      nofun rfl (fun h => ?_) fun _ => rfl⟩
    rw [hc] at h
    exact h.advance rfl fun r hmem _ hcons => .loadNext hcons (by rw [hmem]; exact hm)
  | @storeHead c cur h n hp hc =>
    have hlist := hi.list
    rw [(hi.consumer_eq (c := c) (by rw [hp]; rfl)).2, hc] at hlist
    obtain ⟨q, hq, -, hlist⟩ := hlist.storeHead
    refine ⟨l, hi.of_removed (.storeHead hp hc) hp ?_ fun _ => rfl⟩
    rw [hq, List.erase_cons_head]
    exact hlist
  | load hp hm =>
    refine ⟨l, hi.of_unlock (Spinlock.inv_load hi.lock hm) (.inl ⟨hm, _, _, hp⟩) ?_⟩
    split
    · exact .inl rfl
    · exact .inr (.inl rfl)
  | cas hp hc hm hl => exact hi.of_cas hp hc hm hl
  | casLost hm hl =>
    exact ⟨l, hi.of_unlock (Spinlock.inv_casFail hi.lock hm hl) (.inr (.inl hm)) (.inr (.inl rfl))⟩
  | waitNext hm hn =>
    exact ⟨l, hi.of_unlock (Spinlock.inv_waitNext hi.lock hm hn) (.inr (.inr hm))
      (.inr (.inr ⟨_, rfl⟩))⟩
  | grant hp hc hm => exact hi.of_grant hp hc hm
  | clear hp => exact ⟨l, hi.of_clear hp⟩

variable {bsp : C} {main : T} {proc : C → P} {isLocked : Node C T → Bool}
  {next : Node C T → Option (Node C T)} {xs : List (Event C T)}

theorem inv_boot : Inv FifoLock.empty (boot bsp main proc isLocked next) := by
  refine ⟨tokens_boot, placed_boot, locked_boot, behind_boot, alone_boot,
    Spinlock.inv_initial isLocked next, rfl, fun c => ?_, fun c => ?_, fun c => ?_, listed_boot,
    fun c u _ => .inr (.inr rfl)⟩
  · change AtLock c _ _ ((Sched.boot bsp main proc).pc c)
    obtain hp | hp := pc_boot bsp main proc c <;> rw [hp] <;> exact .inl rfl
  · change Owes _ ((Sched.boot bsp main proc).pc c)
    obtain hp | hp := pc_boot bsp main proc c <;> rw [hp] <;> rfl
  · change Deletes _ ((Sched.boot bsp main proc).pc c)
    obtain hp | hp := pc_boot bsp main proc c <;> rw [hp] <;> rfl

/-- What memory says is kept along every run in which the cores enter the lock in order. -/
theorem Inv.run (hi : Inv l s) (h : Run OrderedStep s xs t) : ∃ l', Inv l' t := by
  induction h with
  | refl => exact ⟨l, hi⟩
  | step _ hs ih =>
    obtain ⟨l', hi'⟩ := ih
    exact hi'.step hs.1 hs.2

theorem run_inv (h : Run OrderedStep (boot bsp main proc isLocked next) xs s) : ∃ l, Inv l s :=
  inv_boot.run h

/-- The lock in memory is the queue spinlock: it serves the cores in the order of `Sched.Step`, and
the core that is served is its holder. -/
theorem run_lock (h : Run OrderedStep (boot bsp main proc isLocked next) xs s) :
    ∃ l, Spinlock.Inv l s.mtx ∧ l.queue.map Prod.fst = s.sched.lock ∧
      ∀ c, (s.sched.pc c).serving → ∃ m, l.holder = some (c, m) := by
  obtain ⟨l, hi⟩ := run_inv h
  refine ⟨l, hi.lock, hi.order, fun c hc => ?_⟩
  obtain ⟨⟨m, w, rfl⟩, -⟩ := hi.consumer_eq hc
  exact ⟨m, rfl⟩

end MyosIo.Sched.Memory
