import MyosIo.Mutex.Calls

/-! What the calls of a thread have returned to it, and what `count` says of it. -/
namespace MyosIo.Mutex

open Function

variable {K T : Type*}

def Event.acquires : Event K → Bool
  | .ret (.lock _) .success => true
  | _ => false

def Event.releases : Event K → Bool
  | .ret .unlock .success => true
  | _ => false

/-- A lock routine is past its first look. -/
def Call.gets : Call K → Pc K T → Bool
  | .lock _, .out => false
  | .lock _, _ => true
  | _, _ => false

/-- `mtx_unlock` or `cnd_wait` has found the thread to be the owner. -/
def Call.gives : Call K → Pc K T → Bool
  | .unlock, .out => false
  | .unlock, _ => true
  | .wait _, .out | .wait _, .waitOwner _ => false
  | .wait _, _ => true
  | _, _ => false

def Calls.gets (s : Calls K T) (x : T) : Bool := (s.frame x).any fun f => f.call.gets (s.base.pc x)

def Calls.gives (s : Calls K T) (x : T) : Bool :=
  (s.frame x).any fun f => f.call.gives (s.base.pc x)

/-- What makes a call return `thrd_error`, in the state it was made in. -/
def Frame.fails (f : Frame K T) (x : T) : Prop :=
  match f.call with
  | .lock _ => f.start.core.owner = some x ∧ (f.start.count = 0 ∨ f.start.count = sizeMax)
  | .unlock | .wait _ => f.start.core.owner ≠ some x
  | .broadcast _ => False

variable [DecidableEq T] {q q' : Queue T T} {loc loc' : T → Loc K T}
  {s t : State K T} {a x : T} {l : Act K T}

/-- The calls by which the thread has got the mutex, and those by which it has given it back. -/
def acquired (xs : List (T × Event K)) (x : T) : ℕ := xs.countP fun e => e.1 = x ∧ e.2.acquires

def released (xs : List (T × Event K)) (x : T) : ℕ := xs.countP fun e => e.1 = x ∧ e.2.releases

variable {u v : Calls K T} {xs : List (T × Event K)} {e : Event K} {recursive : Bool}

theorem acquired_snoc : acquired (xs ++ [(a, e)]) x =
    acquired xs x + if a = x ∧ e.acquires then 1 else 0 := by
  by_cases h : a = x ∧ e.acquires <;> simp [acquired, List.countP_append, h]

theorem released_snoc : released (xs ++ [(a, e)]) x =
    released xs x + if a = x ∧ e.releases then 1 else 0 := by
  by_cases h : a = x ∧ e.releases <;> simp [released, List.countP_append, h]

/-- What a thread has acquired and released by the calls that have returned. -/
structure Balance (q : Queue T T) (xs : List (T × Event K)) (u : Calls K T) (x : T) : Prop where
  outside : u.frame x = none → u.base.pc x = .out
  fits : ∀ f, u.frame x = some f → f.call.fits (u.base.pc x)
  has : Has q u.base x →
    acquired xs x + (u.gets x).toNat = released xs x + max 1 u.base.count
  hasNot : ¬ Has q u.base x → acquired xs x = released xs x + (u.gives x).toNat
  fresh : u.base.pc x = .lockSlow ∨ (∃ b, u.base.pc x = .lockFast b) →
    (u.base.core.op x).phase ≠ .owned x → ¬ Has q u.base x
  deep : ∀ k b, u.base.pc x = .waitAppend k b ∨ u.base.pc x = .waitLink k b →
    b = decide (1 < u.base.count)

/-- What a call knows of the state it was made in. -/
structure Verdict (recursive : Bool) (q : Queue T T) (u : Calls K T) (x : T) : Prop where
  seen : ∀ f, u.frame x = some f → (u.base.pc x).readsOwner →
    (f.start.core.owner = some x ↔ u.base.core.owner = some x) ∧
      (u.base.core.owner = some x → f.start.count = u.base.count)
  judged : ∀ f, u.frame x = some f → ¬ (u.base.pc x).readsOwner → ¬ f.fails x
  fast : ∀ f b, u.frame x = some f → u.base.pc x = .lockFast b → f.start.core.owner ≠ some x
  kept : ∀ f, u.frame x = some f →
    (u.base.pc x).readsOwner ∨ (u.base.core.op x).phase.quick → f.kept
  waits : ∀ f k, u.frame x = some f → f.call = .wait k → f.start.core.owner = some x →
    1 < f.start.count → Has q u.base x ∧ u.base.count = f.start.count
  start : ∀ f, u.frame x = some f → (f.start.count = 0 ↔ recursive = false)

/-- The accounts of all threads. -/
structure Books (recursive : Bool) (q : Queue T T) (xs : List (T × Event K)) (u : Calls K T) :
    Prop where
  kind : u.base.count = 0 ↔ recursive = false
  low : (∀ x, ¬ Has q u.base x) → u.base.count ≤ 1
  balance : ∀ x, Balance q xs u x
  verdict : ∀ x, Verdict recursive q u x

/-- What the step of another thread leaves of a thread. -/
structure Still (q : Queue T T) (s : State K T) (q' : Queue T T) (t : State K T) (x : T) :
    Prop where
  pc : t.pc x = s.pc x ∨ (s.pc x).sleeps ∧ (t.pc x = .ready ∨ t.pc x = .ret)
  op : t.core.op x = s.core.op x
  has : Has q s x → Has q' t x ∧ t.count = s.count
  gain : Has q' t x → Has q s x ∨ (∀ y, ¬ Has q s y) ∧ s.pc x = .asleep false ∧ t.count = s.count
  owner : (s.pc x).readsOwner → (t.core.owner = some x ↔ s.core.owner = some x)

omit [DecidableEq T] in
theorem Has.unique {y : T} (hx : Has q s x) (hy : Has q s y) : x = y :=
  Option.some.inj (hx.1.symm.trans hy.1)

/-- `count` is changed by the holder, and stays what `mtx_init` has made of it. -/
theorem Inv.count_step [DecidableEq K] (hI : Inv q loc s) (hs : Step s (a, l) t) :
    (t.count = s.count ∨ Has q s a ∧ l = .silent) ∧ (t.count = 0 ↔ s.count = 0) := by
  have hhas (hp : s.pc a = .out) (ho : s.core.owner = some a) : Has q s a :=
    (hI.has_iff_owner (by rw [hp]; trivial)).mpr ho
  cases hs with
  | lockAgain hp ho hc => exact ⟨.inr ⟨hhas hp ho, rfl⟩, by simp [hc.1]⟩
  | unlockAgain hp ho hc =>
    refine ⟨.inr ⟨hhas hp ho, rfl⟩, ?_⟩
    show s.count - 1 = 0 ↔ _
    omega
  | _ => exact ⟨.inl rfl, Iff.rfl⟩

theorem Inv.still [DecidableEq K] (hI : Inv q loc s) (hI' : Inv q' loc' t) (hs : Step s (a, l) t)
    (hf : Fair q.fair l.ev q'.fair) (hx : x ≠ a) : Still q s q' t x := by
  have hhas := has_step (x := x) hI hI' hs hf
  have hpc := hI.pc_of_ne hs hx
  have hcount := (hI.count_step hs).1
  have hgain (h : l = .words (.own x)) : (∀ y, ¬ Has q s y) ∧ s.pc x = .asleep false := by
    subst h
    have hw : s.core.Step (a, .own x) t.core := by
      cases hs with
      | words hs => exact hs
    obtain ⟨hno, hp⟩ := hI.own_place hw
    exact ⟨hno, hp.resolve_right fun h => hx h.1⟩
  refine ⟨hpc, hs.op_of_ne hx, fun h => ⟨hhas.mpr (.inr ⟨h, fun h' => hx h'.2⟩), ?_⟩, fun h => ?_,
    fun hr => ?_⟩
  · exact hcount.resolve_right fun h' => hx (h.unique h'.1)
  · rcases hhas.mp h with h | h
    · obtain ⟨hno, hp⟩ := hgain h
      exact .inr ⟨hno, hp, hcount.resolve_right fun h' => hno a h'.1⟩
    · exact .inl h.1
  · have hns : ¬ (s.pc x).sleeps := by
      cases hp : s.pc x <;> simp_all [Pc.readsOwner, Pc.sleeps]
    have hp := hpc.resolve_right fun h => hns h.1
    rw [← hI.has_iff_owner hr, ← hI'.has_iff_owner (hp ▸ hr), hhas]
    constructor
    · rintro (h | h)
      · rw [(hgain h).2] at hr
        exact hr.elim
      · exact h.1
    · exact fun h => .inr ⟨h, fun h' => hx h'.2⟩

omit [DecidableEq T] in
theorem Still.of_eq (h : q' = q) (h' : t = s) : Still q s q' t x := by
  subst h h'
  exact ⟨.inl rfl, rfl, fun h => ⟨h, rfl⟩, .inl, fun _ => Iff.rfl⟩

omit [DecidableEq T] in
/-- A thread that sleeps or is woken is in one of these. -/
theorem Call.fits_asleep {r : Call K} {d : Bool} (h : r.fits (.asleep d : Pc K T)) :
    (r = .lock false ∨ ∃ k, r = .wait k) ∧ r.fits (.ready : Pc K T) ∧ r.fits (.ret : Pc K T) := by
  cases r with
  | lock b => cases d <;> cases b <;> simp_all [Call.fits]
  | _ => simp_all [Call.fits, Pc.ofWait, Pc.ofBroadcast]

omit [DecidableEq T] in
theorem Still.look (hs : Still q s q' t x) (r : Call K) :
    r.gets (t.pc x) = r.gets (s.pc x) ∧ r.gives (t.pc x) = r.gives (s.pc x) := by
  rcases hs.pc with h | ⟨h, h' | h'⟩
  · simp [h]
  · cases hp : s.pc x <;> cases r <;> simp_all [Pc.sleeps, Call.gets, Call.gives]
  · cases hp : s.pc x <;> cases r <;> simp_all [Pc.sleeps, Call.gets, Call.gives]

theorem Balance.still (hb : Balance q xs u x) (hs : Still q u.base q' v.base x)
    (hlow : (∀ x, ¬ Has q u.base x) → u.base.count ≤ 1) (hf : v.frame x = u.frame x)
    (hx : x ≠ a) (hhas : ∀ k b, u.base.pc x = .waitAppend k b ∨ u.base.pc x = .waitLink k b →
      Has q u.base x) : Balance q' (xs ++ [(a, e)]) v x := by
  have hacq : acquired (xs ++ [(a, e)]) x = acquired xs x := by simp [acquired_snoc, hx.symm]
  have hrel : released (xs ++ [(a, e)]) x = released xs x := by simp [released_snoc, hx.symm]
  have hgets : v.gets x = u.gets x := by simp only [Calls.gets, hf, (hs.look _).1]
  have hgives : v.gives x = u.gives x := by simp only [Calls.gives, hf, (hs.look _).2]
  have hsame {p : Pc K T} (hp : v.base.pc x = p) (hr : p ≠ .ready ∧ p ≠ .ret) :
      u.base.pc x = p := by
    rcases hs.pc with h | ⟨-, h | h⟩
    · exact h ▸ hp
    · exact absurd (hp.symm.trans h) hr.1
    · exact absurd (hp.symm.trans h) hr.2
  constructor
  case outside =>
    intro hn
    have hout := hb.outside (hf ▸ hn)
    exact (hs.pc.resolve_right fun h => by simp [hout, Pc.sleeps] at h).trans hout
  case fits =>
    intro f hn
    have hfit := hb.fits f (hf ▸ hn)
    rcases hs.pc with h | ⟨h, h'⟩
    · exact h ▸ hfit
    · cases hp : u.base.pc x with
      | asleep d =>
        rw [hp] at hfit
        rcases h' with h' | h' <;> rw [h']
        · exact (Call.fits_asleep hfit).2.1
        · exact (Call.fits_asleep hfit).2.2
      | _ => simp [hp, Pc.sleeps] at h
  case has =>
    intro h
    rw [hacq, hrel, hgets]
    rcases hs.gain h with h | ⟨hno, hp, hcount⟩
    · rw [(hs.has h).2]
      exact hb.has h
    · have hacq := hb.hasNot (hno x)
      have hle := hlow hno
      cases hn : u.frame x with
      | none => simp [hb.outside hn] at hp
      | some f =>
        have hfit := hb.fits f hn
        rw [hp] at hfit
        rw [hcount]
        rcases (Call.fits_asleep hfit).1 with hr | ⟨k, hr⟩
        · simp [Calls.gets, Calls.gives, hn, hr, hp, Call.gets, Call.gives] at hacq ⊢
          omega
        · simp [Calls.gets, Calls.gives, hn, hr, hp, Call.gets, Call.gives] at hacq ⊢
          omega
  case hasNot =>
    intro h
    rw [hacq, hrel, hgives]
    exact hb.hasNot fun h' => h (hs.has h').1
  case fresh =>
    intro hp ho h
    have hp : u.base.pc x = .lockSlow ∨ ∃ b, u.base.pc x = .lockFast b := by
      rcases hp with hp | ⟨b, hp⟩
      · exact .inl (hsame hp (by simp))
      · exact .inr ⟨b, hsame hp (by simp)⟩
    rcases hs.gain h with h | ⟨-, h, -⟩
    · exact hb.fresh hp (hs.op ▸ ho) h
    · simp [h] at hp
  case deep =>
    intro k b hp
    have hp : u.base.pc x = .waitAppend k b ∨ u.base.pc x = .waitLink k b :=
      hp.imp (hsame · (by simp)) (hsame · (by simp))
    rw [(hs.has (hhas k b hp)).2]
    exact hb.deep k b hp

omit [DecidableEq T] in
theorem Verdict.still (hv : Verdict recursive q u x) (hs : Still q u.base q' v.base x)
    (hf : v.frame x = u.frame x)
    (hown : (u.base.pc x).readsOwner → (Has q u.base x ↔ u.base.core.owner = some x)) :
    Verdict recursive q' v x := by
  have hreads : (v.base.pc x).readsOwner ↔ (u.base.pc x).readsOwner := by
    rcases hs.pc with h | ⟨h, h' | h'⟩
    · rw [h]
    · cases hp : u.base.pc x <;> simp_all [Pc.sleeps, Pc.readsOwner]
    · cases hp : u.base.pc x <;> simp_all [Pc.sleeps, Pc.readsOwner]
  constructor
  case seen =>
    intro f hn hr
    obtain ⟨ho, hc⟩ := hv.seen f (hf ▸ hn) (hreads.mp hr)
    rw [hs.owner (hreads.mp hr)]
    refine ⟨ho, fun h => ?_⟩
    rw [(hs.has ((hown (hreads.mp hr)).mpr h)).2]
    exact hc h
  case judged => exact fun f hn hr => hv.judged f (hf ▸ hn) (mt hreads.mpr hr)
  case fast =>
    intro f b hn hp
    refine hv.fast f b (hf ▸ hn) ?_
    rcases hs.pc with h | ⟨-, h | h⟩
    · exact h ▸ hp
    · simp [h] at hp
    · simp [h] at hp
  case kept =>
    intro f hn h
    rw [hreads, hs.op] at h
    exact hv.kept f (hf ▸ hn) h
  case waits =>
    intro f k hn hr ho hc
    obtain ⟨h, hc⟩ := hv.waits f k (hf ▸ hn) hr ho hc
    exact ⟨(hs.has h).1, (hs.has h).2.trans hc⟩
  case start => exact fun f hn => hv.start f (hf ▸ hn)

omit [DecidableEq T] in
theorem Call.gets_of_inside {r : Call K} {p p' : Pc K T} (hp : p ≠ .out) (hp' : p' ≠ .out) :
    r.gets p' = r.gets p := by
  have hret {p : Pc K T} (hp : p ≠ .out) : r.gets p = r.gets (.ret : Pc K T) := by
    cases r <;> cases p <;> first | rfl | exact absurd rfl hp
  rw [hret hp, hret hp']

omit [DecidableEq T] in
theorem Call.gives_of_inside {r : Call K} {p p' : Pc K T} (hp : p ≠ .out) (hp' : p' ≠ .out)
    (hr : ∀ k, p ≠ .waitOwner k) (hr' : ∀ k, p' ≠ .waitOwner k) : r.gives p' = r.gives p := by
  have hret {p : Pc K T} (hp : p ≠ .out) (hr : ∀ k, p ≠ .waitOwner k) :
      r.gives p = r.gives (.ret : Pc K T) := by
    cases r <;> cases p <;> first | rfl | exact absurd rfl hp | exact absurd rfl (hr _)
  rw [hret hp hr, hret hp' hr']

omit [DecidableEq T] in
theorem Inv.has_of_holds (hI : Inv q loc s) (hp : (s.pc x).holds) : Has q s x := by
  have hfit : (s.core.op x).phase = .idle := by
    have := (hI.here x).fits
    cases hpc : s.pc x <;> simp_all [Pc.holds, Fits]
  exact ⟨((hI.kept x).holds (.inl hp)).1, by simp [hfit]⟩

theorem Balance.run [DecidableEq K] (hb : Balance q xs u a) (hI : Inv q loc u.base)
    (hI' : Inv q' loc' t) (hs : Step u.base (a, l) t) (hf : Fair q.fair l.ev q'.fair)
    (hlow : (∀ x, ¬ Has q u.base x) → u.base.count ≤ 1) (hp : u.base.pc a ≠ .out)
    (ht : t.pc a ≠ .out) : Balance q' (xs ++ [(a, Event.run)]) (u.run a t) a := by
  have hhas := has_step (x := a) hI hI' hs hf
  have hin := hI.inside hs hp
  have hacq : acquired (xs ++ [(a, Event.run)]) a = acquired xs a := by
    simp [acquired_snoc, Event.acquires]
  have hrel : released (xs ++ [(a, Event.run)]) a = released xs a := by
    simp [released_snoc, Event.releases]
  obtain ⟨f, hn⟩ := Option.ne_none_iff_exists'.mp (mt hb.outside hp)
  have hfit := hb.fits f hn
  have hgets : (u.run a t).gets a = u.gets a := by
    simp [Calls.gets, Calls.run, hn, Call.gets_of_inside hp ht]
  have hown (h : l = .words (.own a)) : (∀ y, ¬ Has q u.base y) ∧ (u.base.pc a = .asleep false ∨
      u.base.pc a = .release ∨ u.base.pc a = .lockSlow ∨ ∃ b, u.base.pc a = .lockFast b) := by
    subst h
    have hw : u.base.core.Step (a, .own a) t.core := by
      cases hs with
      | words hs => exact hs
    obtain ⟨hno, hp⟩ := hI.own_place hw
    exact ⟨hno, hp.imp id fun h => h.2⟩
  constructor
  case outside => simp [Calls.run, hn]
  case fits =>
    intro g hg
    simp only [Calls.run, update_self, hn, Option.map_some, Option.some.injEq] at hg
    subst hg
    exact hI.fits hs hp hfit
  case has =>
    intro h
    rw [hacq, hrel, hgets]
    show _ = _ + max 1 t.count
    rw [hin.count]
    rcases hhas.mp h with h | ⟨h, -⟩
    · obtain ⟨hno, hp⟩ := hown h
      have hacq := hb.hasNot (hno a)
      have hle := hlow hno
      cases hr : f.call <;> rw [hr] at hfit <;>
        rcases hp with hp | hp | hp | ⟨b, hp⟩ <;>
        simp_all [Calls.gets, Calls.gives, Call.gets, Call.gives, Call.fits, Pc.ofWait,
          Pc.ofBroadcast]
    · exact hb.has h
  case hasNot =>
    intro h
    rw [hacq, hrel]
    by_cases hh : Has q u.base a
    · have hl : l = .release := by
        by_contra hl
        exact h (hhas.mpr (.inr ⟨hh, fun h' => hl h'.1⟩))
      obtain ⟨⟨k, hk⟩, ht⟩ := hin.release hl
      have hbal := hb.has hh
      have hle : u.base.count ≤ 1 := by simpa using hb.deep k false (.inr hk)
      rw [hk] at hfit
      rw [Nat.max_eq_left hle] at hbal
      cases hr : f.call with
      | wait j =>
        simpa [Calls.gets, Calls.gives, Calls.run, hn, hr, ht, hk, Call.gets, Call.gives]
          using hbal
      | _ => simp [hr, Call.fits, Pc.ofBroadcast] at hfit
    · have hr (k) : u.base.pc a ≠ .waitOwner k := fun hk =>
        hh ((hI.has_iff_owner (by rw [hk]; trivial)).mpr (hin.owner k hk ht))
      have hgives : (u.run a t).gives a = u.gives a := by
        simp [Calls.gives, Calls.run, hn, Call.gives_of_inside hp ht hr hin.reads]
      rw [hgives]
      exact hb.hasNot hh
  case fresh =>
    intro hl ho h
    obtain ⟨ho, hne, hl⟩ := hin.locks hl ho
    exact hb.fresh hl ho ((hhas.mp h).resolve_left hne).1
  case deep =>
    intro k b hk
    show b = decide (1 < t.count)
    rw [hin.count]
    rcases hk with hk | hk
    · exact hin.append k b hk
    · exact hb.deep k b (.inl (hin.link k b hk))

theorem Verdict.run [DecidableEq K] (hv : Verdict recursive q u a) (hb : Balance q xs u a)
    (hI : Inv q loc u.base) (hI' : Inv q' loc' t) (hs : Step u.base (a, l) t)
    (hf : Fair q.fair l.ev q'.fair) (hp : u.base.pc a ≠ .out) (ht : t.pc a ≠ .out) :
    Verdict recursive q' (u.run a t) a := by
  have hhas := has_step (x := a) hI hI' hs hf
  have hin := hI.inside hs hp
  have hframe {g} (hg : (u.run a t).frame a = some g) : ∃ f, u.frame a = some f ∧
      g = { f with kept := f.kept ∧ u.base.Same t } := by
    simp only [Calls.run, update_self, Option.map_eq_some_iff] at hg
    obtain ⟨f, hf, hg⟩ := hg
    exact ⟨f, hf, hg.symm⟩
  have hreads : ¬ (t.pc a).readsOwner := by
    cases hpc : t.pc a with
    | out => exact absurd hpc ht
    | waitOwner k => exact absurd hpc (hin.reads k)
    | _ => simp [Pc.readsOwner]
  constructor
  case seen => exact fun g hg hr => absurd hr hreads
  case judged =>
    intro g hg _
    obtain ⟨f, hn, rfl⟩ := hframe hg
    by_cases hr : (u.base.pc a).readsOwner
    · cases hpc : u.base.pc a with
      | out => exact absurd hpc hp
      | waitOwner k =>
        have hfit := hb.fits f hn
        have ho := (hv.seen f hn hr).1.mpr (hin.owner k hpc ht)
        rw [hpc] at hfit
        cases hc : f.call <;> rw [hc] at hfit <;>
          simp_all [Frame.fails, Call.fits, Pc.ofBroadcast]
      | _ => simp [hpc, Pc.readsOwner] at hr
    · exact hv.judged f hn hr
  case fast =>
    intro g b hg hl
    obtain ⟨f, hn, rfl⟩ := hframe hg
    exact hv.fast f b hn (hin.fast b hl)
  case kept =>
    intro g hg hk
    obtain ⟨f, hn, rfl⟩ := hframe hg
    obtain ⟨hq, hsame⟩ := hin.quick (hk.resolve_left hreads)
    exact ⟨hv.kept f hn (.inr hq), hsame⟩
  case waits =>
    intro g k hg hr ho hc
    obtain ⟨f, hn, rfl⟩ := hframe hg
    obtain ⟨h, hcount⟩ := hv.waits f k hn hr ho hc
    refine ⟨hhas.mpr (.inr ⟨h, fun hl => ?_⟩), hin.count.trans hcount⟩
    obtain ⟨⟨j, hj⟩, -⟩ := hin.release hl.1
    have hd := hb.deep j false (.inr hj)
    rw [hcount] at hd
    exact absurd hc (by simpa using hd)
  case start =>
    intro g hg
    obtain ⟨f, hn, rfl⟩ := hframe hg
    exact hv.start f hn

theorem Balance.ret [DecidableEq K] {f : Frame K T} (hb : Balance q xs u a) (hI : Inv q loc u.base)
    (hI' : Inv q' loc' t) (hs : Step u.base (a, l) t) (hf : Fair q.fair l.ev q'.fair)
    (hn : u.frame a = some f) (hp : u.base.pc a ≠ .out) (ht : t.pc a = .out) :
    Balance q' (xs ++ [(a, Event.ret f.call (u.base.pc a).code)]) (u.done a t) a := by
  obtain ⟨hown, hrel, hpc⟩ := hs.leaves hp ht
  have hhas : Has q' t a ↔ Has q u.base a := by
    rw [has_step hI hI' hs hf]
    simp [hown a, hrel]
  have hcount := (hI.inside hs hp).count
  have hfit := hb.fits f hn
  have hgets : (u.done a t).gets a = false ∧ (u.done a t).gives a = false := by
    simp [Calls.gets, Calls.gives, Calls.done]
  constructor
  case outside => exact fun _ => ht
  case fits => simp [Calls.done]
  case fresh => simp [Calls.done, ht]
  case deep => simp [Calls.done, ht]
  case has =>
    intro h
    have h := hhas.mp h
    have hbal := hb.has h
    show _ = _ + max 1 t.count
    rw [hcount, acquired_snoc, released_snoc, hgets.1]
    rcases hpc with hpc | hpc | ⟨k, hpc⟩ | hpc | ⟨hpc, hbusy, -⟩ | ⟨k, hpc, ho, -⟩
    case inr.inl => exact absurd h (hI.not_has_of_unlock hpc)
    case inr.inr.inr.inr.inl =>
      exact absurd h (hb.fresh (.inr ⟨true, hpc⟩) (by simp [hbusy]))
    case inr.inr.inr.inr.inr =>
      exact absurd ((hI.has_iff_owner (by rw [hpc]; trivial)).mp h) ho
    all_goals
      rw [hpc] at hfit
      cases hr : f.call <;> rw [hr] at hfit <;>
        simp_all [Calls.gets, Call.gets, Call.fits, Pc.ofWait, Pc.ofBroadcast, Pc.code,
          Event.acquires, Event.releases]
  case hasNot =>
    intro h
    have h := mt hhas.mpr h
    have hbal := hb.hasNot h
    rw [acquired_snoc, released_snoc, hgets.2]
    rcases hpc with hpc | hpc | ⟨k, hpc⟩ | hpc | ⟨hpc, -, -⟩ | ⟨k, hpc, -, -⟩
    case inl => exact absurd (hI.has_of_holds (by rw [hpc]; trivial)) h
    all_goals
      rw [hpc] at hfit
      cases hr : f.call <;> rw [hr] at hfit <;>
        simp_all [Calls.gives, Call.gives, Call.fits, Pc.ofWait, Pc.ofBroadcast, Pc.code,
          Event.acquires, Event.releases]

/-- The accounts of a thread outside the routines. -/
theorem Balance.out (hb : Balance q xs u a) (hp : u.base.pc a = .out) :
    (Has q u.base a → acquired xs a = released xs a + max 1 u.base.count) ∧
      (¬ Has q u.base a → acquired xs a = released xs a) := by
  have hgets : u.gets a = false ∧ u.gives a = false := by
    cases hn : u.frame a with
    | none => simp [Calls.gets, Calls.gives, hn]
    | some f => cases hr : f.call <;> simp [Calls.gets, Calls.gives, Call.gets, Call.gives, *]
  have has := hb.has
  have hasNot := hb.hasNot
  rw [hgets.1] at has
  rw [hgets.2] at hasNot
  exact ⟨has, hasNot⟩

theorem Balance.first {f : Frame K T} (hn : u.frame a = some f) (hfit : f.call.fits (t.pc a))
    (hlink : ∀ k b, t.pc a ≠ .waitAppend k b ∧ t.pc a ≠ .waitLink k b)
    (has : Has q' t a →
      acquired xs a + (f.call.gets (t.pc a)).toNat = released xs a + max 1 t.count)
    (hasNot : ¬ Has q' t a → acquired xs a = released xs a + (f.call.gives (t.pc a)).toNat)
    (hfresh : t.pc a = .lockSlow ∨ (∃ b, t.pc a = .lockFast b) → ¬ Has q' t a) :
    Balance q' (xs ++ [(a, Event.run)]) (u.run a t) a where
  outside := by simp [Calls.run, hn]
  fits g hg := by
    simp only [Calls.run, update_self, hn, Option.map_some, Option.some.injEq] at hg
    subst hg
    exact hfit
  has h := by
    simpa [acquired_snoc, released_snoc, Event.acquires, Event.releases, Calls.gets, Calls.run, hn]
      using has h
  hasNot h := by
    simpa [acquired_snoc, released_snoc, Event.acquires, Event.releases, Calls.gives, Calls.run, hn]
      using hasNot h
  fresh h _ := hfresh h
  deep k b h := by
    rcases h with h | h
    · exact absurd h (hlink k b).1
    · exact absurd h (hlink k b).2

theorem Verdict.first {f : Frame K T} (hv : Verdict recursive q u a) (hn : u.frame a = some f)
    (hp : u.base.pc a = .out)
    (hread : (t.pc a).readsOwner → t.core.owner = u.base.core.owner ∧ t.count = u.base.count)
    (hjudge : ¬ (t.pc a).readsOwner → ¬ f.fails a)
    (hfast : ∀ b, t.pc a = .lockFast b → u.base.core.owner ≠ some a)
    (hsame : (t.pc a).readsOwner ∨ (t.core.op a).phase.quick → u.base.Same t)
    (hwait : ∀ k, f.call = .wait k → (Has q u.base a → Has q' t a) ∧ t.count = u.base.count) :
    Verdict recursive q' (u.run a t) a := by
  have hreads : (u.base.pc a).readsOwner := by rw [hp]; trivial
  have hseen := hv.seen f hn hreads
  have hframe {g} (hg : (u.run a t).frame a = some g) :
      g = { f with kept := f.kept ∧ u.base.Same t } := by
    simpa [Calls.run, hn, eq_comm] using hg
  constructor
  case seen =>
    intro g hg hr
    obtain rfl := hframe hg
    obtain ⟨ho, hc⟩ := hread hr
    show (_ ↔ t.core.owner = _) ∧ (t.core.owner = _ → _ = t.count)
    rw [ho, hc]
    exact hseen
  case judged =>
    intro g hg hr
    obtain rfl := hframe hg
    exact hjudge hr
  case fast =>
    intro g b hg hl
    obtain rfl := hframe hg
    exact mt hseen.1.mp (hfast b hl)
  case kept =>
    intro g hg hk
    obtain rfl := hframe hg
    exact ⟨hv.kept f hn (.inl hreads), hsame hk⟩
  case waits =>
    intro g k hg hr ho hc
    obtain rfl := hframe hg
    obtain ⟨h, hcount⟩ := hv.waits f k hn hr ho hc
    exact ⟨(hwait k hr).1 h, (hwait k hr).2.trans hcount⟩
  case start =>
    intro g hg
    obtain rfl := hframe hg
    exact hv.start f hn

theorem Verdict.done : Verdict recursive q' (u.done a t) a := by
  constructor <;> simp [Calls.done]

theorem Balance.done (hp : t.pc a = .out)
    (has : Has q' t a → acquired xs a = released xs a + max 1 t.count)
    (hasNot : ¬ Has q' t a → acquired xs a = released xs a) : Balance q' xs (u.done a t) a where
  outside _ := hp
  fits := by simp [Calls.done]
  has h := by simpa [Calls.gets, Calls.done] using has h
  hasNot h := by simpa [Calls.gives, Calls.done] using hasNot h
  fresh := by simp [Calls.done, hp]
  deep := by simp [Calls.done, hp]

/-- The accounts are right if those of the thread that moves are. -/
theorem Books.of [DecidableEq K] (hB : Books recursive q xs u) (hI : Inv q loc u.base)
    (hI' : Inv q' loc' v.base) (hs : Step u.base (a, l) v.base) (hf : Fair q.fair l.ev q'.fair)
    (hframe : ∀ x ≠ a, v.frame x = u.frame x) (hrel : l = .release → u.base.count ≤ 1)
    (hb : Balance q' (xs ++ [(a, e)]) v a) (hv : Verdict recursive q' v a) :
    Books recursive q' (xs ++ [(a, e)]) v := by
  obtain ⟨hcount, hzero⟩ := hI.count_step hs
  constructor
  case kind => exact hzero.trans hB.kind
  case low =>
    intro hno
    have hrelease (y) (hy : Has q u.base y) : l = .release ∧ y = a := by
      by_contra h
      exact hno y ((has_step hI hI' hs hf).mpr (.inr ⟨hy, h⟩))
    rcases hcount with hc | ⟨hy, hl⟩
    · rw [hc]
      by_cases hsome : ∃ y, Has q u.base y
      · obtain ⟨y, hy⟩ := hsome
        exact hrel (hrelease y hy).1
      · exact hB.low (not_exists.mp hsome)
    · exact absurd ((hrelease a hy).1.symm.trans hl) (by simp)
  case balance =>
    intro x
    by_cases hx : x = a
    · exact hx ▸ hb
    · refine (hB.balance x).still (hI.still hI' hs hf hx) hB.low (hframe x hx) hx ?_
      rintro k b (hp | hp)
      · exact hI.has_of_holds (by rw [hp]; trivial)
      · exact hI.has_of_holds (by rw [hp]; trivial)
  case verdict =>
    intro x
    by_cases hx : x = a
    · exact hx ▸ hv
    · exact (hB.verdict x).still (hI.still hI' hs hf hx) (hframe x hx) hI.has_iff_owner

/-- The accounts after a first look that does not return. -/
theorem Books.first [DecidableEq K] {f : Frame K T} (hB : Books recursive q xs u)
    (hI : Inv q loc u.base)
    (hn : u.frame a = some f) (hp : u.base.pc a = .out) (hs : Step u.base (a, l) t)
    (hl : l = .silent ∨ l = .release ∧ f.call = .unlock ∧ t.pc a = .unlock ∧
      u.base.core.owner = some a ∧ u.base.count ≤ 1)
    (hfit : f.call.fits (t.pc a))
    (hlink : ∀ k b, t.pc a ≠ .waitAppend k b ∧ t.pc a ≠ .waitLink k b)
    (hgets : u.base.core.owner = some a → l = .silent →
      max 1 u.base.count + (f.call.gets (t.pc a)).toNat = max 1 t.count)
    (hgives : l = .silent → f.call.gives (t.pc a) = false)
    (hlock : t.pc a = .lockSlow ∨ (∃ b, t.pc a = .lockFast b) → u.base.core.owner ≠ some a)
    (hread : (t.pc a).readsOwner → t.core.owner = u.base.core.owner ∧ t.count = u.base.count)
    (hjudge : ¬ (t.pc a).readsOwner → ¬ f.fails a)
    (hsame : (t.pc a).readsOwner ∨ (t.core.op a).phase.quick → u.base.Same t)
    (hwait : ∀ k, f.call = .wait k → t.count = u.base.count) :
    ∃ q' loc', Inv q' loc' t ∧ Books recursive q' (xs ++ [(a, Event.run)]) (u.run a t) := by
  obtain ⟨q', loc', hI', hf⟩ := hI.step hs
  have hown := hI.has_iff_owner (x := a) (by rw [hp]; trivial)
  have hhas : Has q' t a ↔ u.base.core.owner = some a ∧ l ≠ .release := by
    rw [has_step hI hI' hs hf, hown]
    rcases hl with rfl | ⟨rfl, -⟩ <;> simp
  obtain ⟨hbal, hbal'⟩ := (hB.balance a).out hp
  rw [hown] at hbal hbal'
  refine ⟨q', loc', hI', hB.of hI hI' hs hf (fun x hx => update_of_ne hx ..) (fun h => ?_)
    (.first hn hfit hlink (fun h => ?_) (fun h => ?_) fun h h' => hlock h (hhas.mp h').1)
    ((hB.verdict a).first hn hp hread hjudge (fun b h => hlock (.inr ⟨b, h⟩)) hsame
      fun k hk => ⟨fun h => hhas.mpr ⟨hown.mp h, ?_⟩, hwait k hk⟩)⟩
  · rcases hl with rfl | ⟨-, -, -, -, hc⟩
    · cases h
    · exact hc
  · obtain ⟨ho, hr⟩ := hhas.mp h
    have hstep := hgets ho (hl.resolve_right fun h => hr h.1)
    have hacq := hbal ho
    omega
  · rcases hl with rfl | ⟨rfl, hr, hp', ho, hc⟩
    · rw [hgives rfl]
      exact hbal' fun ho => h (hhas.mpr ⟨ho, by simp⟩)
    · have hacq := hbal ho
      rw [Nat.max_eq_left hc] at hacq
      simpa [hr, hp', Call.gives] using hacq
  · rintro rfl
    rcases hl with hl | ⟨-, hr, -⟩
    · cases hl
    · cases hk.symm.trans hr

/-- The accounts after a first look that fails. -/
theorem Books.refuse [DecidableEq K] {r : Call K} {c : Code} (hB : Books recursive q xs u)
    (hI : Inv q loc u.base)
    (hp : u.base.pc a = .out) (hs : Step u.base (a, .silent) u.base) (hc : c ≠ .success) :
    ∃ q' loc', Inv q' loc' u.base ∧
      Books recursive q' (xs ++ [(a, Event.ret r c)]) (u.done a u.base) := by
  obtain ⟨q', loc', hI', hf⟩ := hI.step hs
  have hhas := has_silent (x := a) hI hI' hs hf
  have hsnoc : acquired (xs ++ [(a, Event.ret r c)]) a = acquired xs a ∧
      released (xs ++ [(a, Event.ret r c)]) a = released xs a := by
    cases r <;> cases c <;>
      simp_all [acquired_snoc, released_snoc, Event.acquires, Event.releases]
  refine ⟨q', loc', hI', hB.of (v := u.done a u.base) hI hI' hs hf
    (fun x hx => update_of_ne hx ..) (by simp) (.done hp ?_ ?_) .done⟩
  all_goals
    rw [hsnoc.1, hsnoc.2, hhas]
  · exact ((hB.balance a).out hp).1
  · exact ((hB.balance a).out hp).2

theorem Books.call {r : Call K} (hB : Books recursive q xs u) (hI : Inv q loc u.base)
    (hp : u.base.pc a = .out) (hn : u.frame a = none) :
    Books recursive q (xs ++ [(a, Event.call r)])
      { u with frame := update u.frame a (some ⟨r, u.base, True⟩) } := by
  have hsnoc : acquired (xs ++ [(a, Event.call r)]) a = acquired xs a ∧
      released (xs ++ [(a, Event.call r)]) a = released xs a := by
    simp [acquired_snoc, released_snoc, Event.acquires, Event.releases]
  have hgets : r.gets (.out : Pc K T) = false ∧ r.gives (.out : Pc K T) = false := by
    cases r <;> simp [Call.gets, Call.gives]
  obtain ⟨hbal, hbal'⟩ := (hB.balance a).out hp
  have hother {x} (hx : x ≠ a) : (update u.frame a (some ⟨r, u.base, True⟩)) x = u.frame x :=
    update_of_ne hx ..
  have howner := hI.has_iff_owner (x := a) (by rw [hp]; trivial)
  constructor
  case kind => exact hB.kind
  case low => exact hB.low
  case balance =>
    intro x
    by_cases hx : x = a
    · subst hx
      constructor
      case fits => simp [hp, Call.fits]
      case has =>
        intro h
        simpa [hsnoc.1, hsnoc.2, Calls.gets, hp, hgets.1] using hbal h
      case hasNot =>
        intro h
        simpa [hsnoc.1, hsnoc.2, Calls.gives, hp, hgets.2] using hbal' h
      all_goals simp [hp]
    · refine (hB.balance x).still (.of_eq rfl rfl) hB.low (hother hx) hx ?_
      rintro k b (hp | hp)
      · exact hI.has_of_holds (by rw [hp]; trivial)
      · exact hI.has_of_holds (by rw [hp]; trivial)
  case verdict =>
    intro x
    by_cases hx : x = a
    · subst hx
      have hkind := hB.kind
      constructor
      case waits =>
        intro f k hf _ ho _
        obtain rfl : _ = f := by simpa using hf
        exact ⟨howner.mpr ho, rfl⟩
      all_goals simp [hp, Pc.readsOwner, hkind]
    · exact (hB.verdict x).still (.of_eq rfl rfl) (hother hx) hI.has_iff_owner

theorem Books.step [DecidableEq K] (hB : Books recursive q xs u) (hI : Inv q loc u.base)
    (hs : Calls.Step u (a, e) v) :
    ∃ q' loc', Inv q' loc' v.base ∧ Books recursive q' (xs ++ [(a, e)]) v := by
  have hb := hB.balance a
  have hv := hB.verdict a
  have hseen {f} (hn : u.frame a = some f) (hp : u.base.pc a = .out) :=
    hv.seen f hn (by rw [hp]; trivial)
  have hquick (hp : u.base.pc a = .out) : ¬ (u.base.core.op a).phase.quick := by
    have hidle : (u.base.core.op a).phase = .idle := by simpa [hp, Fits] using (hI.here a).fits
    simp [hidle, Phase.quick]
  have hdone (t : State K T) : ∀ x ≠ a, (u.done a t).frame x = u.frame x :=
    fun x hx => update_of_ne hx ..
  cases hs with
  | call hp hn => exact ⟨q, loc, hI, hB.call hI hp hn⟩
  | lockFree hp hn hr ho =>
    refine hB.first hI hn hp (.lockFree hp ho) (.inl rfl) ?_ ?_ ?_ ?_ ?_ ?_ ?_ ?_ ?_
    all_goals simp [State.call, State.setPc, hr, ho, Call.fits, Call.gives, Pc.readsOwner,
      Frame.fails, (hseen hn hp).1]
    exact fun _ => ⟨rfl, rfl, rfl, rfl, rfl, rfl⟩
  | lockError hp hn hr ho hc => exact hB.refuse hI hp (.fail hp (.inr hc)) (by simp)
  | lockAgain hp hn hr ho hc =>
    have hc := not_or.mp hc
    have hpos : max 1 u.base.count = u.base.count := Nat.max_eq_right (Nat.pos_of_ne_zero hc.1)
    refine hB.first hI hn hp (.lockAgain hp ho hc) (.inl rfl) ?_ ?_ ?_ ?_ ?_ ?_ ?_ ?_ ?_
    all_goals simp [State.setPc, hr, ho, Call.fits, Call.gives, Call.gets, Pc.readsOwner,
      Frame.fails, hseen hn hp, hc, hpos, hquick hp]
  | lockOther hp hn hr ho hu =>
    refine hB.first hI hn hp (.lockOther hp ho hu) (.inl rfl) ?_ ?_ ?_ ?_ ?_ ?_ ?_ ?_ ?_
    all_goals simp [State.call, State.setPc, hr, ho, hu, Call.fits, Call.gives, Pc.readsOwner,
      Frame.fails, (hseen hn hp).1, Op.phase, Phase.quick]
  | trylockOther hp hn hr ho hu =>
    exact hB.refuse hI hp (.fail hp (.inl (by simp [ho, hu]))) (by simp)
  | unlockError hp hn hr ho => exact hB.refuse hI hp (.fail hp (.inl ho)) (by simp)
  | unlockAgain hp hn hr ho hc =>
    have hbase := Mutex.Step.unlockAgain hp ho hc
    obtain ⟨q', loc', hI', hf⟩ := hI.step hbase
    have hhas := has_silent (x := a) hI hI' hbase hf
    have howner := (hI.has_iff_owner (by rw [hp]; trivial)).mpr ho
    have hbal := (hb.out hp).1 howner
    refine ⟨q', loc', hI', hB.of hI hI' hbase hf (hdone _) (by simp)
      (.done hp (fun _ => ?_) ?_) .done⟩
    · simp only [acquired_snoc, released_snoc, Event.acquires, Event.releases]
      simp
      omega
    · exact fun h => absurd (hhas.mpr howner) h
  | unlock hp hn hr ho hc =>
    have hc := Nat.le_of_not_lt hc
    refine hB.first hI hn hp (.unlock hp ho hc)
      (.inr ⟨rfl, hr, by simp [State.call, State.setPc], ho, hc⟩) ?_ ?_ ?_ ?_ ?_ ?_ ?_ ?_ ?_
    all_goals simp [State.call, State.setPc, hr, ho, Call.fits, Call.gives, Pc.readsOwner,
      Frame.fails, (hseen hn hp).1, Op.phase, Phase.quick]
  | waitNull hp hn hr ho => exact hB.refuse hI hp (.fail hp (.inl (by simp [ho]))) (by simp)
  | waitLoad hp hn hr ho =>
    refine hB.first hI hn hp (.waitLoad hp ho) (.inl rfl) ?_ ?_ ?_ ?_ ?_ ?_ ?_ ?_ ?_
    all_goals simp [State.setPc, hr, Call.fits, Call.gives, Call.gets, Pc.ofWait, Pc.readsOwner]
    exact ⟨rfl, rfl, rfl, rfl, rfl, rfl⟩
  | clearLock hp hn hr ho =>
    refine hB.first hI hn hp (.clearLock hp ho) (.inl rfl) ?_ ?_ ?_ ?_ ?_ ?_ ?_ ?_ ?_
    all_goals simp [State.setPc, hr, Call.fits, Call.gives, Call.gets, Pc.ofBroadcast,
      Pc.readsOwner, Frame.fails, hquick hp]
  | run hp hs ht =>
    obtain ⟨q', loc', hI', hf⟩ := hI.step hs
    refine ⟨q', loc', hI', hB.of hI hI' hs hf (fun x hx => update_of_ne hx ..) (fun hl => ?_)
      (hb.run hI hI' hs hf hB.low hp ht) (hv.run hb hI hI' hs hf hp ht)⟩
    obtain ⟨⟨k, hk⟩, -⟩ := (hI.inside hs hp).release hl
    simpa using hb.deep k false (.inr hk)
  | ret hp hn hs ht =>
    obtain ⟨q', loc', hI', hf⟩ := hI.step hs
    exact ⟨q', loc', hI', hB.of hI hI' hs hf (hdone _) (fun hl => absurd hl (hs.leaves hp ht).2.1)
      (hb.ret hI hI' hs hf hn hp ht) .done⟩
  | elsewhere hp hn =>
    have hbase := Mutex.Step.elsewhere (v := ‹_›) hp
    obtain ⟨q', loc', hI', hf⟩ := hI.step hbase
    have hhas := has_silent (x := a) hI hI' hbase hf
    refine ⟨q', loc', hI', hB.of hI hI' hbase hf (fun _ _ => rfl) (by simp) ?_ ?_⟩
    · obtain ⟨hbal, hbal'⟩ := hb.out hp
      constructor
      case has =>
        intro h
        simpa [acquired_snoc, released_snoc, Event.acquires, Event.releases, Calls.gets, hn]
          using hbal (hhas.mp h)
      case hasNot =>
        intro h
        simpa [acquired_snoc, released_snoc, Event.acquires, Event.releases, Calls.gives, hn]
          using hbal' (mt hhas.mpr h)
      all_goals simp [hn, hp]
    · constructor <;> simp [hn]

theorem Books.init (recursive : Bool) (mem : T → Word T) :
    Books recursive ⟨.quiet none, none, [], fun _ => none⟩ []
      (Calls.init recursive mem : Calls K T) where
  kind := by cases recursive <;> simp [Calls.init, State.init]
  low _ := by cases recursive <;> simp [Calls.init, State.init]
  balance x := by
    constructor <;> simp [Calls.init, State.init, Calls.gives, acquired, released, Has]
  verdict x := by constructor <;> simp [Calls.init]

theorem run_books [DecidableEq K] {mem : T → Word T}
    (h : Run Calls.Step (Calls.init recursive mem : Calls K T) xs u) :
    ∃ q loc, Inv q loc u.base ∧ Books recursive q xs u := by
  induction h with
  | refl => exact ⟨_, _, .init recursive mem, .init recursive mem⟩
  | @step xs u v e _ hs ih =>
    obtain ⟨q, loc, hI, hB⟩ := ih
    obtain ⟨a, e⟩ := e
    exact hB.step hI hs

namespace Inv

omit [DecidableEq T] in
theorem owner_of_has (hI : Inv q loc s) (h : Has q s x) : s.core.owner = some x := by
  rcases hI.core.holder_phase h.1 with ⟨-, ho⟩ | ⟨b, hb | hb⟩
  · exact ho
  · rcases hb ▸ (hI.here b).fits.cases with ⟨rfl, -⟩ | hm
    · exact ((hI.kept x).holds (.inr (.inr (.inr hb)))).2
    · exact ((hI.kept x).holds (.inr (.inl ⟨b, (hI.batch x b).mpr (.inr ⟨hm, hb⟩)⟩))).2
  · obtain ⟨rfl, -⟩ := hb ▸ (hI.here b).fits.cases
    exact absurd hb h.2

omit [DecidableEq T] in
/-- A thread that is not the holder any more is still named while it releases the mutex. -/
theorem releases_of_owner (hI : Inv q loc s) (ho : s.core.owner = some x) (hx : ¬ Has q s x) :
    q.agent = some x ∧ (s.pc x = .unlock ∨ s.pc x = .release) ∧ ∀ y, ¬ Has q s y := by
  have hends {b} (hb : (s.core.op b).phase = .releasing x) :
      q.agent = some x ∧ (s.pc x = .unlock ∨ s.pc x = .release) ∧ ∀ y, ¬ Has q s y := by
    obtain ⟨rfl, hpc⟩ := hb ▸ (hI.here b).fits.cases
    obtain ⟨ha, hh⟩ := hI.core.releasing hb
    refine ⟨ha, hpc, fun y hy => hx ?_⟩
    obtain rfl := Option.some.inj (hy.1.symm.trans hh)
    exact hy
  have hholds (h : Holds loc s x) : q.agent = some x ∧ _ :=
    hends (b := x) (by_contra fun hr => hx ⟨((hI.kept x).holds h).1, hr⟩)
  rcases hI.core.owner_phase ho with ⟨-, hv⟩ | ⟨b, hb | hb | ⟨w, hb⟩⟩
  · exact hends (b := x) (by_contra fun hr => hx ⟨by simp [hv], hr⟩)
  · rcases hb ▸ (hI.here b).fits.cases with ⟨rfl, -⟩ | hm
    · exact hholds (.inr (.inr (.inr hb)))
    · exact hholds (.inr (.inl ⟨b, (hI.batch x b).mpr (.inr ⟨hm, hb⟩)⟩))
  · exact hends hb
  · obtain ⟨rfl, hpc⟩ := hb ▸ (hI.here b).fits.cases
    obtain ⟨ha, hv⟩ := hI.core.handing hb
    exact ⟨ha, hpc, fun y hy => by simpa [hv] using hy.1⟩

end Inv

/-- `owner` is written by the agent at the front. -/
theorem Core.Inv.agent_of_write {s t : Core T T} {e : Ev T} (hI : Core.Inv q s)
    (hs : Core.Step s (a, e) t) (ho : t.owner ≠ s.owner) : q.agent = some a := by
  cases hs with
  | own h => exact (hI.own_front (.own h)).1
  | ownFollow h => exact (hI.own_front (.ownFollow h)).1
  | storeOwner h => exact (hI.own_front (.storeOwner h)).1
  | clearOwner h => exact (hI.releasing (h := _) (a := a) (by rw [h]; rfl)).1
  | _ => exact absurd rfl ho

theorem Inv.agent_of_write [DecidableEq K] (hI : Inv q loc s) (hs : Step s (a, l) t)
    (ho : t.core.owner ≠ s.core.owner) : q.agent = some a := by
  cases hs with
  | words hs | queued _ hs | freeUnlock _ hs | freeWait _ hs | moveQueued _ hs =>
    exact hI.core.agent_of_write hs ho
  | _ => exact absurd rfl ho

end MyosIo.Mutex
