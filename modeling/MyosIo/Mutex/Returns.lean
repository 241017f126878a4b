import MyosIo.Mutex.Depth

/-! The depth of a recursive mutex, and the codes of all calls, along every run. -/
namespace MyosIo.Mutex

open Function

variable {K T : Type*} [DecidableEq K] [DecidableEq T] {q q' : Queue T T} {loc loc' : T → Loc K T}
  {s t : State K T} {a x : T} {l : Act K T} {u v : Calls K T} {xs : List (T × Event K)}
  {e : Event K} {recursive : Bool} {r : Call K} {c : Code} {f : Frame K T}

namespace Books

omit [DecidableEq K] in
/-- A thread `owner` names while it is not the holder is giving the mutex away. -/
theorem giving (hB : Books recursive q xs u) (hI : Inv q loc u.base)
    (ho : u.base.core.owner = some x) (hx : ¬ Has q u.base x) :
    u.gets x = false ∧ u.gives x = true ∧ acquired xs x = released xs x + 1 ∧
      u.base.count ≤ 1 := by
  obtain ⟨-, hpc, hno⟩ := hI.releases_of_owner ho hx
  have hb := hB.balance x
  have hbal := hb.hasNot hx
  obtain ⟨f, hn⟩ := Option.ne_none_iff_exists'.mp
    (mt hb.outside (by rcases hpc with h | h <;> simp [h]))
  have hfit := hb.fits f hn
  have hlook : u.gets x = false ∧ u.gives x = true := by
    rcases hpc with hpc | hpc <;> rw [hpc] at hfit <;> cases hr : f.call <;> rw [hr] at hfit <;>
      simp_all [Calls.gets, Calls.gives, Call.gets, Call.gives, Call.fits, Pc.ofWait,
        Pc.ofBroadcast]
  rw [hlook.2] at hbal
  exact ⟨hlook.1, hlook.2, hbal, hB.low hno⟩

omit [DecidableEq K] in
/-- The count of the owner is what it has acquired and not released. -/
theorem depth (hB : Books recursive q xs u) (hI : Inv q loc u.base) (hr : recursive = true)
    (ho : u.base.core.owner = some x) :
    acquired xs x + (u.gets x).toNat = released xs x + u.base.count := by
  have hpos : u.base.count ≠ 0 := fun h => by simp [hB.kind.mp h] at hr
  by_cases hx : Has q u.base x
  · have := (hB.balance x).has hx
    omega
  · obtain ⟨hgets, -, hbal, hle⟩ := hB.giving hI ho hx
    rw [hgets, hbal]
    simp only [Bool.toNat_false]
    omega

omit [DecidableEq K] in
theorem owner_iff (hB : Books recursive q xs u) (hI : Inv q loc u.base)
    (hn : u.frame x = none) :
    u.base.core.owner = some x ↔ acquired xs x ≠ released xs x := by
  have hp := (hB.balance x).outside hn
  obtain ⟨hbal, hbal'⟩ := (hB.balance x).out hp
  rw [← hI.has_iff_owner (by rw [hp]; trivial)]
  constructor
  · intro h
    have := hbal h
    omega
  · exact fun h => by_contra fun h' => h (hbal' h')

/-- The mutex is taken from a thread by its own release at depth one. -/
theorem passed (hB : Books recursive q xs u) (hI : Inv q loc u.base)
    (hs : Calls.Step u (a, e) v) (ho : u.base.core.owner = some x)
    (ho' : v.base.core.owner ≠ some x) :
    a = x ∧ u.gives x = true ∧ acquired xs x = released xs x + 1 := by
  rcases hs.base with ⟨-, -, hbase⟩ | ⟨l, hbase⟩
  · exact absurd (hbase ▸ ho) ho'
  have hagent := hI.agent_of_write hbase fun h => ho' (h.trans ho)
  by_cases hx : Has q u.base x
  · obtain ⟨q', loc', hI', hf⟩ := hI.step hbase
    have hrel : l = .release ∧ x = a := by
      by_contra h
      exact ho' (hI'.owner_of_has ((has_step hI hI' hbase hf).mpr (.inr ⟨hx, h⟩)))
    have hkeep : v.base.core.owner = u.base.core.owner := by
      obtain ⟨rfl, -⟩ := hrel
      generalize v.base = t at hbase
      cases hbase <;> rfl
    exact absurd (hkeep.trans ho) ho'
  · obtain ⟨ha, -⟩ := hI.releases_of_owner ho hx
    obtain ⟨-, hgives, hbal, -⟩ := hB.giving hI ho hx
    exact ⟨Option.some.inj (hagent.symm.trans ha), hgives, hbal⟩

/-- The codes. -/
theorem returns (hB : Books recursive q xs u)
    (hs : Calls.Step u (a, .ret r c) v) (hn : u.frame a = some f) :
    r = f.call ∧ (c = .error ↔ f.fails a) ∧
      (c = .busy → f.call = .lock true ∧ f.start.core.owner ≠ some a) ∧
      (c ≠ .success → f.kept ∧ u.base.Same v.base) := by
  have hv := hB.verdict a
  have hsame (s : State K T) : s.Same s := ⟨rfl, rfl, rfl, rfl, rfl, rfl⟩
  have hseen (hp : u.base.pc a = .out) := hv.seen f hn (by rw [hp]; trivial)
  have hkept (hp : u.base.pc a = .out) : f.kept := hv.kept f hn (.inl (by rw [hp]; trivial))
  cases hs with
  | lockError hp hn' hr ho hc =>
    obtain rfl := Option.some.inj (hn.symm.trans hn')
    simp [hr, Frame.fails, hseen hp, ho, hc, hkept hp, hsame]
  | trylockOther hp hn' hr ho hu =>
    obtain rfl := Option.some.inj (hn.symm.trans hn')
    simp [hr, Frame.fails, hseen hp, ho, hu, hkept hp, hsame]
  | unlockError hp hn' hr ho =>
    obtain rfl := Option.some.inj (hn.symm.trans hn')
    simp [hr, Frame.fails, hseen hp, ho, hkept hp, hsame]
  | unlockAgain hp hn' hr ho hc =>
    obtain rfl := Option.some.inj (hn.symm.trans hn')
    simp [hr, Frame.fails, hseen hp, ho]
  | waitNull hp hn' hr ho =>
    obtain rfl := Option.some.inj (hn.symm.trans hn')
    simp [hr, Frame.fails, hseen hp, ho, hkept hp, hsame]
  | ret hp hn' hs ht =>
    obtain rfl := Option.some.inj (hn.symm.trans hn')
    obtain ⟨-, -, hpc⟩ := hs.leaves hp ht
    have hjudged := hv.judged f hn
    have hfit := (hB.balance a).fits f hn
    rcases hpc with hpc | hpc | ⟨k, hpc⟩ | hpc | ⟨hpc, hbusy, hsame⟩ | ⟨k, hpc, ho, hsame⟩
    case inr.inr.inr.inr.inl =>
      have hkept := hv.kept f hn (.inr (by rw [hbusy]; trivial))
      have hfast := hv.fast f true hn hpc
      rw [hpc] at hfit hjudged
      have hr : f.call = .lock true := by
        cases hr : f.call <;> rw [hr] at hfit <;>
          simp_all [Call.fits, Pc.ofWait, Pc.ofBroadcast]
      simp [hpc, Pc.code, hjudged (by simp [Pc.readsOwner]), hr, hfast, hkept, hsame]
    case inr.inr.inr.inr.inr =>
      have hreads : (u.base.pc a).readsOwner := by rw [hpc]; trivial
      have hkept := hv.kept f hn (.inl hreads)
      have hstart := mt (hv.seen f hn hreads).1.mp ho
      rw [hpc] at hfit
      have hr : ∃ j, f.call = .wait j := by
        cases hr : f.call <;> rw [hr] at hfit <;> simp_all [Call.fits, Pc.ofBroadcast]
      obtain ⟨j, hr⟩ := hr
      simp [hpc, Pc.code, Frame.fails, hr, hstart, hkept, hsame]
    all_goals simp [hpc, Pc.code, hjudged (by simp [hpc, Pc.readsOwner])]

/-- The second look of `cnd_wait`. -/
theorem second_look {k : K} (hp : u.base.pc a = .waitOwner k) (hn : u.frame a = some f)
    (ho : u.base.core.owner ≠ some a) : ∃ v, Calls.Step u (a, .ret f.call .error) v := by
  have hs := Mutex.Step.waitOwner hp
  have hstep := Calls.Step.ret (by simp [hp]) hn hs (by simp [State.setPc, ho])
  rw [hp] at hstep
  exact ⟨_, hstep⟩

/-- A call that fails is one or two of its own steps away from its return. -/
theorem fails_soon (hB : Books recursive q xs u) (hn : u.frame a = some f) (hf : f.fails a) :
    (∃ v, Calls.Step u (a, .ret f.call .error) v) ∨
      ∃ v w, Calls.Step u (a, .run) v ∧ Calls.Step v (a, .ret f.call .error) w := by
  have hv := hB.verdict a
  have hreads : (u.base.pc a).readsOwner := by_contra fun h => hv.judged f hn h hf
  obtain ⟨hown, hcount⟩ := hv.seen f hn hreads
  have hfit := (hB.balance a).fits f hn
  cases hp : u.base.pc a with
  | out =>
    cases hr : f.call with
    | lock b =>
      simp only [Frame.fails, hr] at hf
      have ho := hown.mp hf.1
      exact .inl ⟨_, .lockError hp hn hr ho (hcount ho ▸ hf.2)⟩
    | unlock =>
      simp only [Frame.fails, hr] at hf
      exact .inl ⟨_, .unlockError hp hn hr (mt hown.mpr hf)⟩
    | wait k =>
      simp only [Frame.fails, hr] at hf
      by_cases ho : u.base.core.owner = none
      · exact .inl ⟨_, .waitNull hp hn hr ho⟩
      · have hload : Calls.Step u (a, .run) (u.run a (u.base.setPc a (.waitOwner k))) :=
          .waitLoad hp hn hr ho
        obtain ⟨w, hw⟩ := second_look (k := k) (u := u.run a (u.base.setPc a (.waitOwner k)))
          (f := { f with kept := f.kept ∧ u.base.Same (u.base.setPc a (.waitOwner k)) })
          (by simp [State.setPc]) (by simp [Calls.run, hn]) (mt hown.mpr hf)
        exact .inr ⟨_, w, hload, hr ▸ hw⟩
    | broadcast k => simp [Frame.fails, hr] at hf
  | waitOwner k =>
    rw [hp] at hfit
    cases hr : f.call with
    | wait j =>
      simp only [Frame.fails, hr] at hf
      exact .inl (hr ▸ second_look hp hn (mt hown.mpr hf))
    | _ => simp [hr, Call.fits, Pc.ofBroadcast] at hfit
  | _ => simp [hp, Pc.readsOwner] at hreads

end Books

/-- The depth of the mutex along every run, and what the calls return. -/
theorem recursive_depth {mem : T → Word T}
    (h : Run Calls.Step (Calls.init recursive mem : Calls K T) xs u) :
    -- the count of the owner, and whose mutex it is
    (recursive = true → ∀ x, u.base.core.owner = some x →
      acquired xs x + (u.gets x).toNat = released xs x + u.base.count) ∧
    (∀ x, u.frame x = none → (u.base.core.owner = some x ↔ acquired xs x ≠ released xs x)) ∧
    -- it is passed on at the matching release only, and kept by a deeper `cnd_wait`
    (∀ a e v x, Calls.Step u (a, e) v → u.base.core.owner = some x →
      v.base.core.owner ≠ some x →
      a = x ∧ u.gives x = true ∧ acquired xs x = released xs x + 1) ∧
    (∀ x f k, u.frame x = some f → f.call = .wait k → f.start.core.owner = some x →
      1 < f.start.count → u.base.core.owner = some x ∧ u.base.count = f.start.count) ∧
    -- the codes
    (∀ a f r c v, u.frame a = some f → Calls.Step u (a, .ret r c) v →
      r = f.call ∧ (c = .error ↔ f.fails a) ∧
        (c = .busy → f.call = .lock true ∧ f.start.core.owner ≠ some a) ∧
        (c ≠ .success → f.kept ∧ u.base.Same v.base)) ∧
    (∀ a f, u.frame a = some f → f.fails a →
      (∃ v, Calls.Step u (a, .ret f.call .error) v) ∨
        ∃ v w, Calls.Step u (a, .run) v ∧ Calls.Step v (a, .ret f.call .error) w) ∧
    (recursive = false → ∀ a f b, u.frame a = some f → f.call = .lock b →
      f.start.core.owner = some a → f.fails a) := by
  obtain ⟨q, loc, hI, hB⟩ := run_books h
  refine ⟨fun hr x => hB.depth hI hr, fun x => hB.owner_iff hI, fun a e v x => hB.passed hI,
    fun x f k hn hr ho hc => ?_, fun a f r c v hn hs => hB.returns hs hn,
    fun a f => hB.fails_soon, fun hr a f b hn hc ho => ?_⟩
  · obtain ⟨hx, hcount⟩ := (hB.verdict x).waits f k hn hr ho hc
    exact ⟨hI.owner_of_has hx, hcount⟩
  · have hcount := ((hB.verdict a).start f hn).mpr hr
    simp [Frame.fails, hc, ho, hcount]

/-- A thread locks a recursive mutex twice. -/
theorem recursive_depth_sample : ∃ xs, ∃ u : Calls Unit Bool,
    Run Calls.Step (Calls.init true (fun _ => .null)) xs u ∧ u.base.core.owner = some true ∧
      acquired xs true = released xs true + 2 := by
  have hfast : (Pc.lockFast false : Pc Unit Bool) ≠ .out := nofun
  have hret : (Pc.ret : Pc Unit Bool) ≠ .out := nofun
  have h₀ : Run Calls.Step (Calls.init true (fun _ => .null) : Calls Unit Bool) [] _ := .refl
  have h₁ := h₀.step (.call (a := true) (r := .lock false) rfl rfl)
  have h₂ := h₁.step (.lockFree (a := true) (b := false) rfl rfl rfl rfl)
  have h₃ := h₂.step (.run (a := true) hfast
    (.words (.fastEnd (a := true) (n := true) rfl) nofun nofun) hfast)
  have h₄ := h₃.step (.run (a := true) hfast
    (.words (.fastCas (a := true) (n := true) rfl rfl) nofun nofun) hfast)
  have h₅ := h₄.step (.run (a := true) hfast
    (.words (.own (a := true) (b := false) (n := true) rfl) nofun nofun) hfast)
  have h₆ := h₅.step (.run (a := true) hfast
    (.locked (a := true) (n := true) (.inr ⟨false, rfl⟩) rfl) hret)
  have h₇ := h₆.step (.ret (a := true) hret rfl (.ret (a := true) rfl) rfl)
  have h₈ := h₇.step (.call (a := true) (r := .lock true) rfl rfl)
  have h₉ := h₈.step (.lockAgain (a := true) (b := true) rfl rfl rfl rfl (by decide))
  have h := h₉.step (.ret (a := true) hret rfl (.ret (a := true) rfl) rfl)
  exact ⟨_, _, h, rfl, (recursive_depth h).1 rfl true rfl⟩

end MyosIo.Mutex
