import MyosIo.Mutex.Keeps

/-! A routine takes threads from one place to another, and wakes some of them. What such a step
leaves everyone else. -/
namespace MyosIo.Mutex

open Function

variable {K T : Type*}

/-- What makes `p` the place of a thread. -/
def At (q : Queue T T) (s : State K T) (x : T) : Loc K T → Prop
  | .self => (s.pc x).runs ∧ (s.core.op x).phase ≠ .inside false x
  | .ready => s.pc x = .ready
  | .cond k => x ∈ s.cond k
  | .chain b => x ∈ s.chain b
  | .hand b => s.pc b = .temp x ∨ (s.core.op b).phase = .before true x
  | .queue => x ∈ q.waiting
  | .batch b => x ∈ s.batch b ∨ s.pc b = .move x ∧ (s.core.op b).phase = .owned x
  | .given b => (s.core.op b).phase = .handed x

/-- The places from and to which the routine of `a` moves threads. -/
def Loc.near (a : T) : Loc K T → Prop
  | .chain b | .hand b | .batch b | .given b => b = a
  | .queue => False
  | _ => True

/-- Thread `a` does something, and may wake threads that were in its hands. -/
structure Passes (loc : T → Loc K T) (a : T) (s t : State K T) : Prop where
  mem : t.core.mem = s.core.mem
  owner : t.core.owner = s.core.owner
  mine : t.core.op a = s.core.op a ∨ ∃ r, s.core.op a = .done r ∧ t.core.op a = .idle
  pc : ∀ b ≠ a, t.pc b = s.pc b ∨
    ((s.pc b).sleeps ∧ (s.core.op b).phase = .idle ∧ (loc b = .batch a ∨ loc b = .given a)) ∧
      (t.pc b = .ready ∨ t.pc b = .ret)
  op : ∀ b ≠ a, t.core.op b = s.core.op b
  chain : ∀ b ≠ a, t.chain b = s.chain b
  batch : ∀ b ≠ a, t.batch b = s.batch b
  condLock : t.condLock = s.condLock
  /-- Only whoever has the lock of a list takes threads out of it. -/
  cond : ∀ k, s.condLock k ≠ some a → s.cond k ≠ [] →
    t.cond k ≠ [] ∧ (t.cond k).head? = (s.cond k).head?
  awake : ¬ (s.pc a).sleeps
  parked : loc a ≠ .given a → (s.pc a).parked → (t.pc a).parked
  linking : (t.pc a).linking → loc a = .self

variable {q q' : Queue T T} {loc loc' : T → Loc K T}
  {s t : State K T} {a b n x w : T} {k : K} {p p₀ p₁ : Loc K T}

theorem placed_iff : Placed q loc s ↔ ∀ x p, loc x = p ↔ At q s x p := by
  constructor
  · rintro h x (_ | k | b | b | _ | b | b | _)
    exacts [h.self x, h.cond x k, h.chain x b, h.hand x b, h.queue x, h.batch x b, h.given x b,
      h.ready x]
  · intro h
    exact ⟨fun x => h x _, fun x => h x _, fun x k => h x _, fun x b => h x _, fun x b => h x _,
      fun x => h x _, fun x b => h x _, fun x b => h x _⟩

theorem Passes.at_far (hm : Passes loc a s t) (hp : ¬ p.near a) : At q t x p ↔ At q s x p := by
  have hpc {b} (hb : b ≠ a) : (∀ y, t.pc b = .temp y ↔ s.pc b = .temp y) ∧
      ∀ y, t.pc b = .move y ↔ s.pc b = .move y := by
    rcases hm.pc b hb with h | ⟨⟨hs, -⟩, h⟩
    · rw [h]
      exact ⟨fun _ => Iff.rfl, fun _ => Iff.rfl⟩
    · cases hsb : s.pc b <;> simp_all [Pc.sleeps]
      rcases h with h | h <;> simp [h]
  cases p with
  | queue => exact Iff.rfl
  | chain b => simp only [At, hm.chain b hp]
  | hand b => simp only [At, (hpc hp).1, hm.op b hp]
  | batch b => simp only [At, (hpc hp).2, hm.op b hp, hm.batch b hp]
  | given b => simp only [At, hm.op b hp]
  | _ => exact absurd trivial hp

/-- The threads of `M` are taken from `p₀` to `p₁`. -/
theorem Placed.move (hP : Placed q loc s) (hm : Passes loc a s t) {M : T → Prop} [DecidablePred M]
    (hfrom : ∀ x, M x → loc x = p₀) (hnear : p₀.near a ∧ p₁.near a)
    (hto : ∀ x, M x → At q t x p₁ ∧ ¬ At q t x p₀)
    (hsame : ∀ x p, p.near a → (M x → p ≠ p₀ ∧ p ≠ p₁) → (At q t x p ↔ At q s x p)) :
    Placed q (fun x => if M x then p₁ else loc x) t := by
  have hat {x p} (h : M x → p ≠ p₀ ∧ p ≠ p₁) : At q t x p ↔ At q s x p := by
    by_cases hp : p.near a
    · exact hsame x p hp h
    · exact hm.at_far hp
  rw [placed_iff] at hP ⊢
  intro x p
  by_cases hx : M x
  · rw [if_pos hx]
    constructor
    · rintro rfl
      exact (hto x hx).1
    · intro h
      by_contra hne
      have hne₀ : p ≠ p₀ := by
        rintro rfl
        exact (hto x hx).2 h
      exact hne₀ (((hP x p).mpr ((hat fun _ => ⟨hne₀, Ne.symm hne⟩).mp h)).symm.trans (hfrom x hx))
  · rw [if_neg hx, hP x p]
    exact (hat fun h => absurd h hx).symm

theorem Passes.linking_of [DecidableEq T] (hm : Passes loc a s t) (h : (t.pc x).linking) :
    x = a ∧ loc x = .self ∨ x ≠ a ∧ (s.pc x).linking := by
  by_cases hx : x = a
  · subst hx
    exact .inl ⟨rfl, hm.linking h⟩
  · rcases hm.pc x hx with hpc | ⟨-, hpc | hpc⟩ <;> rw [hpc] at h
    · exact .inr ⟨hx, h⟩
    · cases h
    · cases h

/-- A thread stays asleep unless it was in the hands of `a`. -/
theorem Passes.sleeps (hm : Passes loc a s t) (hb : loc x ≠ .batch a) (hg : loc x ≠ .given a)
    (h : (s.pc x).sleeps) : (t.pc x).sleeps := by
  have hx : x ≠ a := by
    rintro rfl
    exact hm.awake h
  rcases hm.pc x hx with hpc | ⟨⟨-, -, hl | hl⟩, -⟩
  · rwa [hpc]
  · exact absurd hl hb
  · exact absurd hl hg

theorem Passes.parked_of [DecidableEq T] (hm : Passes loc a s t) (hb : loc x ≠ .batch a)
    (hg : loc x ≠ .given a) (h : (s.pc x).parked) : (t.pc x).parked := by
  by_cases hx : x = a
  · subst hx
    exact hm.parked hg h
  rcases hm.pc x hx with hpc | ⟨⟨-, -, hl | hl⟩, -⟩
  · rwa [hpc]
  · exact absurd hl hb
  · exact absurd hl hg

theorem Placed.move_one [DecidableEq T] (hP : Placed q loc s) (hm : Passes loc a s t)
    (hn : loc n = p₀) (hnear : p₀.near a ∧ p₁.near a) (hto : At q t n p₁ ∧ ¬ At q t n p₀)
    (hsame : ∀ x p, p.near a → (x = n → p ≠ p₀ ∧ p ≠ p₁) → (At q t x p ↔ At q s x p)) :
    Placed q (update loc n p₁) t := by
  have heq : update loc n p₁ = fun x => if x = n then p₁ else loc x := by
    funext x
    exact update_apply ..
  rw [heq]
  refine hP.move hm ?_ hnear ?_ hsame
  · rintro x rfl
    exact hn
  · rintro x rfl
    exact hto

theorem Placed.same (hP : Placed q loc s) (hm : Passes loc a s t)
    (hsame : ∀ x p, p.near a → (At q t x p ↔ At q s x p)) : Placed q loc t := by
  rw [placed_iff] at hP ⊢
  intro x p
  rw [hP x p]
  by_cases hp : p.near a
  · exact (hsame x p hp).symm
  · exact (hm.at_far hp).symm

/-- What such a step leaves another thread. -/
theorem Tidy.bystander [DecidableEq T] (hI : Tidy q loc s) (hC : s.core.Inv q)
    (hm : Passes loc a s t) (hP : Placed q loc' t)
    (hlinked : ∀ x ≠ a, (s.pc x).linking → loc' x = loc x ∨ ∃ c, loc' x = .chain c)
    (hb : b ≠ a) : Local loc' t b := by
  have hh := hI.here b
  have hpc : t.pc b = s.pc b ∨ ((s.pc b).sleeps ∧ (s.core.op b).phase = .idle) ∧
      (t.pc b = .ready ∨ t.pc b = .ret) :=
    (hm.pc b hb).imp_right fun h => ⟨⟨h.1.1, h.1.2.1⟩, h.2⟩
  have hclears {k} (h : (t.pc b).clears k) : t.pc b = s.pc b := by
    rcases hpc with hpc | ⟨-, hpc | hpc⟩
    · exact hpc
    all_goals
      rw [hpc] at h
      cases h
  have hcond {k} (h : (t.pc b).clears k) (hne : s.cond k ≠ []) :
      t.cond k ≠ [] ∧ (t.cond k).head? = (s.cond k).head? := by
    refine hm.cond k (fun hk => hb ?_) hne
    rw [hclears h] at h
    exact Option.some.inj ((hh.lock k h).symm.trans hk)
  have hown {x p} (hp : ¬ p.near a) : loc' x = p ↔ loc x = p :=
    (placed_iff.mp hP x p).trans ((hm.at_far hp).trans (placed_iff.mp hI.toPlaced x p).symm)
  constructor
  case fits =>
    rw [hm.op b hb]
    rcases hpc with hpc | ⟨⟨-, hf⟩, hpc | hpc⟩ <;> rw [hpc]
    · exact hh.fits
    · exact hf
    · exact hf
  case linking =>
    intro h
    rcases hm.linking_of h with ⟨rfl, -⟩ | ⟨-, h⟩
    · exact absurd rfl hb
    · rcases hlinked b hb h with hl | hl
      · rw [hl]
        exact hh.linking h
      · exact .inr hl
  case lock =>
    intro k h
    have hsame := hclears h
    rw [hm.condLock]
    exact hh.lock k (hsame ▸ h)
  case nonempty =>
    intro k h
    have hc : (t.pc b).clears k := by rcases h with h | h <;> simp [h, Pc.clears]
    exact (hcond hc (hh.nonempty k (hclears hc ▸ h))).1
  case linked =>
    intro k h x hx hl
    have hc : (t.pc b).clears k := by simp [h, Pc.clears]
    rw [hclears hc] at h
    rw [(hcond hc (hh.nonempty k (.inr h))).2] at hx
    rcases hm.linking_of hl with ⟨-, hself⟩ | ⟨-, hl⟩
    · simp [(hI.cond x k).mpr (List.mem_of_mem_head? hx)] at hself
    · exact hh.linked k h x hx hl
  case walks =>
    intro h
    rw [hm.chain b hb, hm.batch b hb]
    refine hh.walks fun hw => ?_
    rcases hpc with hpc | ⟨⟨hs, -⟩, -⟩
    · exact h (hpc ▸ hw)
    · cases hp : s.pc b <;> simp_all [Pc.sleeps, Pc.walks]
  case nodup =>
    rw [hm.chain b hb]
    exact hh.nodup
  case first =>
    intro x hx hl
    rw [hm.chain b hb] at hx
    rcases hm.linking_of hl with ⟨-, hself⟩ | ⟨-, hl⟩
    · simp [(hI.chain x b).mpr (List.mem_of_mem_head? hx)] at hself
    · exact hh.first x hx hl
  case sleeps =>
    intro x hx
    have hx : loc x = .batch b := (hown (p := .batch b) hb).mp hx
    exact hm.sleeps (by simp [hx, hb]) (by simp [hx]) (hh.sleeps x hx)
  case given =>
    intro x hx
    have hx : loc x = .given b := (hown (p := .given b) hb).mp hx
    exact (hh.given x hx).imp_left (hm.sleeps (by simp [hx]) (by simp [hx, hb]))
  case behalf =>
    intro x hx
    rw [hm.op b hb] at hx
    have hl : loc x = .queue := (hI.queue x).mpr (hC.waiting_of_inside hx)
    exact hm.parked_of (by simp [hl]) (by simp [hl]) (hh.behalf x hx)

/-- Thread `a` itself, outside the words. -/
theorem Placed.local_of_walks (hP : Placed q loc t) (hidle : (t.core.op a).phase = .idle)
    (hfits : Fits a (t.pc a) .idle) (hlock : ∀ k, (t.pc a).clears k → t.condLock k = some a)
    (hwalks : (t.pc a).walks) (hnodup : (t.chain a).Nodup)
    (hfirst : ∀ x ∈ (t.chain a).head?, ¬ (t.pc x).linking)
    (hsleeps : ∀ x ∈ t.batch a, (t.pc x).sleeps) : Local loc t a where
  fits := by rwa [hidle]
  linking h := by cases hp : t.pc a <;> simp_all [Pc.linking, Pc.walks]
  lock := hlock
  nonempty k h := by rcases h with h | h <;> simp [h, Pc.walks] at hwalks
  linked k h := by simp [h, Pc.walks] at hwalks
  walks h := absurd hwalks h
  nodup := hnodup
  first := hfirst
  sleeps x hx := hsleeps x (by simpa [hidle] using (hP.batch x a).mp hx)
  given x hx := by simpa [hidle] using (hP.given x a).mp hx
  behalf x hx := by simp [hidle] at hx

theorem Placed.local_of_empty (hP : Placed q loc t) (hidle : (t.core.op a).phase = .idle)
    (hfits : Fits a (t.pc a) .idle) (hclears : ∀ k, ¬ (t.pc a).clears k)
    (hlinking : (t.pc a).linking → ∃ k, loc a = .cond k)
    (hlists : t.chain a = [] ∧ t.batch a = []) : Local loc t a where
  fits := by rwa [hidle]
  linking h := .inl (hlinking h)
  lock k h := absurd h (hclears k)
  nonempty k h := absurd (by rcases h with h | h <;> simp [h, Pc.clears]) (hclears k)
  linked k h := absurd (by simp [h, Pc.clears]) (hclears k)
  walks _ := hlists
  nodup := by simp [hlists.1]
  first x hx := by simp [hlists.1] at hx
  sleeps x hx := by simpa [hidle, hlists.2] using (hP.batch x a).mp hx
  given x hx := by simpa [hidle] using (hP.given x a).mp hx
  behalf x hx := by simp [hidle] at hx

theorem Tidy.waits_iff (hI : Tidy q loc s) : Waits s x ↔ (∃ k, loc x = .cond k) ∨
    (∃ b, loc x = .chain b) ∨ ∃ b, loc x = .hand b ∧ (s.core.op b).phase ≠ .before true x := by
  simp only [hI.cond, hI.chain, hI.hand]
  refine or_congr_right (or_congr_right (exists_congr fun b => ⟨fun h => ⟨.inl h, fun hp => ?_⟩,
    fun h => h.1.resolve_right h.2⟩))
  have := (hI.here b).fits.cases
  rw [hp] at this
  simp [h] at this

theorem Passes.phase_of [DecidableEq T] (hm : Passes loc a s t) (f : Phase T) (hf : f ≠ .idle)
    (h : (t.core.op b).phase = f) : (s.core.op b).phase = f := by
  by_cases hb : b = a
  · subst hb
    rcases hm.mine with hs | ⟨r, -, ht⟩
    · rwa [hs] at h
    · rw [ht] at h
      exact absurd h.symm hf
  · rwa [hm.op b hb] at h

theorem Passes.phase_iff [DecidableEq T] (hm : Passes loc a s t) (f : Phase T) (hf : f ≠ .idle)
    (hd : ∀ r : Result T, (Op.done r).phase ≠ f) :
    (t.core.op b).phase = f ↔ (s.core.op b).phase = f := by
  refine ⟨hm.phase_of f hf, fun h => ?_⟩
  by_cases hb : b = a
  · subst hb
    rcases hm.mine with hs | ⟨r, hs, -⟩
    · rwa [hs]
    · rw [hs] at h
      exact absurd h (hd r)
  · rwa [hm.op b hb]

namespace Inv

/-- The invariant after a step that passes threads on. -/
theorem pass [DecidableEq T] (hI : Inv q loc s) (hm : Passes loc a s t) (hC : t.core.Inv q)
    (hP : Placed q loc' t)
    (hlinked : ∀ x ≠ a, (s.pc x).linking → loc' x = loc x ∨ ∃ c, loc' x = .chain c)
    (hnodup : ∀ k, (t.cond k).Nodup) (ha : Local loc' t a)
    (hkept : Tidy q loc' t → ∀ x, Kept q loc' t x) : Inv q loc' t := by
  have hT : Tidy q loc' t := { hP with
    condNodup := hnodup
    here := fun b => by
      by_cases hb : b = a
      · rwa [hb]
      · exact hI.bystander hI.core hm hP hlinked hb }
  exact ⟨hT, hC, hkept hT⟩

/-- A thread that stays where it is. -/
theorem kept_still [DecidableEq T] (hI : Inv q loc s) (hI' : Tidy q loc' t) (hm : Passes loc a s t)
    (hl : loc' x = loc x)
    (ha : x = a → (t.pc a).deep = (s.pc a).deep ∧ ((t.pc a).holds → (s.pc a).holds) ∧
      ∀ k d, t.pc a = .waitAppend k d → s.pc a = .waitAppend k d)
    (hal : Unused loc s x → t.alNode x = s.alNode x) : Kept q loc' t x := by
  have hx := hI.kept x
  obtain ⟨hdeep, hholds, happ⟩ : (t.pc x).deep = (s.pc x).deep ∧
      ((t.pc x).holds → (s.pc x).holds) ∧
        ∀ k d, t.pc x = .waitAppend k d → s.pc x = .waitAppend k d := by
    by_cases hxa : x = a
    · rw [hxa]
      exact ha hxa
    rcases hm.pc x hxa with h | ⟨⟨-, -, hb⟩, hr⟩
    · rw [h]
      exact ⟨rfl, id, fun _ _ => id⟩
    · have hs : (t.pc x).sleeps := by
        rw [← hl] at hb
        rcases hb with hb | hb
        · exact (hI'.here a).sleeps x hb
        · exact ((hI'.here a).given x hb).resolve_right hxa
      rcases hr with hr | hr <;> simp [hr, Pc.sleeps] at hs
  have hwaits : Waits t x ↔ Waits s x := by
    rw [hI'.waits_iff, hI.waits_iff, hl]
    refine or_congr_right (or_congr_right (exists_congr fun b => and_congr_right fun _ =>
      not_congr (hm.phase_iff (.before true x) (by simp) fun r => ?_)))
    cases r <;> simp [Op.phase]
  constructor
  case waits =>
    intro hw
    rw [hm.mem, hdeep]
    exact hx.waits (hwaits.mp hw)
  case append =>
    intro k d h
    rw [hm.mem]
    exact hx.append k d (happ k d h)
  case deep =>
    intro h
    rw [hl]
    exact (hx.deep (hdeep ▸ h)).imp_left hwaits.mpr
  case holds =>
    intro h
    rw [hm.owner]
    refine hx.holds (h.imp hholds (Or.imp ?_ (Or.imp ?_ (hm.phase_of _ (by simp)))))
    all_goals
      rw [hl]
      exact id
  case clean =>
    intro h
    have hu : Unused loc s x := by
      rw [hl] at h
      refine h.imp_right (Or.imp_left (And.imp_right fun hb b hs => hb b ?_))
      refine (hm.phase_iff (.inside true x) (by simp) fun r => ?_).mpr hs
      cases r <;> simp [Op.phase]
    rw [hal hu]
    exact hx.clean hu

/-- A thread that waits on a condition variable from now on, or still does. -/
theorem kept_taken [DecidableEq T] (hI : Inv q loc s) (hI' : Tidy q loc' t) (hm : Passes loc a s t)
    (hw : Waits t x) (hg : ∀ b, loc' x ≠ .given b)
    (hmem : s.core.mem (.temp0 x) = if (t.pc x).deep then .null else .mutex)
    (happ : ∀ k d, t.pc x = .waitAppend k d → s.pc x = .waitAppend k d)
    (hholds : (t.pc x).holds → (s.pc x).holds) : Kept q loc' t x := by
  obtain ⟨hself, hqueue, hbatch, -⟩ := hw.place hI'
  constructor
  case waits => exact fun _ => hm.mem ▸ hmem
  case append => exact fun k d h => hm.mem ▸ (hI.kept x).append k d (happ k d h)
  case deep => exact fun _ => .inl hw
  case holds =>
    rintro (h | ⟨b, h⟩ | ⟨b, h⟩ | h)
    · rw [hm.owner]
      exact (hI.kept x).holds (.inl (hholds h))
    · exact absurd h (hbatch b)
    · exact absurd h (hg b)
    · rw [hm.owner]
      exact (hI.kept x).holds (.inr (.inr (.inr (hm.phase_of _ (by simp) h))))
  case clean =>
    rintro (h | ⟨h, -⟩ | ⟨b, h⟩)
    · exact absurd h hself
    · exact absurd h hqueue
    · exact absurd h (hg b)

/-- A thread that gets into a batch. -/
theorem kept_batch (hI : Inv q loc s) (hI' : Tidy q loc' t) (hm : Passes loc a s t)
    (hpc : t.pc x = s.pc x) (hl : loc' x = .batch b)
    (hh : q.view.holder = some x ∧ s.core.owner = some x) : Kept q loc' t x where
  waits hw := absurd hl ((hw.place hI').2.2.1 b)
  append k d h := hm.mem ▸ (hI.kept x).append k d (hpc ▸ h)
  deep _ := .inr ⟨b, hl⟩
  holds _ := ⟨hh.1, hm.owner ▸ hh.2⟩
  clean h := by simp [hl] at h

/-- A thread that goes on with the mutex. -/
theorem kept_woken (hI' : Tidy q loc' t) (hm : Passes loc a s t)
    (hh : q.view.holder = some x ∧ s.core.owner = some x) (hpc : t.pc x = .ready ∨ t.pc x = .ret)
    (hl : loc' x = .ready ∨ loc' x = .self ∧ t.alNode x = none) : Kept q loc' t x := by
  constructor
  case waits =>
    intro hw
    obtain ⟨hself, -⟩ := hw.place hI'
    rw [hI'.waits_iff] at hw
    rcases hl with hl | ⟨hl, -⟩ <;> simp [hl] at hw
  case append => rcases hpc with h | h <;> simp [h]
  case deep => rcases hpc with h | h <;> simp [h, Pc.deep]
  case holds => exact fun _ => ⟨hh.1, hm.owner ▸ hh.2⟩
  case clean =>
    intro h
    rcases hl with hl | ⟨-, hl⟩
    · simp [hl] at h
    · exact hl

end Inv

end MyosIo.Mutex
