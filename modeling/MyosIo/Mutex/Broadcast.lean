import MyosIo.Mutex.Order

/-! Which threads a broadcast has to move, and what it has done with them, read off the history. -/
namespace MyosIo.Mutex

open Function

variable {K T : Type*}

/-- `list k` are the threads that have appended themselves to `k` and that no broadcast has
taken; `claimed b` is what the last `al_clear` of `b` took, and `moved b` how it went on. -/
structure Book (K T : Type*) where
  list : K → List T
  claimed : T → List T
  moved : T → List (T × How)

def Book.empty : Book K T := ⟨fun _ => [], fun _ => [], fun _ => []⟩

variable [DecidableEq K] [DecidableEq T]

def Book.write (B : Book K T) : T × Act K T → Book K T
  | (a, .append k) => { B with list := update B.list k (B.list k ++ [a]) }
  | (b, .clear k) =>
    { list := update B.list k []
      claimed := update B.claimed b (B.list k)
      moved := update B.moved b [] }
  | (b, .moved n how) => { B with moved := update B.moved b (B.moved b ++ [(n, how)]) }
  | _ => B

def book (xs : List (T × Act K T)) : Book K T := replay Book.write .empty xs

/-- The thread a broadcast has in its hands. -/
def Pc.hands : Pc K T → List T
  | .temp n | .move n => [n]
  | _ => []

variable {q q' : Queue T T} {loc loc' : T → Loc K T}
  {s t : State K T} {a b n x : T} {l : Act K T} {how : How} {recursive : Bool} {mem : T → Word T}
  {xs : List (T × Act K T)} {B : Book K T}

/-- The book and the lists of a state. -/
structure Booked (B : Book K T) (s : State K T) : Prop where
  list : B.list = s.cond
  claimed : ∀ b, B.claimed b = (B.moved b).map Prod.fst ++ (s.pc b).hands ++ s.chain b
  nodup : ∀ b, (B.claimed b).Nodup
  batch : ∀ b, (s.pc b).walks → ∀ n how, (n, how) ∈ B.moved b → how ≠ .queued → n ∈ s.batch b

omit [DecidableEq K] [DecidableEq T] in
/-- A step that has nothing to do with what broadcasts move. -/
theorem Booked.quiet (hB : Booked B s) (hc : t.cond = s.cond) (hch : t.chain = s.chain)
    (hb : t.batch = s.batch)
    (hp : ∀ b, (t.pc b).hands = (s.pc b).hands ∧ ((t.pc b).walks → (s.pc b).walks)) :
    Booked B t where
  list := by rw [hc, hB.list]
  claimed b := by rw [(hp b).1, hch, hB.claimed]
  nodup := hB.nodup
  batch b hw := by
    rw [hb]
    exact hB.batch b ((hp b).2 hw)

omit [DecidableEq K] [DecidableEq T] in
theorem Inv.temp_ne_node (hI : Inv q loc s) (hp : s.pc a = .temp n) (m : T) :
    s.core.mem (.temp0 n) ≠ .node m := by
  intro hm
  have := (hI.kept n).waits (.inr (.inr ⟨a, hp⟩))
  cases hd : (s.pc n).deep <;> simp [hm, hd] at this

theorem booked_step (hI : Inv q loc s) (hB : Booked B s) (hs : Step s (a, l) t) :
    Booked (B.write (a, l)) t := by
  have hwalks := (hI.here a).walks
  have hnodup := hI.condNodup
  obtain ⟨b1, b2, b3, b4⟩ := id hB
  cases hs with
  | @tempNode _ n m hp hm => exact absurd hm (hI.temp_ne_node hp m)
  | waitAppend hp =>
    refine ⟨by simp [Book.write, b1], fun b => ?_, b3, fun b => ?_⟩
    all_goals simp only [State.setPc, update_apply, Book.write]
    all_goals grind -linarith [Pc.hands, Pc.walks]
  | @clearExchange _ k hp =>
    have hlists := hwalks (by simp [hp, Pc.walks])
    refine ⟨by simp [Book.write, b1], fun b => ?_, fun b => ?_, fun b => ?_⟩
    all_goals simp only [State.setPc, update_apply, Book.write, b1]
    all_goals grind -linarith [Pc.hands, Pc.walks]
  | next hp hc =>
    refine ⟨b1, fun b => ?_, b3, fun b => ?_⟩
    all_goals simp only [State.setPc, update_apply, Book.write]
    all_goals grind -linarith [Pc.hands, Pc.walks]
  | tempNull hp =>
    refine ⟨b1, fun b => ?_, b3, fun b => ?_⟩
    all_goals simp only [State.setPc, State.listAdd, update_apply, Book.write]
    all_goals grind -linarith [Pc.hands, Pc.walks]
  | moveOwner hp =>
    refine ⟨b1, fun b => ?_, b3, fun b => ?_⟩
    all_goals simp only [State.call, State.setPc, State.listAdd, update_apply, Book.write]
    all_goals grind -linarith [Pc.hands, Pc.walks]
  | moveQueued hp =>
    refine ⟨b1, fun b => ?_, b3, fun b => ?_⟩
    all_goals simp only [State.setPc, update_apply, Book.write]
    all_goals grind -linarith [Pc.hands, Pc.walks]
  | publish hp hc =>
    have hasleep {x} (hx : x ∈ s.batch a) : ∃ d, s.pc x = .asleep d :=
      (hI.asleep ((hI.here a).sleeps x ((hI.batch x a).mpr (.inl hx)))).1
    refine ⟨b1, fun b => ?_, b3, fun b => ?_⟩
    all_goals simp only [update_apply, Book.write]
    all_goals grind -linarith [Pc.hands, Pc.walks, Pc.sleeps]
  | @wake _ w hp ho =>
    have hw := ((hI.here a).given w ((hI.given w a).mpr (by rw [ho]; rfl))).imp_left hI.asleep
    refine hB.quiet rfl rfl rfl fun b => ?_
    simp only [State.call, State.setPc, update_apply]
    grind -linarith [Pc.hands, Pc.walks, Pc.sleeps]
  | @switchTo _ w hp ho =>
    have hw := ((hI.here a).given w ((hI.given w a).mpr (by rw [ho]; rfl))).imp_left hI.asleep
    refine hB.quiet rfl rfl rfl fun b => ?_
    simp only [State.call, State.setPc, update_apply]
    grind -linarith [Pc.hands, Pc.walks, Pc.sleeps]
  | _ =>
    refine hB.quiet rfl rfl rfl fun b => ?_
    clear hI hB hwalks hnodup b1 b2 b3 b4
    simp only [State.call, State.setPc, update_apply]
    grind -linarith [Pc.hands, Pc.walks]

/-- An agent in the middle of its part can go on, or spins. -/
theorem Core.enter_step {A N : Type*} [DecidableEq A] [DecidableEq N] {s : Core A N} {a : A}
    {v : Bool}
    {n : N} {p : Enter N} (ho : s.op a = .enter v n p) :
    (∃ e t, s.Step (a, e) t) ∨ ∃ c, (s.op a).spins = some c ∧ s.mem c = .null := by
  cases p with
  | null => exact .inl ⟨_, _, .null ho⟩
  | loadEnd => exact .inl ⟨_, _, .loadEnd ho⟩
  | cas =>
    by_cases he : s.waitEnd = none
    · exact .inl ⟨_, _, .casOk ho he⟩
    · exact .inl ⟨_, _, .casFail ho he⟩
  | exchange => exact .inl ⟨_, _, .exchange ho⟩
  | casNode =>
    by_cases he : s.waitEnd = some (.temp0 n)
    · exact .inl ⟨_, _, .casNodeOk ho he⟩
    · exact .inl ⟨_, _, .casNodeFail ho he⟩
  | own => exact .inl ⟨_, _, .own ho⟩
  | ownFollow => exact .inl ⟨_, _, .ownFollow ho⟩
  | copyLoad =>
    by_cases hm : s.mem (.temp0 n) = .null
    · exact .inr ⟨.temp0 n, by rw [ho]; rfl, hm⟩
    · exact .inl ⟨_, _, .copyLoad ho hm⟩
  | copyStore w => exact .inl ⟨_, _, .copyStore ho⟩
  | link c => exact .inl ⟨_, _, .link ho⟩

/-- A broadcast that has taken its threads can go on, or waits for a link another thread owes. -/
theorem Inv.broadcast_step (hI : Inv q loc s) (hw : (s.pc b).walks) :
    (∃ l t, Step s (b, l) t) ∨ (∃ m, (s.pc m).linking) ∨
      ∃ c a n, (s.core.op a).owes = some (c, n) := by
  have hfit := (hI.here b).fits
  cases hp : s.pc b with
  | clearUnlock k => exact .inl ⟨_, _, .clearUnlock hp⟩
  | next =>
    cases hc : s.chain b with
    | nil => exact .inl ⟨_, _, .publish hp hc⟩
    | cons n r =>
      by_cases hl : ∀ m ∈ r.head?, ¬ (s.pc m).linking
      · exact .inl ⟨_, _, .next hp hc hl⟩
      · push Not at hl
        obtain ⟨m, -, hm⟩ := hl
        exact .inr (.inl ⟨m, hm⟩)
  | temp n =>
    cases hm : s.core.mem (.temp0 n) with
    | null => exact .inl ⟨_, _, .tempNull hp hm⟩
    | mutex => exact .inl ⟨_, _, .tempMutex hp hm⟩
    | node m => exact .inl ⟨_, _, .tempNode hp hm⟩
  | move n =>
    rw [hp] at hfit
    cases ho : s.core.op b with
    | enter v m p =>
      rcases Core.enter_step ho with ⟨e, c, hs⟩ | ⟨c, hs, hm⟩
      · cases e with
        | queued m => exact .inl ⟨_, _, .moveQueued hp hs⟩
        | free h =>
          rw [hs.phase.2.1] at hfit
          simp [Fits] at hfit
        | _ => exact .inl ⟨_, _, .words hs (by simp) (by simp)⟩
      · obtain ⟨a, n, hn⟩ := hI.core.spin_owed hs hm
        exact .inr (.inr ⟨c, a, n, hn⟩)
    | done r =>
      cases r with
      | owner m => exact .inl ⟨_, _, .moveOwner hp ho⟩
      | _ => simp [ho, Fits, Op.phase] at hfit
    | release h p => cases p <;> simp [ho, Fits, Op.phase] at hfit
    | _ => simp [ho, Fits, Op.phase] at hfit
  | _ => simp [hp, Pc.walks] at hw

/-- The queue lock and the book along a run. -/
theorem run_book (h : Run Step (State.init recursive mem : State K T) xs s) :
    ∃ q loc, Inv q loc s ∧ Run FifoLock.Step .empty (locks xs) (asLock q.fair) ∧
      Booked (book xs) s := by
  induction h with
  | refl =>
    refine ⟨_, _, .init recursive mem, .refl, ?_⟩
    constructor <;> simp [book, Book.empty, State.init, Pc.hands]
  | @step xs s t e _ hs ih =>
    obtain ⟨q, loc, hI, hrun, hB⟩ := ih
    obtain ⟨a, l⟩ := e
    obtain ⟨q', loc', hI', hf⟩ := hI.step hs
    refine ⟨q', loc', hI', ?_, ?_⟩
    · rw [locks, List.map_append]
      exact hrun.step hf.lock
    · rw [book, replay_snoc]
      exact booked_step hI hB hs

/-- What it means that a broadcast has moved a thread. -/
def Moved (xs : List (T × Act K T)) (b n : T) (s t : State K T) : How → Prop
  | .owner => t.core.owner = some n ∧ n ∈ t.batch b
  | .queued => ∃ w, FifoLock.entered (locks xs) = FifoLock.acquired (locks xs) ++ w ∧ n ∈ w
  | .untouched => s.pc n = .asleep true ∧ t.core = s.core ∧ s.core.owner = some n ∧ n ∈ t.batch b

theorem moved_step (hI : Inv q loc s) (hlock : Run FifoLock.Step .empty (locks xs) (asLock q.fair))
    (hs : Step s (b, .moved n how) t) : Moved xs b n s t how := by
  have hfit := (hI.here b).fits
  cases hs with
  | tempNull hp hm =>
    have hd := hI.sleeps_of_null hp hm
    have hh := (hI.kept n).holds (.inl (by simp [hd, Pc.holds]))
    exact ⟨hd, rfl, hh.2, by simp [State.listAdd]⟩
  | @moveOwner _ _ m hp ho =>
    have hl : loc n = .batch b := (hI.batch n b).mpr (.inr ⟨hp, by
      rw [hp, ho] at hfit
      rw [ho]
      simpa [Fits, Op.phase] using hfit⟩)
    exact ⟨((hI.kept n).holds (.inr (.inl ⟨b, hl⟩))).2, by simp [State.listAdd]⟩
  | @moveQueued _ _ m c hp hs =>
    have hw : n ∈ q.waiting := by
      obtain ⟨⟨v, hv⟩, -⟩ := hs.phase.2
      rw [hp, hv] at hfit
      obtain ⟨-, rfl⟩ : v = true ∧ m = n := by simpa [Fits] using hfit
      exact hI.core.waiting_of_inside hv
    refine ⟨q.waiting, ?_, hw⟩
    rw [FifoLock.entered_eq hlock]
    simp [asLock, Queue.fair, comp_def]

/-- A broadcast that returns has made the threads schedulable that are not in the queue. -/
theorem batch_ready (hI : Inv q loc s) (hs : Step s (b, l) t) (hw : (s.pc b).walks)
    (hw' : ¬ (t.pc b).walks) (hn : n ∈ s.batch b) : t.pc n = .ready := by
  cases hs with
  | publish hp hc =>
    have hself : loc b = .self := by
      have hfit := (hI.here b).fits
      rw [hp] at hfit
      replace hfit : (s.core.op b).phase = .idle := hfit
      exact (hI.self b).mpr ⟨by simp [hp, Pc.runs], by simp [hfit]⟩
    have hnb : n ≠ b := by
      rintro rfl
      simpa [hself] using (hI.batch n n).mpr (.inl hn)
    simp [hnb, hn]
  | tempNode hp hm => exact absurd hm (hI.temp_ne_node hp _)
  | locked hp =>
    rcases hp with hp | ⟨d, hp⟩ <;> simp [hp, Pc.walks] at hw
  | _ => simp_all [State.call, State.setPc, State.listAdd, Pc.walks]

/-- No wake-up is lost: a broadcast moves every thread its `al_clear` has taken, in the order of
their appends and each once, and has done so when it returns; nobody else is moved. -/
theorem broadcast_moves (h : Run Step (State.init recursive mem : State K T) xs s) :
    (∀ b, (book xs).claimed b =
        ((book xs).moved b).map Prod.fst ++ (s.pc b).hands ++ s.chain b) ∧
      (∀ b, ((book xs).claimed b).Nodup) ∧
      (∀ b, ¬ (s.pc b).walks → ((book xs).moved b).map Prod.fst = (book xs).claimed b) ∧
      (∀ b n how t, Step s (b, .moved n how) t → Moved xs b n s t how) ∧
      (∀ b, (s.pc b).walks → ∀ n how, (n, how) ∈ (book xs).moved b → how ≠ .queued →
        n ∈ s.batch b) ∧
      (∀ b l t, Step s (b, l) t → (s.pc b).walks → ¬ (t.pc b).walks →
        ∀ n ∈ s.batch b, t.pc n = .ready) ∧
      (∀ b, (s.pc b).walks → (∃ l t, Step s (b, l) t) ∨ (∃ m, (s.pc m).linking) ∨
        ∃ c a n, (s.core.op a).owes = some (c, n)) ∧
      ∀ a t, Step s (a, .success) t → s.core.owner = some a := by
  obtain ⟨q, loc, hI, hlock, hB⟩ : ∃ q loc, Inv q loc s ∧
      Run FifoLock.Step .empty (locks xs) (asLock q.fair) ∧ Booked (book xs) s := run_book h
  refine ⟨hB.claimed, hB.nodup, fun b hw => ?_, fun b n how t => moved_step hI hlock, hB.batch,
    fun b l t hs hw hw' n => batch_ready hI hs hw hw', fun b => hI.broadcast_step,
    fun a t => hI.owner_of_success⟩
  have hhands : (s.pc b).hands = [] := by
    cases hp : s.pc b <;> simp_all [Pc.walks, Pc.hands]
  simp [hB.claimed b, hhands, ((hI.here b).walks hw).1]

/-- A thread waits, and a broadcast makes it the owner again. -/
theorem broadcast_moves_sample : ∃ xs, ∃ s : State Unit Bool,
    Run Step (State.init false (fun _ => .null)) xs s ∧
      ((book xs).moved false).map Prod.fst = (book xs).claimed false ∧
      (book xs).moved false = [(true, .owner)] ∧ s.pc true = .ready := by
  have h₀ : Run Step (State.init false (fun _ => .null) : State Unit Bool) [] _ := .refl
  have h₁ := h₀.step (.lockFree (a := true) (b := false) rfl rfl)
  have h₂ := h₁.step (.words (.fastEnd (a := true) (n := true) rfl) nofun nofun)
  have h₃ := h₂.step (.words (.fastCas (a := true) (n := true) rfl rfl) nofun nofun)
  have h₄ := h₃.step (.words (.own (a := true) (b := false) (n := true) rfl) nofun nofun)
  have h₅ := (h₄.step (.locked (a := true) (n := true) (.inr ⟨false, rfl⟩) rfl)).step
    (.ret (a := true) rfl)
  -- `cnd_wait`, with the release of the mutex
  have h₆ := (h₅.step (.waitLoad (a := true) (k := ()) rfl nofun)).step
    (.waitOwner (a := true) (k := ()) rfl)
  have h₇ := (h₆.step (.waitTemp (a := true) (k := ()) rfl)).step
    (.waitAppend (a := true) (k := ()) (b := false) rfl)
  have h₈ := h₇.step (.waitRelease (a := true) (k := ()) rfl)
  have h₉ := h₈.step (.words (.loadWaiters (a := true) (h := true) rfl) nofun nofun)
  have h₁₀ := h₉.step (.words (.loadEndRelease (a := true) (h := true) rfl) nofun nofun)
  have h₁₁ := h₁₀.step (.words (.clearOwner (a := true) (h := true) rfl) nofun nofun)
  have h₁₂ := h₁₁.step (.freeWait (a := true) (h := true) rfl (.casFree rfl rfl))
  -- `cnd_broadcast`
  have h₁₃ := (h₁₂.step (.clearLock (a := false) (k := ()) rfl rfl)).step
    (.clearEnd (a := false) (k := ()) rfl (by decide : [true] ≠ []))
  have h₁₄ := (h₁₃.step (.clearHead (a := false) (k := ()) rfl (by rintro _ ⟨rfl⟩; exact id))).step
    (.clearExchange (a := false) (k := ()) rfl)
  have h₁₅ := (h₁₄.step (.clearUnlock (a := false) (k := ()) rfl)).step
    (.next (a := false) (n := true) (l := []) rfl rfl nofun)
  have h₁₆ := h₁₅.step (.tempMutex (a := false) (n := true) rfl rfl)
  have h₁₇ := h₁₆.step (.words (.loadEnd (a := false) (b := true) (n := true) rfl) nofun nofun)
  have h₁₈ := h₁₇.step (.words (.casOk (a := false) (b := true) (n := true) rfl rfl) nofun nofun)
  have h₁₉ := h₁₈.step (.words (.own (a := false) (b := true) (n := true) rfl) nofun nofun)
  have h₂₀ := (h₁₉.step (.moveOwner (a := false) (n := true) (m := true) rfl rfl)).step
    (.publish (a := false) rfl rfl)
  exact ⟨_, _, h₂₀, (broadcast_moves h₂₀).2.2.1 false id, rfl, rfl⟩

end MyosIo.Mutex
