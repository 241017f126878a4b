import MyosIo.Mutex.Exclusion

/-! The mutex is the queue lock of the library: threads become the owner in the order in which
their compare-exchange or exchange has put them into the queue. -/
namespace MyosIo.Mutex

open Function

variable {K T : Type*}

def Ev.lock : Ev T → LockEvent T T
  | .enter n => .enter n n
  | .own n => .acquire n
  | .hand h w => .hand h w
  | .free h => .free h
  | .queued _ | .silent => .silent

/-- What the users of the mutex see of a run. -/
def locks (xs : List (T × Act K T)) : List (LockEvent T T) := xs.map fun e => e.2.ev.lock

def asLock (x : Option T × List T) : FifoLock T T :=
  ⟨x.1.map fun n => (n, n), x.2.map fun n => (n, n)⟩

theorem Fair.lock {x y : Option T × List T} {e : Ev T} (h : Fair x e y) :
    (asLock x).Step e.lock (asLock y) := by
  cases h with
  | @enter h w n => simpa [asLock, Ev.lock] using FifoLock.Step.enter (l := asLock (h, w)) n n
  | own => exact .acquire
  | hand => exact .hand
  | free => exact .free
  | queued | silent => exact .silent

theorem front_length {o : Op T} {v : View T} (h : o.view = some v) : v.front.length ≤ 1 := by
  unfold Op.view at h
  split at h <;> cases h <;> simp

variable [DecidableEq K] [DecidableEq T] {q q' : Queue T T} {loc loc' : T → Loc K T}
  {s t : State K T} {a b n x : T} {l : Act K T} {recursive : Bool} {mem : T → Word T}
  {xs : List (T × Act K T)}

/-- The queue lock along a run. -/
theorem run_lock (h : Run Step (State.init recursive mem : State K T) xs s) :
    ∃ q loc, Inv q loc s ∧ Run FifoLock.Step .empty (locks xs) (asLock q.fair) := by
  induction h with
  | refl => exact ⟨_, _, .init recursive mem, .refl⟩
  | @step xs s t e _ hs ih =>
    obtain ⟨q, loc, hI, hrun⟩ := ih
    obtain ⟨a, l⟩ := e
    obtain ⟨q', loc', hI', hf⟩ := hI.step hs
    refine ⟨q', loc', hI', ?_⟩
    rw [locks, List.map_append]
    exact hrun.step hf.lock

namespace Core.Inv

variable {A N : Type*} [DecidableEq A] [DecidableEq N] {q : Queue A N} {s : Core A N}

omit [DecidableEq A] [DecidableEq N] in
theorem waiting_nodup (hI : Core.Inv q s) : q.waiting.Nodup := by
  have hrest : q.rest.Nodup := by
    have := hI.nodup
    rw [Links.cells, List.nodup_cons] at this
    exact this.2.of_map _
  have hlen : q.view.front.length ≤ 1 := by
    cases ha : q.agent with
    | none => simp [hI.quiet ha]
    | some a => exact front_length ((hI.here a).agent ha)
  rw [Queue.waiting, List.nodup_append]
  refine ⟨?_, hrest, fun x hx y hy hxy => hI.front x hx (hxy ▸ hy)⟩
  cases hfr : q.view.front with
  | nil => simp
  | cons n r =>
    cases r with
    | nil => simp
    | cons m r => simp [hfr] at hlen

omit [DecidableEq A] [DecidableEq N] in
/-- Between the operations `wait_end` is the node of the last thread that waits. -/
theorem waitEnd_idle (hI : Core.Inv q s) (hidle : ∀ a, s.op a = .idle) {n : N}
    (hn : q.waiting.getLast? = some n) : s.waitEnd = some (.temp0 n) := by
  have ha : q.agent = none := by
    by_contra h
    obtain ⟨a, ha⟩ := Option.ne_none_iff_exists'.mp h
    have := (hI.here a).agent ha
    simp [hidle a, Op.view] at this
  have hq := hI.quiet ha
  have hw : q.waiting = q.rest := by simp [Queue.waiting, hq]
  rw [hw] at hn
  have hfree : ¬ q.view.free := fun h => by simp [(hI.free h).2] at hn
  rw [hI.waitEnd hfree]
  obtain ⟨r, hr⟩ := List.getLast?_eq_some_iff.mp hn
  rw [hr, Links.lastCell_snoc, links_cell]

end Core.Inv

/-- Whoever enters the queue becomes the owner once, in the order of entry, or still waits; when
no operation is going on `wait_end` is the node of the last one of these. The release never
finds `wait_end` null, and every spin waits for a link that an operation still owes. -/
theorem queue_order (h : Run Step (State.init recursive mem : State K T) xs s) :
    ∃ waiting : List T, waiting.Nodup ∧
      FifoLock.entered (locks xs) = FifoLock.acquired (locks xs) ++ waiting ∧
      ((∀ a, s.core.op a = .idle) → ∀ n, waiting.getLast? = some n →
        s.core.waitEnd = some (.temp0 n)) ∧
      (∀ a, s.pc a ≠ .unreachable ∧ s.core.op a ≠ .unreachable) ∧
      ∀ a c, (s.core.op a).spins = some c → s.core.mem c = .null →
        ∃ b n, (s.core.op b).owes = some (c, n) := by
  obtain ⟨q, loc, hI, hlock⟩ := run_lock h
  refine ⟨q.waiting, hI.core.waiting_nodup, ?_, fun hidle n => hI.core.waitEnd_idle hidle,
    fun a => ⟨fun hp => ?_, (hI.core.here a).reachable⟩, fun a c => hI.core.spin_owed⟩
  · rw [FifoLock.entered_eq hlock]
    simp [asLock, Queue.fair, comp_def]
  · have := (hI.here a).fits
    rw [hp] at this
    exact this

/-- The same with one thread that holds the mutex and one that waits for it. -/
theorem queue_order_sample : ∃ xs, ∃ s : State Unit Bool,
    Run Step (State.init false (fun _ => .null)) xs s ∧
      FifoLock.entered (locks xs) = [true, false] ∧ FifoLock.acquired (locks xs) = [true] ∧
      s.core.waitEnd = some (.temp0 false) := by
  have h₀ : Run Step (State.init false (fun _ => .null) : State Unit Bool) [] _ := .refl
  have h₁ := h₀.step (.lockFree (a := true) (b := false) rfl rfl)
  have h₂ := h₁.step (.words (.fastEnd (a := true) (n := true) rfl) nofun nofun)
  have h₃ := h₂.step (.words (.fastCas (a := true) (n := true) rfl rfl) nofun nofun)
  have h₄ := h₃.step (.words (.own (a := true) (b := false) (n := true) rfl) nofun nofun)
  have h₅ := h₄.step (.locked (a := true) (n := true) (.inr ⟨false, rfl⟩) rfl)
  have h₆ := h₅.step (.lockOther (a := false) (u := true) rfl rfl (by decide))
  have h₇ := h₆.step (.words (.null (a := false) (b := false) (n := false) rfl) nofun nofun)
  have h₈ := h₇.step (.words (.loadEnd (a := false) (b := false) (n := false) rfl) nofun nofun)
  have h₉ := h₈.step (.words (.exchange (a := false) (b := false) (n := false) rfl) nofun nofun)
  have h₁₀ := h₉.step (.queued (a := false) rfl
    (.link (a := false) (b := false) (n := false) (c := .waiters) rfl))
  obtain ⟨w, -, hw, hend, -⟩ := queue_order h₁₀
  refine ⟨_, _, h₁₀, rfl, rfl, hend (fun a => by cases a <;> rfl) false ?_⟩
  obtain rfl : [false] = w := List.append_cancel_left (show [true] ++ [false] = [true] ++ w from hw)
  rfl

end MyosIo.Mutex
