import MyosIo.Spinlock.Correct
import MyosIo.Sched.Memory

/-! Where each core is with its member, and what follows from that for the lock. -/
namespace MyosIo.Sched.Memory

open Function

variable {C T P : Type*} {s t : State C T P} {c d : C} {p : Spinlock.Pc (Node C T)} {r : Option T}
  {q : Pc T} {m : Node C T} {me : T} {l : FifoLock C (Node C T)} {e : Event C T}

/-- A core that has no use for its member; it may have initialised the one on its own stack. -/
def Stale (c : C) (p : Spinlock.Pc (Node C T)) : Prop :=
  p = .idle ∨ p = .initNext (.core c) ∨ p = .ready (.core c)

/-- The member that a core uses when it has interrupted thread `cur`, or none. -/
def Keeps (c : C) (cur : Option T) (m : Node C T) : Prop :=
  match cur with
  | none => m = .core c
  | some me => ∃ sp, m = .below me sp

/-- Where a core is with its member, `r` being the thread it runs. -/
def AtLock (c : C) (p : Spinlock.Pc (Node C T)) (r : Option T) : Pc T → Prop
  | .withdraw | .load | .reserve _ | .decOld => p = .ready (.core c)
  | .tick => Stale c p ∨
      ∃ me sp, r = some me ∧ (p = .initNext (.below me sp) ∨ p = .ready (.below me sp))
  | .tickAppend me | .tickLink me => ∃ sp, p = .ready (.below me sp)
  | .lock cur => ∃ m, Keeps c cur m ∧ p = .ready m
  | .spin cur => ∃ m, Keeps c cur m ∧ (p = .spin m ∨ ∃ o, p = .exchanged m o)
  | .pop cur => ∃ m, Keeps c cur m ∧ p = .held m
  | .unlock cur _ => ∃ m, Keeps c cur m ∧
      (p = .held m ∨ p = .cas m ∨ p = .waitNext m ∨ ∃ n, p = .grant m n)
  | _ => Stale c p

theorem Stale.member (h : Stale c p) (hm : p.member = some m) : m = .core c := by
  obtain rfl | rfl | rfl := h
  · cases hm
  · exact (Option.some.inj hm).symm
  · exact (Option.some.inj hm).symm

theorem Stale.queued (h : Stale c p) : p.queued = none := by
  obtain rfl | rfl | rfl := h <;> rfl

/-- The member of a core lies on its own stack, or below the thread that it has published or has in
its hands. -/
theorem AtLock.member (h : AtLock c p r q) (hm : p.member = some m) : m = .core c ∨
    ∃ me sp, m = .below me sp ∧ (q.standing = some me ∨ q.hand r = some me) := by
  have hkeeps : ∀ cur m', Keeps c cur m' → m' = m → (∀ me, cur = some me → q.standing = some me) →
      m = .core c ∨ ∃ me sp, m = .below me sp ∧ (q.standing = some me ∨ q.hand r = some me) := by
    rintro cur _ hk rfl hq
    cases cur with
    | none => exact .inl hk
    | some me =>
      obtain ⟨sp, rfl⟩ := hk
      exact .inr ⟨me, sp, rfl, .inl (hq me rfl)⟩
  cases q with
  | withdraw | load | reserve | decOld =>
    obtain rfl : p = .ready (.core c) := h
    exact .inl (Option.some.inj hm).symm
  | tick =>
    obtain h | ⟨me, sp, rfl, rfl | rfl⟩ := h
    · exact .inl (h.member hm)
    · exact .inr ⟨me, sp, (Option.some.inj hm).symm, .inr rfl⟩
    · exact .inr ⟨me, sp, (Option.some.inj hm).symm, .inr rfl⟩
  | tickAppend me =>
    obtain ⟨sp, rfl⟩ := h
    exact .inr ⟨me, sp, (Option.some.inj hm).symm, .inr rfl⟩
  | tickLink me =>
    obtain ⟨sp, rfl⟩ := h
    exact .inr ⟨me, sp, (Option.some.inj hm).symm, .inl rfl⟩
  | lock cur =>
    obtain ⟨m', hk, rfl⟩ := h
    exact hkeeps cur m' hk (Option.some.inj hm) fun _ h => h
  | spin cur =>
    obtain ⟨m', hk, rfl | ⟨o, rfl⟩⟩ := h <;>
      exact hkeeps cur m' hk (Option.some.inj hm) fun _ h => h
  | pop cur =>
    obtain ⟨m', hk, rfl⟩ := h
    exact hkeeps cur m' hk (Option.some.inj hm) fun _ h => h
  | unlock cur t =>
    obtain ⟨m', hk, rfl | rfl | rfl | ⟨n, rfl⟩⟩ := h <;>
      exact hkeeps cur m' hk (Option.some.inj hm) fun _ h => h
  | _ => exact .inl (Stale.member h hm)

theorem AtLock.queued (h : AtLock c p r q) (hq : q.locking = false) : p.queued = none := by
  cases q with
  | spin | pop | unlock => cases hq
  | withdraw | load | reserve | decOld =>
    obtain rfl : p = .ready (.core c) := h
    rfl
  | tick =>
    obtain h | ⟨me, sp, rfl, rfl | rfl⟩ := h
    · exact h.queued
    · rfl
    · rfl
  | tickAppend | tickLink =>
    obtain ⟨sp, rfl⟩ := h
    rfl
  | lock cur =>
    obtain ⟨m', hk, rfl⟩ := h
    rfl
  | _ => exact Stale.queued h

/-- A core with its member in the queue. -/
theorem AtLock.keeps (h : AtLock c p r q) (hq : p.queued = some m) : ∃ cur, Keeps c cur m ∧
    (q = .spin cur ∧ (p = .spin m ∨ ∃ o, p = .exchanged m o) ∨ q = .pop cur ∧ p = .held m ∨
      ∃ t, q = .unlock cur t ∧
        (p = .held m ∨ p = .cas m ∨ p = .waitNext m ∨ ∃ n, p = .grant m n)) := by
  cases hl : q.locking with
  | false => cases (h.queued hl).symm.trans hq
  | true =>
    cases q with
    | spin cur =>
      obtain ⟨m', hk, hp⟩ := h
      obtain rfl : m' = m := by
        obtain rfl | ⟨o, rfl⟩ := hp <;> exact Option.some.inj hq
      exact ⟨cur, hk, .inl ⟨rfl, hp⟩⟩
    | pop cur =>
      obtain ⟨m', hk, rfl⟩ := h
      obtain rfl : m' = m := Option.some.inj hq
      exact ⟨cur, hk, .inr (.inl ⟨rfl, rfl⟩)⟩
    | unlock cur t =>
      obtain ⟨m', hk, hp⟩ := h
      obtain rfl : m' = m := by
        obtain rfl | rfl | rfl | ⟨n, rfl⟩ := hp <;> exact Option.some.inj hq
      exact ⟨cur, hk, .inr (.inr ⟨t, rfl, hp⟩)⟩
    | _ => cases hl

/-- A core that has the lock is its holder. -/
theorem AtLock.holder (h : AtLock c (s.mtx.pc c) r q) (hq : q.serving) (hl : Spinlock.Inv l s.mtx) :
    ∃ m w, l = ⟨some (c, m), w⟩ := by
  have hmember : ∃ m, (s.mtx.pc c).queued = some m ∧ (∀ o, s.mtx.pc c ≠ .exchanged m o) ∧
      s.mtx.pc c ≠ .spin m := by
    cases q with
    | pop =>
      obtain ⟨m, -, hp⟩ := h
      rw [hp]
      exact ⟨m, rfl, nofun, nofun⟩
    | unlock =>
      obtain ⟨m, -, hp | hp | hp | ⟨n, hp⟩⟩ := h <;>
        · rw [hp]
          exact ⟨m, rfl, nofun, nofun⟩
    | _ => cases hq
  obtain ⟨m, hqueued, hne, hns⟩ := hmember
  obtain ⟨w, rfl, -⟩ := hl.holding hqueued hne hns
  exact ⟨m, w, rfl⟩

/-- A step outside of the list and its lock. -/
theorem aside_frame [DecidableEq C] [DecidableEq T] {s t : Sched.State C T P}
    {e : Sched.Event C T} (hs : Sched.Step s e t)
    (hpc : ∀ c, t.pc c = s.pc c ∨ aside (s.pc c) ∧ aside (t.pc c)) :
    t.queue = s.queue ∧ t.lock = s.lock := by
  cases hs with
  | @append c _ hp | @keyboardBusy c _ hp | @lock c _ hp | @remove c _ _ _ hp | @unlock c _ _ hp
  | @tickAppend c _ hp =>
    have hc := hpc c
    simp [Sched.State.setPc, Sched.State.append, aside, hp] at hc
  | _ => exact ⟨rfl, rfl⟩

theorem atLock_aside [DecidableEq C] [DecidableEq T] {s t : Sched.State C T P}
    {e : Sched.Event C T} {p : C → Spinlock.Pc (Node C T)} (hs : Sched.Step s e t)
    (hpc : ∀ c, t.pc c = s.pc c ∨ aside (s.pc c) ∧ aside (t.pc c) ∧ Prepared c (p c) (t.pc c))
    (h : ∀ c, AtLock c (p c) (s.running c) (s.pc c)) :
    ∀ c, AtLock c (p c) (t.running c) (t.pc c) := by
  intro d
  have hd := h d
  have hpd := hpc d
  cases hs
  case deliverRun => exact hd
  case decOld c hp =>
    rcases eq_or_ne d c with rfl | hne
    · rw [hp] at hd
      simp only [Sched.State.setPc, update_self]
      exact ⟨_, rfl, hd⟩
    · simpa [Sched.State.setPc, hne] using hd
  all_goals
    simp only [Sched.State.setPc, Sched.State.append, update_apply] at *
    split
  all_goals
    grind -linarith [AtLock, aside, Prepared, Stale]

end MyosIo.Sched.Memory
