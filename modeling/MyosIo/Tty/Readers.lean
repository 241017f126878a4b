import MyosIo.Tty.Line

/-! Any number of threads in `tty_read` and `tty_readv` beside `keyboard_thread`, with `read_mtx`
and `read_cnd` as their contracts have them: `cnd_wait` gives the lock back and joins the waiting
threads in one step, and `cnd_broadcast` takes every waiting thread off. -/
namespace MyosIo.Tty

open Function

variable {ι : Type*}

/-- A read that takes the lock. -/
inductive Call
  | read (size : ℕ)
  | readv (iov : List ℕ) (iovcnt : ℤ)

/-- Whether the call returns without taking the lock. -/
def Call.Direct : Call → Prop
  | .read size => size = 0
  | .readv iov iovcnt => Immediate iov iovcnt

/-- The calls' critical section after the waiting loop, with the call as the buffer sees it. -/
def Call.serve (s : TTY) : Call → Option (TTY × Op)
  | .read size => (ttyRead s size).map fun (t, bytes, _) => (t, .read size bytes)
  | .readv iov iovcnt => (ttyReadv s iov iovcnt).map fun (t, done, _) => (t, .readv iov iovcnt done)

/-- Where a reading thread is. -/
inductive Reader
  | outside
  -- before mtx_lock, or in cnd_wait and no longer on `read_cnd`
  | locking (c : Call)
  | testing (c : Call)
  -- in cnd_wait with the lock
  | sleepy (c : Call)
  | waiting (c : Call)
  | copying (c : Call)
  | leaving

/-- Where `keyboard_thread` is. -/
inductive Writer
  | outside
  | handling (backNum : ℕ) (c : List UInt8)
  -- the broadcast is out, or was not called for
  | storing (backNum : ℕ) (c : List UInt8)
  | leaving

/-- Who holds `read_mtx`. -/
inductive Party (ι : Type*)
  | keyboard
  | reader (i : ι)
  deriving DecidableEq

structure System (ι : Type*) where
  tty : TTY
  mtx : Option (Party ι)
  reader : ι → Reader
  keyboard : Writer

/-- What `cnd_broadcast` does to a thread. -/
def Reader.woken : Reader → Reader
  | .waiting c => .locking c
  | r => r

namespace System

/-- Thread `i` is on `read_cnd`. -/
def Waiting (s : System ι) (i : ι) : Prop := ∃ c, s.reader i = .waiting c

/-- No thread is in a critical section or asleep; the buffer holds whatever it holds. -/
structure Start (s : System ι) : Prop where
  mtx : s.mtx = none
  reader : ∀ i, s.reader i = .outside
  keyboard : s.keyboard = .outside

variable [DecidableEq ι]

/-- The steps; a label is what the step does to the buffer. -/
inductive Step (s : System ι) : Option Op → System ι → Prop
  | call (i : ι) (c : Call) (h : s.reader i = .outside) (hc : ¬c.Direct) :
      Step s none { s with reader := update s.reader i (.locking c) }
  | lock (i : ι) (c : Call) (h : s.reader i = .locking c) (hm : s.mtx = none) :
      Step s none
        { s with mtx := some (.reader i), reader := update s.reader i (.testing c) }
  | nothing (i : ι) (c : Call) (h : s.reader i = .testing c) (hv : s.tty.visible = 0) :
      Step s none { s with reader := update s.reader i (.sleepy c) }
  | something (i : ι) (c : Call) (h : s.reader i = .testing c) (hv : s.tty.visible ≠ 0) :
      Step s none { s with reader := update s.reader i (.copying c) }
  | wait (i : ι) (c : Call) (h : s.reader i = .sleepy c) :
      Step s none { s with mtx := none, reader := update s.reader i (.waiting c) }
  -- `cnd_wait` may come back without a broadcast
  | spurious (i : ι) (c : Call) (h : s.reader i = .waiting c) :
      Step s none { s with reader := update s.reader i (.locking c) }
  | copy (i : ι) (c : Call) (h : s.reader i = .copying c) (t : TTY) (op : Op)
      (ht : c.serve s.tty = some (t, op)) :
      Step s (some op) { s with tty := t, reader := update s.reader i .leaving }
  | unlock (i : ι) (h : s.reader i = .leaving) :
      Step s none { s with mtx := none, reader := update s.reader i .outside }
  | keyLock (backNum : ℕ) (c : List UInt8) (h : s.keyboard = .outside)
      (hn : ¬(c = [] ∧ backNum = 0)) (hm : s.mtx = none) :
      Step s none { s with mtx := some .keyboard, keyboard := .handling backNum c }
  | broadcast (backNum : ℕ) (c : List UInt8) (h : s.keyboard = .handling backNum c)
      (hb : (handleBatch s.tty backNum c).broadcast = true) :
      Step s none
        { s with reader := fun i => (s.reader i).woken, keyboard := .storing backNum c }
  | quiet (backNum : ℕ) (c : List UInt8) (h : s.keyboard = .handling backNum c)
      (hb : (handleBatch s.tty backNum c).broadcast = false) :
      Step s none { s with keyboard := .storing backNum c }
  | store (backNum : ℕ) (c : List UInt8) (h : s.keyboard = .storing backNum c) :
      Step s (some (.batch backNum c))
        { s with tty := (handleBatch s.tty backNum c).tty, keyboard := .leaving }
  | keyUnlock (h : s.keyboard = .leaving) :
      Step s none { s with mtx := none, keyboard := .outside }

end System

/-- Between `mtx_lock` and `mtx_unlock`, and not given up to `cnd_wait`. -/
def Reader.Inside : Reader → Prop
  | .testing _ | .sleepy _ | .copying _ | .leaving => True
  | _ => False

namespace System

/-- Nothing visible while a thread waits, and what makes that last until `keyboard_thread` has
stored its batch. -/
structure Inv (s : System ι) : Prop where
  holder : ∀ i, (s.reader i).Inside → s.mtx = some (.reader i)
  writer : s.keyboard ≠ .outside → s.mtx = some .keyboard
  sleepy : ∀ i c, s.reader i = .sleepy c → s.tty.visible = 0
  copying : ∀ i c, s.reader i = .copying c → s.tty.visible ≠ 0
  waiting : s.tty.visible ≠ 0 → ∀ i, ¬s.Waiting i
  storing : ∀ backNum c, s.keyboard = .storing backNum c →
    (handleBatch s.tty backNum c).tty.visible ≠ 0 → ∀ i, ¬s.Waiting i

variable {s t s₀ : System ι} {e : Option Op} {xs : List (Option Op)} {i : ι} {r : Reader}
  {m : Option (Party ι)}

theorem Start.inv (h : Start s) : Inv s where
  holder i hi := by simp [h.reader, Reader.Inside] at hi
  writer hk := absurd h.keyboard hk
  sleepy i c hr := by simp [h.reader] at hr
  copying i c hr := by simp [h.reader] at hr
  waiting _ i := by simp [Waiting, h.reader]
  storing _ _ hk := by simp [h.keyboard] at hk

variable [DecidableEq ι]

namespace Inv

/-- A thread moves on, and keeps `read_mtx` as it is, takes it or gives it up. -/
theorem move (h : Inv s)
    (hm : m = s.mtx ∨ s.mtx = none ∧ m = some (.reader i) ∨
      s.mtx = some (.reader i) ∧ m = none)
    (hin : r.Inside → m = some (.reader i))
    (hs : ∀ c, r = .sleepy c → s.tty.visible = 0) (hc : ∀ c, r = .copying c → s.tty.visible ≠ 0)
    (hw : ∀ c, r = .waiting c → s.tty.visible = 0 ∧ s.mtx = some (.reader i)) :
    Inv { s with mtx := m, reader := update s.reader i r } where
  holder j hj := by
    by_cases hij : j = i
    · subst hij
      simp only [update_self] at hj
      exact hin hj
    · have := h.holder j (by simpa [hij] using hj)
      rcases hm with rfl | ⟨hm, -⟩ | ⟨hm, -⟩
      · exact this
      · simp [hm] at this
      · simp [hm, Ne.symm hij] at this
  writer hk := by
    have := h.writer hk
    rcases hm with rfl | ⟨hm, -⟩ | ⟨hm, -⟩
    · exact this
    · simp [hm] at this
    · simp [hm] at this
  sleepy j c hj := by
    by_cases hij : j = i
    · subst hij
      exact hs c (by simpa using hj)
    · exact h.sleepy j c (by simpa [hij] using hj)
  copying j c hj := by
    by_cases hij : j = i
    · subst hij
      exact hc c (by simpa using hj)
    · exact h.copying j c (by simpa [hij] using hj)
  waiting hv j := by
    rintro ⟨c, hj⟩
    by_cases hij : j = i
    · subst hij
      exact hv (hw c (by simpa using hj)).1
    · exact h.waiting hv j ⟨c, by simpa [hij] using hj⟩
  storing n c hk hv j := by
    rintro ⟨c', hj⟩
    by_cases hij : j = i
    · subst hij
      have hout : s.keyboard ≠ .outside := fun he => by simp [he] at hk
      have := h.writer hout
      simp [(hw c' (by simpa using hj)).2] at this
    · exact h.storing n c hk hv j ⟨c', by simpa [hij] using hj⟩

omit [DecidableEq ι] in
/-- `keyboard_thread` moves on with the lock in its hands. -/
theorem write (h : Inv s) {w : Writer} (hm : s.mtx = none ∨ s.mtx = some .keyboard)
    (hw : w ≠ .outside → m = some .keyboard)
    (hst : ∀ n c, w = .storing n c →
      (handleBatch s.tty n c).tty.visible ≠ 0 → ∀ i, ¬s.Waiting i) :
    Inv { s with mtx := m, keyboard := w } where
  holder j hj := by
    have := h.holder j hj
    rcases hm with hm | hm <;> simp [hm] at this
  writer hk := hw hk
  sleepy := h.sleepy
  copying := h.copying
  waiting := h.waiting
  storing := hst

omit [DecidableEq ι] in
/-- The buffer changes in the hands of the party that holds the lock. -/
theorem change (h : Inv s) {b : TTY} (hr : ∀ i, (s.reader i).Inside → s.reader i = .leaving)
    (hk : ∀ n c, s.keyboard ≠ .storing n c) (hw : b.visible ≠ 0 → ∀ i, ¬s.Waiting i) :
    Inv { s with tty := b } where
  holder := h.holder
  writer := h.writer
  sleepy i c (hi : s.reader i = .sleepy c) := by simpa [hi, Reader.Inside] using hr i
  copying i c (hi : s.reader i = .copying c) := by simpa [hi, Reader.Inside] using hr i
  waiting := hw
  storing n c hs := absurd hs (hk n c)

omit [DecidableEq ι] in
theorem not_waiting_woken (i : ι) :
    ¬Waiting { s with reader := fun i => (s.reader i).woken } i := by
  rintro ⟨c, hc⟩
  cases hr : s.reader i <;> simp [hr, Reader.woken] at hc

omit [DecidableEq ι] in
/-- A broadcast while no thread is in its critical section. -/
theorem wake (h : Inv s) (hr : ∀ i, ¬(s.reader i).Inside) :
    Inv { s with reader := fun i => (s.reader i).woken } where
  holder i hi := by
    have := hr i
    cases hs : s.reader i <;> simp_all [Reader.woken, Reader.Inside]
  writer := h.writer
  sleepy i c hi := by
    have := hr i
    cases hs : s.reader i <;> simp_all [Reader.woken, Reader.Inside]
  copying i c hi := by
    have := hr i
    cases hs : s.reader i <;> simp_all [Reader.woken, Reader.Inside]
  waiting _ := not_waiting_woken
  storing _ _ _ _ := not_waiting_woken

end Inv

theorem Inv.step (h : Inv s) (hs : Step s e t) : Inv t := by
  cases hs with
  | call i c hi hc => exact h.move (.inl rfl) nofun nofun nofun nofun
  | lock i c hi hm => exact h.move (.inr (.inl ⟨hm, rfl⟩)) (fun _ => rfl) nofun nofun nofun
  | nothing i c hi hv =>
    have hm := h.holder i (by simp [hi, Reader.Inside])
    exact h.move (.inl rfl) (fun _ => hm) (fun _ _ => hv) nofun nofun
  | something i c hi hv =>
    have hm := h.holder i (by simp [hi, Reader.Inside])
    exact h.move (.inl rfl) (fun _ => hm) nofun (fun _ _ => hv) nofun
  | wait i c hi =>
    have hm := h.holder i (by simp [hi, Reader.Inside])
    exact h.move (.inr (.inr ⟨hm, rfl⟩)) nofun nofun nofun fun _ _ => ⟨h.sleepy i c hi, hm⟩
  | spurious i c hi => exact h.move (.inl rfl) nofun nofun nofun nofun
  | copy i c hi b op ht =>
    have hm := h.holder i (by simp [hi, Reader.Inside])
    have hmove := h.move (i := i) (r := .leaving) (.inl rfl) (fun _ => hm) nofun nofun nofun
    refine hmove.change (fun j hj => ?_) (fun n c hk => ?_) fun _ j => ?_
    · obtain rfl : i = j := by simpa using hm.symm.trans (hmove.holder j hj)
      simp
    · have hout : s.keyboard ≠ .outside := fun he => by simp [he] at hk
      have := h.writer hout
      simp [hm] at this
    · exact hmove.waiting (h.copying i c hi) j
  | unlock i hi =>
    have hm := h.holder i (by simp [hi, Reader.Inside])
    exact h.move (.inr (.inr ⟨hm, rfl⟩)) nofun nofun nofun nofun
  | keyLock n c hk hn hm => exact h.write (.inl hm) (fun _ => rfl) nofun
  | broadcast n c hk hb =>
    have hm := h.writer (by simp [hk])
    have hnone (i : ι) : ¬(s.reader i).Inside := fun hi => by
      have := h.holder i hi
      simp [hm] at this
    exact (h.wake hnone).write (.inr hm) (fun _ => hm) fun _ _ _ _ => Inv.not_waiting_woken
  | quiet n c hk hb =>
    have hm := h.writer (by simp [hk])
    refine h.write (.inr hm) (fun _ => hm) ?_
    rintro n' c' ⟨⟩ hv
    have := mt (handleBatch_broadcast s.tty n c).mpr (by simp [hb])
    exact h.waiting fun hz => this ⟨hz, hv⟩
  | store n c hk =>
    have hm := h.writer (by simp [hk])
    have hwrite := h.write (w := .leaving) (.inr hm) (fun _ => hm) nofun
    refine hwrite.change (fun i hi => ?_) nofun (h.storing n c hk)
    have := hwrite.holder i hi
    simp [hm] at this
  | keyUnlock hk =>
    have hm := h.writer (by simp [hk])
    exact h.write (.inr hm) (fun hne => absurd rfl hne) nofun

theorem run_inv (h₀ : Start s₀) (h : Run Step s₀ xs s) : Inv s :=
  h.invariant h₀.inv fun _ _ _ hi hs => hi.step hs

/-- A call served with something visible is a step of the buffer. -/
theorem serve_step {b b' : TTY} {c : Call} {op : Op} (hv : b.visible ≠ 0)
    (h : c.serve b = some (b', op)) : Tty.Step b op b' := by
  cases c with
  | read size =>
    obtain ⟨⟨b', bytes, ret⟩, hr, he⟩ := Option.map_eq_some_iff.mp h
    cases he
    exact .read (.inr hv) hr
  | readv iov iovcnt =>
    obtain ⟨⟨b', done, ret⟩, hr, he⟩ := Option.map_eq_some_iff.mp h
    cases he
    exact .readv (.inr hv) hr

/-- The critical sections take effect one after another: a run is a run of the buffer. -/
theorem run_tty (h₀ : Start s₀) (h : Run Step s₀ xs s) :
    Run Tty.Step s₀.tty (xs.filterMap id) s.tty := by
  induction h with
  | refl => exact .refl
  | step hrun hs ih =>
    rw [List.filterMap_append]
    have hinv := run_inv h₀ hrun
    cases hs with
    | copy i c hi b op ht => exact ih.step (serve_step (hinv.copying i c hi) ht)
    | store n c hk => exact ih.step (.batch n c)
    | _ => simpa using ih

/-- As long as something is readable no reader is asleep, whoever holds `read_mtx`. -/
theorem readers_woken (h₀ : Start s₀) (h : Run Step s₀ xs s) (hv : s.tty.visible > 0) (i : ι) :
    ¬s.Waiting i :=
  (run_inv h₀ h).waiting (Nat.ne_of_gt hv) i

/-- A thread falls asleep in `read`, and a newline is typed. -/
theorem readers_woken_sample : ∃ xs, ∃ s : System Unit,
    Run Step ⟨defaultTty, none, fun _ => .outside, .outside⟩ xs s ∧
      xs.filterMap id = [.batch 0 [newline]] ∧ ∀ i, ¬s.Waiting i := by
  have h₀ : Run Step (⟨defaultTty, none, fun _ => .outside, .outside⟩ : System Unit) [] _ := .refl
  have h₁ := h₀.step (.call () (.read 80) rfl (by simp [Call.Direct]))
  have h₂ := h₁.step (.lock () (.read 80) rfl rfl)
  have h₃ := h₂.step (.nothing () (.read 80) rfl rfl)
  have h₄ := h₃.step (.wait () (.read 80) rfl)
  have h₅ := h₄.step (.keyLock 0 [newline] rfl (by simp) rfl)
  have h₆ := h₅.step (.broadcast 0 [newline] rfl (by decide))
  have h₇ := h₆.step (.store 0 [newline] rfl)
  refine ⟨_, _, h₇, rfl, readers_woken ⟨rfl, fun _ => rfl, rfl⟩ h₇ (by decide)⟩

end System
end MyosIo.Tty
