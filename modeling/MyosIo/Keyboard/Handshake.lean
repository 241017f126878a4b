import MyosIo.Keyboard.Ring

/-! Nothing here depends on the slots agreeing: once they differ the thread waits for a slot that
is never written, awake. What matters is that a slot the thread finds full is one the ISR has
stored to, so that `keyboard_buf_used` never drops below the events still to come. -/
namespace MyosIo.Keyboard

open Function

variable {s t : State} {e : Event} {xs : List Event} {tk st : ℕ}

/-- What the counter counts, `tk` events taken out and `st` stored so far. -/
structure Counted (tk st : ℕ) (s : State) : Prop where
  used : s.used + tk = st + reserved s.isr + taking s.thread
  bound : s.used ≤ bufSize
  le : tk ≤ st
  few : tk ≤ 65536
  oi : s.oi = tk
  took : taking s.thread ≤ tk
  buf : ∀ j, s.buf j ≠ 0 → j < st ∧ j < 65536
  hand : inHand s.thread ≠ none → tk < st ∧ tk < 65536

theorem counted_initial : Counted 0 0 initial where
  used := rfl
  bound := Nat.zero_le _
  le := Nat.le_refl _
  few := Nat.zero_le _
  oi := rfl
  took := Nat.le_refl _
  buf := by simp [initial]
  hand := by simp [initial, inHand]

theorem Counted.read (hC : Counted tk st s) (hb : s.buf s.oi ≠ 0) : tk < st ∧ tk < 65536 := by
  rw [hC.oi] at hb
  exact hC.buf tk hb

/-- A step on neither the buffer nor the counters. -/
theorem Counted.move (hC : Counted tk st s) (hb : t.buf = s.buf) (hu : t.used = s.used)
    (ho : t.oi = s.oi) (hr : reserved t.isr = reserved s.isr)
    (ht : taking t.thread = taking s.thread)
    (hh : inHand t.thread ≠ none → tk < st ∧ tk < 65536) : Counted tk st t where
  used := by rw [hu, hr, ht, hC.used]
  bound := hu ▸ hC.bound
  le := hC.le
  few := hC.few
  oi := ho.trans hC.oi
  took := ht ▸ hC.took
  buf := hb ▸ hC.buf
  hand := hh

theorem Counted.reserve (hC : Counted tk st s) {n : ℕ} (hp : s.isr = .reserve n)
    (hn : n ≠ bufSize) (hc : s.used = n) :
    Counted tk st { s with used := (n + 1) % 2 ^ 32, isr := afterReserve n } := by
  have hu := hC.used
  have hb := hC.bound
  have hlt : n + 1 ≤ bufSize := by omega
  have hmod : (n + 1) % 2 ^ 32 = n + 1 := Nat.mod_eq_of_lt (by rw [bufSize] at hlt; omega)
  refine ⟨?_, ?_, hC.le, hC.few, hC.oi, hC.took, hC.buf, hC.hand⟩
  · simp only [hp, reserved] at hu
    simp only [hmod, reserved_afterReserve]
    omega
  · simp only [hmod]
    exact hlt

theorem Counted.store (hC : Counted tk st s) {i : ℕ} {c : Code} {d : Bool}
    (hp : s.isr = .store i c d) (hi : i = isrSlot st) :
    Counted tk (st + 1)
      { s with buf := update s.buf i c, isr := if d then .switchTo else .idle } := by
  have hu := hC.used
  have hr : reserved (if d then .switchTo else .idle) = 0 := by cases d <;> rfl
  refine ⟨?_, hC.bound, by have := hC.le; omega, hC.few, hC.oi, hC.took, ?_, ?_⟩
  · simp only [hp, reserved] at hu
    simp only [hr]
    omega
  · intro j hj
    by_cases hji : j = i
    · rw [isrSlot_eq] at hi
      omega
    · have := hC.buf j (by simpa [update_of_ne hji] using hj)
      omega
  · intro hh
    have := hC.hand hh
    omega

theorem Counted.take (hC : Counted tk st s) {th : Thread} (hh : inHand s.thread ≠ none)
    (ht : taking s.thread = 0) (ht' : taking th = 1) (hh' : inHand th = none) :
    Counted (tk + 1) st
      { s with buf := update s.buf s.oi 0, oi := s.oi + 1, thread := th } := by
  have hlt := hC.hand hh
  have hu := hC.used
  refine ⟨?_, hC.bound, by omega, by omega, ?_, ?_, ?_, ?_⟩
  · simp only [ht']
    omega
  · simp [hC.oi]
  · simp [ht']
  · intro j hj
    by_cases hji : j = s.oi
    · simp [hji] at hj
    · exact hC.buf j (by simpa [update_of_ne hji] using hj)
  · simp [hh']

theorem Counted.sub (hC : Counted tk st s) {th : Thread} (ht : taking s.thread = 1)
    (ht' : taking th = 0) (hh' : inHand th = none) :
    Counted tk st
      { s with
        lastUsed := s.used
        used := (s.used + (2 ^ 32 - 1)) % 2 ^ 32
        oi := s.oi &&& (bufSize - 1)
        thread := th } := by
  have hu := hC.used
  have hb := hC.bound
  have hle := hC.le
  have hmod : (s.used + (2 ^ 32 - 1)) % 2 ^ 32 = s.used - 1 := by
    rw [bufSize] at hb
    omega
  refine ⟨?_, ?_, hC.le, hC.few, ?_, ?_, hC.buf, ?_⟩
  · simp only [hmod, ht']
    omega
  · simp only [hmod]
    omega
  · simp only [and_mask, hC.oi]
    have := hC.few
    exact Nat.mod_eq_of_lt (by rw [bufSize]; omega)
  · simp [ht']
  · simp [hh']

theorem Counted.step (hC : Counted tk st s) (hx : ∀ i c d, s.isr = .store i c d → i = isrSlot st)
    (hs : Step s e t) :
    Counted (tk + (taken [e]).length) (st + (stored [e]).length) t := by
  have hand := hC.hand
  cases hs with
  | load hp | full hp | reserveFail hp | wakeAwake hp | wakeAsleep hp | rouseBusy hp
  | rouseIdle hp | rouseWild hp | inb hp | inbAbort hp | index hp | switchTo hp =>
    exact hC.move rfl rfl rfl (by simp [hp, reserved]) rfl hand
  | reserve hp hn hc => exact hC.reserve hp hn hc
  | @store i c d hp => exact hC.store hp (hx i c d hp)
  | dispatch hp => exact hC.move rfl rfl rfl rfl rfl hand
  | sleepOk hr ht | sleepFail hr ht | clear hr ht | nextEmpty hr ht =>
    exact hC.move rfl rfl rfl rfl (by simp [ht, taking]) (by simp [inHand])
  | first hr ht hb =>
    exact hC.move rfl rfl rfl rfl (by simp [ht, taking]) fun _ => hC.read hb
  | next hr ht hb =>
    refine hC.move rfl rfl rfl rfl ?_ fun _ => hC.read hb
    simp only [ht]
    split <;> rfl
  | nextClear hr ht =>
    exact hC.move rfl rfl rfl rfl (by simp [ht, taking]) fun _ => hand (by simp [ht, inHand])
  | firstZero hr ht | nextZero hr ht =>
    exact hC.take (by simp [ht, inHand]) (by simp [ht, taking]) rfl rfl
  | firstSub hr ht => exact hC.sub (by simp [ht, taking]) rfl rfl
  | nextSub hr ht =>
    exact hC.sub (by simp [ht, taking]) (by split <;> rfl) (by split <;> rfl)
  | translate hr ht =>
    refine hC.move rfl rfl rfl rfl ?_ ?_
    · simp only [ht]
      split <;> rfl
    · dsimp only
      split <;> simp [inHand]

/-- Where `keyboard_thread` is on its way to sleep: every event has been given back. -/
def Quiet (s : State) : Prop :=
  match s.thread with
  | .sleep => True
  | .next _ | .translate => s.lastUsed = 1
  | _ => False

/-- Where `keyboard_thread` will still reset the slot before it gives back an event. -/
def WillClear (s : State) : Prop :=
  Quiet s ∨ match s.thread with
  | .clear | .nextClear _ _ => True
  | _ => False

/-- Whether the ISR is going to switch to the woken thread itself. -/
def direct : Isr → Prop
  | .inb d | .index _ d | .store _ _ d => d = true
  | .switchTo => True
  | _ => False

structure Handshake (s : State) : Prop where
  asleep : s.place = .asleep → s.sleeping = .thread ∧
    (s.isr = .wake ∨ s.isr = .rouse ∨ s.used = 0)
  slot : s.place ≠ .running ∨ s.sleeping = .thread → s.thread = .clear
  roused : s.place = .schedulable ∨ s.place = .resuming → s.sleeping = .thread ∧ 0 < s.used
  awake : s.place = .running → ¬ Quiet s → 0 < s.used
  quiet : s.place = .running → Quiet s → s.used = 0 ∨ s.isr = .wake ∨ s.sleeping = .one
  marker : s.sleeping = .one → WillClear s ∧ s.isr ≠ .wake ∧ 0 < s.used
  wake : s.isr = .wake → s.used = 1 ∧ (s.place = .asleep ∨ s.place = .running ∧ Quiet s)
  rouse : s.isr = .rouse → s.used = 1 ∧ s.place = .asleep
  direct : direct s.isr → s.place = .resuming

theorem handshake_initial : Handshake initial where
  asleep := by simp [initial]
  slot := by simp [initial]
  roused := by simp [initial]
  awake := by simp [initial, Quiet]
  quiet := by simp [initial]
  marker := by simp [initial]
  wake := by simp [initial]
  rouse := by simp [initial]
  direct := by simp [initial, Keyboard.direct]

theorem afterReserve_eq (n : ℕ) : afterReserve n = if n = 0 then .wake else .inb false := rfl

namespace Handshake

/-- The ISR moves on without touching the slot or the counter. -/
theorem isrMove (hH : Handshake s) {i : Isr} {buf : ℕ → Code} {ii : ℕ}
    (hw : s.isr ≠ .wake ∧ i ≠ .wake) (hr : s.isr ≠ .rouse ∧ i ≠ .rouse)
    (hd : Keyboard.direct i → Keyboard.direct s.isr) :
    Handshake { s with isr := i, buf := buf, ii := ii } where
  asleep hp := by
    obtain ⟨hs, h | h | hu⟩ := hH.asleep hp
    · exact absurd h hw.1
    · exact absurd h hr.1
    · exact ⟨hs, .inr (.inr hu)⟩
  slot := hH.slot
  roused := hH.roused
  awake := hH.awake
  quiet hp hq := by
    obtain hu | h | hs := hH.quiet hp hq
    · exact .inl hu
    · exact absurd h hw.1
    · exact .inr (.inr hs)
  marker hs := ⟨(hH.marker hs).1, hw.2, (hH.marker hs).2.2⟩
  wake h := absurd h hw.2
  rouse h := absurd h hr.2
  direct h := hH.direct (hd h)

/-- The first reservation finds the thread on its way to sleep, or asleep. -/
theorem reserve (hH : Handshake s) (hb : s.used ≤ bufSize) {n : ℕ} (hp : s.isr = .reserve n)
    (hc : s.used = n) :
    Handshake { s with used := (n + 1) % 2 ^ 32, isr := afterReserve n } := by
  obtain ⟨h1, h2, h3, h4, h5, h6, h7, h8, h9⟩ := hH
  have hbs : bufSize = 0x200000 := rfl
  have hmod : (s.used + 1) % 2 ^ 32 = s.used + 1 := Nat.mod_eq_of_lt (by omega)
  have hpl : s.place = .running ∨ s.place = .asleep ∨ s.place = .schedulable ∨
      s.place = .resuming := by
    cases s.place <;> simp
  constructor <;> grind -linarith [Quiet, WillClear, Keyboard.direct, afterReserve_eq]

theorem wakeAwake (hH : Handshake s) (hp : s.isr = .wake) (hs : s.sleeping = .null) :
    Handshake { s with sleeping := .one, isr := .inb false } := by
  obtain ⟨hu, hq⟩ := hH.wake hp
  have hr : s.place = .running ∧ Quiet s := by
    obtain ha | hr := hq
    · exact absurd (hH.asleep ha).1 (by simp [hs])
    · exact hr
  obtain ⟨hr, hq⟩ := hr
  constructor <;> simp_all [Quiet, WillClear, Keyboard.direct]

/-- The value the exchange finds is neither the marker nor a thread that is still awake. -/
theorem asleep_of_wake (hH : Handshake s) (hp : s.isr = .wake) (hs : s.sleeping ≠ .null) :
    s.sleeping = .thread ∧ s.place = .asleep := by
  obtain ⟨-, ha | ⟨hr, hq⟩⟩ := hH.wake hp
  · exact ⟨(hH.asleep ha).1, ha⟩
  · cases hs' : s.sleeping with
    | null => exact absurd hs' hs
    | one => exact absurd hp (hH.marker hs').2.1
    | thread => simp [Quiet, hH.slot (.inr hs')] at hq

theorem wakeAsleep (hH : Handshake s) (hp : s.isr = .wake) (hs : s.sleeping ≠ .null) :
    Handshake { s with isr := .rouse } := by
  obtain ⟨hs', ha⟩ := hH.asleep_of_wake hp hs
  have hth := hH.slot (.inr hs')
  have hu := (hH.wake hp).1
  constructor <;> simp_all [Quiet, Keyboard.direct]

theorem rouse_step (hH : Handshake s) (hp : s.isr = .rouse) {p : Place} {i : Isr}
    (h : p = .schedulable ∧ i = .inb false ∨ p = .resuming ∧ i = .inb true) :
    Handshake { s with place := p, isr := i } := by
  obtain ⟨hu, ha⟩ := hH.rouse hp
  have hs := (hH.asleep ha).1
  have hth := hH.slot (.inr hs)
  obtain ⟨rfl, rfl⟩ | ⟨rfl, rfl⟩ := h <;> constructor <;> simp_all [Quiet, Keyboard.direct]

/-- The woken thread gets a core. -/
theorem resume (hH : Handshake s) (hp : s.place = .schedulable ∨ s.place = .resuming) {i : Isr}
    (hi : i = s.isr ∧ s.place = .schedulable ∨ s.isr = .switchTo ∧ i = .idle) :
    Handshake { s with place := .running, isr := i } := by
  obtain ⟨hs, hu⟩ := hH.roused hp
  have hth := hH.slot (.inr hs)
  have hw : s.isr ≠ .wake := by
    intro hw
    obtain ⟨-, ha | ⟨ha, -⟩⟩ := hH.wake hw <;> simp [ha] at hp
  have hr : s.isr ≠ .rouse := fun hr => by
    have := (hH.rouse hr).2
    simp [this] at hp
  have hd := hH.direct
  obtain ⟨rfl, hp⟩ | ⟨hi, rfl⟩ := hi <;> constructor <;> simp_all [Quiet, Keyboard.direct]

theorem sleepOk (hH : Handshake s) (hr : s.place = .running) (ht : s.thread = .sleep)
    (hs : s.sleeping = .null) :
    Handshake { s with sleeping := .thread, thread := .clear, place := .asleep } := by
  have hq : s.used = 0 ∨ s.isr = .wake := by
    obtain hu | hw | hm := hH.quiet hr (by simp [Quiet, ht])
    · exact .inl hu
    · exact .inr hw
    · simp [hs] at hm
  have hw := hH.wake
  have hro := hH.rouse
  have hd := hH.direct
  constructor <;> simp_all [Quiet, or_comm]

theorem sleepFail (hH : Handshake s) (hr : s.place = .running) (ht : s.thread = .sleep)
    (hs : s.sleeping ≠ .null) : Handshake { s with thread := .clear } := by
  have hm : s.sleeping = .one := by
    cases hs' : s.sleeping with
    | null => exact absurd hs' hs
    | one => rfl
    | thread => simp [hH.slot (.inr hs')] at ht
  obtain ⟨-, hw, hu⟩ := hH.marker hm
  have hro := hH.rouse
  have hd := hH.direct
  constructor <;> simp_all [Quiet, WillClear]

/-- While the thread runs and is not about to sleep, no interrupt wakes it. -/
theorem not_wake (hH : Handshake s) (hr : s.place = .running) (hq : ¬ Quiet s) :
    s.isr ≠ .wake := by
  intro hw
  obtain ⟨-, ha | ⟨-, hq'⟩⟩ := hH.wake hw
  · simp [hr] at ha
  · exact hq hq'

theorem clear (hH : Handshake s) (hr : s.place = .running) (ht : s.thread = .clear) :
    Handshake { s with sleeping := .null, thread := .first } := by
  have hu := hH.awake hr (by simp [Quiet, ht])
  have hw := hH.not_wake hr (by simp [Quiet, ht])
  have hro := hH.rouse
  have hd := hH.direct
  constructor <;> simp_all [Quiet]

/-- The running thread moves on without touching the slot or the counter. -/
theorem threadMove (hH : Handshake s) (hr : s.place = .running) (hs : s.sleeping ≠ .thread)
    {th : Thread} {buf : ℕ → Code} {oi : ℕ} (hq : Quiet { s with thread := th } ↔ Quiet s)
    (hc : WillClear s → WillClear { s with thread := th }) :
    Handshake { s with thread := th, buf := buf, oi := oi } where
  asleep hp := by simp [hr] at hp
  slot h := by
    obtain h | h := h
    · exact absurd hr h
    · exact absurd h hs
  roused hp := by simp [hr] at hp
  awake hp hn := hH.awake hp fun h => hn (hq.mpr h)
  quiet hp h := hH.quiet hp (hq.mp h)
  marker hm := ⟨hc (hH.marker hm).1, (hH.marker hm).2⟩
  wake hw := ⟨(hH.wake hw).1, (hH.wake hw).2.imp_right fun h => ⟨h.1, hq.mpr h.2⟩⟩
  rouse := hH.rouse
  direct := hH.direct

/-- Giving back an event: the slot has been reset since the counter was last zero. -/
theorem sub (hH : Handshake s) (hb : 0 < s.used ∧ s.used ≤ bufSize) (hr : s.place = .running)
    (hs : ¬ WillClear s) (hth : s.thread ≠ .clear) {th : Thread} {oi : ℕ}
    (ht : (∃ n, th = .next n) ∨ th = .translate) :
    Handshake { s with
      lastUsed := s.used
      used := (s.used + (2 ^ 32 - 1)) % 2 ^ 32
      oi := oi
      thread := th } := by
  have hmod : (s.used + (2 ^ 32 - 1)) % 2 ^ 32 = s.used - 1 := by
    rw [bufSize] at hb
    omega
  have hm : s.sleeping ≠ .one := fun hm => hs (hH.marker hm).1
  have hth' : s.sleeping ≠ .thread := fun h => hth (hH.slot (.inr h))
  have hw := hH.not_wake hr fun hq => hs (.inl hq)
  have hro := hH.rouse
  have hd := hH.direct
  obtain ⟨n, rfl⟩ | rfl := ht <;> constructor <;> simp_all [Quiet] <;> omega

/-- A full slot means that an event is stored, so its reservation still counts. -/
theorem next (hH : Handshake s) (hC : Counted tk st s) {num : ℕ} (hr : s.place = .running)
    (ht : s.thread = .next num) (hb : s.buf s.oi ≠ 0) :
    Handshake { s with
      thread :=
        if s.lastUsed = 1 then .nextClear num (s.buf s.oi) else .nextZero num (s.buf s.oi) } := by
  have hread := hC.read hb
  have hu := hC.used
  have hth : s.sleeping ≠ .thread := fun h => by simp [hH.slot (.inr h)] at ht
  have hw : s.isr ≠ .wake := by
    intro hw
    have := (hH.wake hw).1
    simp only [hw, ht, reserved, taking] at hu
    omega
  have hpos : 0 < s.used := by
    simp only [ht, taking] at hu
    omega
  have hm := hH.marker
  have hro := hH.rouse
  have hd := hH.direct
  by_cases hl : s.lastUsed = 1
  · rw [if_pos hl]
    constructor <;> simp_all [Quiet, WillClear]
  · rw [if_neg hl]
    have hq : ¬ WillClear s := by simp [WillClear, Quiet, ht, hl]
    have hm' : s.sleeping ≠ .one := fun h => hq (hm h).1
    constructor <;> simp_all [Quiet]

theorem nextClear (hH : Handshake s) (hr : s.place = .running) {num : ℕ} {c : Code}
    (ht : s.thread = .nextClear num c) :
    Handshake { s with sleeping := .null, thread := .nextZero num c } := by
  have hu := hH.awake hr (by simp [Quiet, ht])
  have hw := hH.not_wake hr (by simp [Quiet, ht])
  have hro := hH.rouse
  have hd := hH.direct
  constructor <;> simp_all [Quiet]

theorem step (hH : Handshake s) (hC : Counted tk st s) (hs : Step s e t) : Handshake t := by
  have hth : s.thread ≠ .clear → s.sleeping ≠ .thread := fun h h' => h (hH.slot (.inr h'))
  have hpos : taking s.thread = 1 → 0 < s.used := by
    have := hC.used
    have := hC.le
    omega
  cases hs with
  | load hp | full hp | reserveFail hp | inb hp | inbAbort hp | index hp =>
    exact hH.isrMove (by simp [hp]) (by simp [hp]) (by simp [hp, Keyboard.direct])
  | @store i c d hp =>
    cases d
    · exact hH.isrMove (by simp [hp]) (by simp [hp]) (by simp [Keyboard.direct])
    · exact hH.isrMove (by simp [hp]) (by simp [hp]) (by simp [hp, Keyboard.direct])
  | reserve hp hn hc => exact hH.reserve hC.bound hp hc
  | wakeAwake hp hs => exact hH.wakeAwake hp hs
  | wakeAsleep hp hs => exact hH.wakeAsleep hp hs
  | rouseBusy hp hs => exact hH.rouse_step hp (.inl ⟨rfl, rfl⟩)
  | rouseIdle hp hs => exact hH.rouse_step hp (.inr ⟨rfl, rfl⟩)
  | rouseWild hp hs => exact absurd (hH.asleep (hH.rouse hp).2).1 hs
  | switchTo hp =>
    have hd := hH.direct (by simp [hp, Keyboard.direct])
    exact hH.resume (.inr hd) (.inr ⟨hp, rfl⟩)
  | dispatch hp => exact hH.resume (.inl hp) (.inl ⟨rfl, hp⟩)
  | sleepOk hr ht hs => exact hH.sleepOk hr ht hs
  | sleepFail hr ht hs => exact hH.sleepFail hr ht hs
  | clear hr ht => exact hH.clear hr ht
  | first hr ht hb | firstZero hr ht | nextEmpty hr ht hb | nextZero hr ht =>
    exact hH.threadMove hr (hth (by simp [ht])) (by simp [Quiet, ht])
      (by simp [WillClear, Quiet, ht])
  | translate hr ht =>
    refine hH.threadMove hr (hth (by simp [ht])) ?_ ?_ <;>
      by_cases hl : s.lastUsed = 1 <;> simp [WillClear, Quiet, ht, hl]
  | firstSub hr ht =>
    exact hH.sub ⟨hpos (by simp [ht, taking]), hC.bound⟩ hr (by simp [WillClear, Quiet, ht])
      (by simp [ht]) (.inl ⟨_, rfl⟩)
  | nextSub hr ht =>
    refine hH.sub ⟨hpos (by simp [ht, taking]), hC.bound⟩ hr (by simp [WillClear, Quiet, ht])
      (by simp [ht]) ?_
    split
    · exact .inr rfl
    · exact .inl ⟨_, rfl⟩
  | next hr ht hb => exact hH.next hC hr ht hb
  | nextClear hr ht => exact hH.nextClear hr ht

end Handshake

/-- Every run keeps the handshake: the thread never sleeps on an event, the ISR wakes it only
while it sleeps and once for each sleep, and what the ISR finds instead of `NULL` is the
sleeping thread. -/
theorem sleep_wake_handshake (h : Run Step initial xs s) :
    ¬ (s.isr = .idle ∧ s.place = .asleep ∧ 0 < s.used) ∧
      (s.isr = .rouse → s.sleeping = .thread ∧ s.place = .asleep) ∧
      (direct s.isr → s.place = .resuming) ∧
      (s.isr = .wake → s.sleeping ≠ .null → s.sleeping = .thread ∧ s.place = .asleep) := by
  have hinv : Indexed (stored xs) s ∧ Counted (taken xs).length (stored xs).length s ∧
      Handshake s := by
    induction h with
    | refl => exact ⟨indexed_initial, counted_initial, handshake_initial⟩
    | step _ hs ih =>
      obtain ⟨hx, hC, hH⟩ := ih
      rw [stored_snoc, taken_snoc, List.length_append, List.length_append]
      exact ⟨hx.step hs, hC.step hx.next hs, hH.step hC hs⟩
  obtain ⟨-, -, hH⟩ := hinv
  refine ⟨?_, ?_, hH.direct, ?_⟩
  · rintro ⟨hi, hp, hu⟩
    obtain ⟨-, hw | hr | hz⟩ := hH.asleep hp
    · simp [hi] at hw
    · simp [hi] at hr
    · omega
  · intro hr
    have hp := (hH.rouse hr).2
    exact ⟨(hH.asleep hp).1, hp⟩
  · exact hH.asleep_of_wake

/-- The thread goes to sleep, and the ISR reserves a slot and finds it asleep. -/
theorem sleep_wake_handshake_sample : ∃ s : State, s.isr = .wake ∧ s.sleeping = .thread ∧
    s.place = .asleep := by
  have h₁ := Run.step (.refl : Run Step initial [] initial) (.sleepOk rfl rfl rfl)
  have h₂ := h₁.step (.load rfl)
  have h₃ := h₂.step (.reserve rfl (by decide) rfl)
  obtain ⟨-, -, -, hw⟩ := sleep_wake_handshake h₃
  exact ⟨_, rfl, hw rfl (by simp)⟩

end MyosIo.Keyboard
