import MyosIo.Keyboard.Model
import MyosIo.Lib.Ring

/-! The ISR's slots and the thread's slots agree for the first 65536 events only. As long as they
agree, the slots between the two indices are a window in the sense of `Window`, and the
reservation keeps it from filling up. -/
namespace MyosIo.Keyboard

open Function

variable {s t : State} {e : Event} {xs : List Event} {acc tk q : List Code} {st : List ℕ}
  {k i : ℕ} {c : Code} {d : Bool}

theorem bufSize_eq : bufSize = 2 ^ 21 := rfl

theorem and_mask (n : ℕ) : n &&& (bufSize - 1) = n % bufSize := by
  rw [bufSize_eq]
  exact Nat.and_two_pow_sub_one_eq_mod n 21

theorem threadSlot_eq (k : ℕ) : threadSlot k = k % bufSize := by
  induction k with
  | zero => rfl
  | succ k ih =>
    rw [threadSlot, and_mask, ih]
    simp

theorem isrSlot_eq (k : ℕ) : isrSlot k = k % 2 ^ 16 := by
  rw [isrSlot, tempI, and_mask, bufSize_eq]
  rw [Nat.mod_mod_of_dvd k (Nat.pow_dvd_pow 2 (by omega : 21 ≤ 32))]
  exact Nat.mod_mod_of_dvd k (Nat.pow_dvd_pow 2 (by omega : 16 ≤ 21))

/-- The two slots agree exactly below 65536. -/
theorem slots_agree (hk : k < 65536) : isrSlot k = threadSlot k := by
  rw [isrSlot_eq, threadSlot_eq, bufSize]
  omega

theorem slots_differ : isrSlot 65536 ≠ threadSlot 65536 := by
  rw [isrSlot_eq, threadSlot_eq, bufSize]
  omega

@[simp] theorem accepted_snoc (xs : List Event) (e : Event) :
    accepted (xs ++ [e]) = accepted xs ++ accepted [e] := List.filterMap_append

@[simp] theorem taken_snoc (xs : List Event) (e : Event) :
    taken (xs ++ [e]) = taken xs ++ taken [e] := List.filterMap_append

@[simp] theorem stored_snoc (xs : List Event) (e : Event) :
    stored (xs ++ [e]) = stored xs ++ stored [e] := List.filterMap_append

/-- The code the ISR has accepted and not yet stored. -/
def inFlight : Isr → List Code
  | .index c _ | .store _ c _ => [c]
  | _ => []

/-- Whether the ISR has taken an index and not yet stored to it. -/
def drawn : Isr → ℕ
  | .store _ _ _ => 1
  | _ => 0

/-- Whether the ISR has a reservation it has not yet used. -/
def reserved : Isr → ℕ
  | .wake | .rouse | .inb _ | .index _ _ | .store _ _ _ | .abort => 1
  | _ => 0

/-- Whether the thread has cleared a slot and not yet given it back. -/
def taking : Thread → ℕ
  | .firstSub | .nextSub _ => 1
  | _ => 0

/-- The code the thread has read and not yet cleared. -/
def inHand : Thread → Option Code
  | .firstZero c | .nextClear _ c | .nextZero _ c => some c
  | _ => none

@[simp] theorem inFlight_afterReserve (n : ℕ) : inFlight (afterReserve n) = [] := by
  unfold afterReserve
  split <;> rfl

@[simp] theorem drawn_afterReserve (n : ℕ) : drawn (afterReserve n) = 0 := by
  unfold afterReserve
  split <;> rfl

@[simp] theorem reserved_afterReserve (n : ℕ) : reserved (afterReserve n) = 1 := by
  unfold afterReserve
  split <;> rfl

@[simp] theorem afterReserve_ne_store (n i : ℕ) (c : Code) (d : Bool) :
    afterReserve n ≠ .store i c d := by
  unfold afterReserve
  split <;> simp

/-- The ISR's index: it counts the stores modulo 2 ^ 32. -/
structure Indexed (st : List ℕ) (s : State) : Prop where
  ii : s.ii = (st.length + drawn s.isr) % 2 ^ 32
  next : ∀ i c d, s.isr = .store i c d → i = isrSlot st.length
  slots : ∀ k (h : k < st.length), st[k] = isrSlot k

theorem indexed_initial : Indexed [] initial where
  ii := rfl
  next := by simp [initial]
  slots k h := absurd h (Nat.not_lt_zero k)

theorem Indexed.step (hI : Indexed st s) (hs : Step s e t) : Indexed (st ++ stored [e]) t := by
  have hii := hI.ii
  cases hs with
  | index hp =>
    refine ⟨?_, ?_, by simpa [stored] using hI.slots⟩
    · simp only [hp, drawn] at hii
      simp only [stored, List.filterMap_cons, List.filterMap_nil, List.append_nil, drawn]
      omega
    · intro i c d hi
      obtain ⟨rfl, -, -⟩ : tempI s.ii = i ∧ _ := by simpa using hi
      simp [hii, hp, drawn, isrSlot, stored]
  | @store i c d hp =>
    refine ⟨?_, ?_, ?_⟩
    · simp only [hp, drawn] at hii
      cases d <;> simp [stored, drawn, hii]
    · intro i' c' d' hi
      cases d <;> simp at hi
    · intro k hk
      by_cases hlt : k < st.length
      · simpa [stored, List.getElem_append_left hlt] using hI.slots k hlt
      · obtain rfl : k = st.length := by
          simp [stored] at hk
          omega
        simpa [stored] using hI.next i c d hp
  | load hp | full hp | reserve hp | reserveFail hp | wakeAwake hp | wakeAsleep hp
  | rouseBusy hp | rouseIdle hp | rouseWild hp | inb hp | inbAbort hp | switchTo hp =>
    refine ⟨?_, by simp, by simpa [stored] using hI.slots⟩
    simpa [hp, drawn, stored] using hii
  | _ => simpa [stored] using ⟨hI.ii, hI.next, hI.slots⟩

/-- The slots from the thread's index to the ISR's hold `q`; every other slot is empty. -/
structure Inv (acc tk : List Code) (st : List ℕ) (q : List Code) (s : State) : Prop where
  acc : acc = tk ++ q ++ inFlight s.isr
  window : Window bufSize 0 s.buf tk.length q
  nonzero : 0 ∉ q ++ inFlight s.isr
  stores : st.length = tk.length + q.length
  used : s.used = q.length + reserved s.isr + taking s.thread
  bound : s.used ≤ bufSize
  oi : s.oi = threadSlot (tk.length - taking s.thread) + taking s.thread
  took : taking s.thread ≤ tk.length
  hand : ∀ c, inHand s.thread = some c → q.head? = some c

theorem inv_initial : Inv [] [] [] [] initial where
  acc := rfl
  window := .nil (fun _ => rfl) 0
  nonzero := by simp [initial, inFlight]
  stores := rfl
  used := rfl
  bound := Nat.zero_le _
  oi := rfl
  took := Nat.zero_le _
  hand := by simp [initial, inHand]

/-- A step on neither the buffer nor the counters. -/
theorem Inv.move (hI : Inv acc tk st q s) (hb : t.buf = s.buf) (hu : t.used = s.used)
    (ho : t.oi = s.oi) (hf : inFlight t.isr = inFlight s.isr)
    (hr : reserved t.isr = reserved s.isr) (ht : taking t.thread = taking s.thread)
    (hh : ∀ c, inHand t.thread = some c → q.head? = some c) : Inv acc tk st q t where
  acc := by rw [hf, hI.acc]
  window := hb ▸ hI.window
  nonzero := by rw [hf]; exact hI.nonzero
  stores := hI.stores
  used := by rw [hu, hr, ht, hI.used]
  bound := hu ▸ hI.bound
  oi := by rw [ho, ht, hI.oi]
  took := ht ▸ hI.took
  hand := hh

theorem Inv.oi_eq (hI : Inv acc tk st q s) (ht : taking s.thread = 0) :
    s.oi = tk.length % bufSize := by
  simpa [ht, threadSlot_eq] using hI.oi

/-- A non-zero slot at the thread's index is the oldest event. -/
theorem Inv.read (hI : Inv acc tk st q s) (ht : taking s.thread = 0) (hb : s.buf s.oi ≠ 0) :
    q.head? = some (s.buf s.oi) := by
  rw [hI.oi_eq ht] at hb ⊢
  cases q with
  | nil => exact absurd ((hI.window.front_zero (Nat.zero_lt_succ _) (by simp)).mpr rfl) hb
  | cons x q => simp [hI.window.front]

theorem Inv.reserve (hI : Inv acc tk st q s) {n : ℕ} (hp : s.isr = .reserve n)
    (hn : n ≠ bufSize) (hc : s.used = n) :
    Inv acc tk st q { s with used := (n + 1) % 2 ^ 32, isr := afterReserve n } := by
  have hu := hI.used
  have hb := hI.bound
  have hlt : n + 1 ≤ bufSize := by omega
  have hmod : (n + 1) % 2 ^ 32 = n + 1 := Nat.mod_eq_of_lt (by rw [bufSize] at hlt; omega)
  have hf : inFlight s.isr = [] := by rw [hp]; rfl
  refine ⟨?_, hI.window, ?_, hI.stores, ?_, ?_, hI.oi, hI.took, hI.hand⟩
  · simpa [hf] using hI.acc
  · simpa [hf] using hI.nonzero
  · simp only [hp, reserved] at hu
    simp only [hmod, reserved_afterReserve]
    omega
  · simp only [hmod]
    exact hlt

theorem Inv.inb (hI : Inv acc tk st q s) (hp : s.isr = .inb d) (hc : c ≠ 0) :
    Inv (acc ++ [c]) tk st q { s with isr := .index c d } := by
  refine ⟨?_, hI.window, ?_, hI.stores, ?_, hI.bound, hI.oi, hI.took, hI.hand⟩
  · simp [hI.acc, hp, inFlight]
  · simpa [hp, inFlight, Ne.symm hc] using hI.nonzero
  · simpa [hp, reserved] using hI.used

/-- The store to the slot past the window, which the reservation has kept free. -/
theorem Inv.store (hI : Inv acc tk st q s) (hp : s.isr = .store i c d)
    (hi : i = threadSlot st.length) :
    Inv acc tk (st ++ [i]) (q ++ [c])
      { s with buf := update s.buf i c, isr := if d then .switchTo else .idle } := by
  have hu := hI.used
  have hb := hI.bound
  have hlt : q.length < bufSize := by
    simp only [hp, reserved] at hu
    omega
  have hs : inFlight s.isr = [c] := by rw [hp]; rfl
  have hf : inFlight (if d then .switchTo else .idle) = [] := by cases d <;> rfl
  have hr : reserved (if d then .switchTo else .idle) = 0 := by cases d <;> rfl
  refine ⟨?_, ?_, ?_, ?_, ?_, hb, hI.oi, hI.took, ?_⟩
  · simp [hf, hI.acc, hs]
  · rw [threadSlot_eq, hI.stores] at hi
    simpa [hi] using hI.window.push hlt
  · simpa [hf, hs] using hI.nonzero
  · simp [hI.stores, Nat.add_assoc]
  · simp only [hp, reserved] at hu
    simp only [hr, List.length_append, List.length_singleton]
    omega
  · intro c' hc
    rw [List.head?_append, hI.hand c' hc]
    rfl

/-- The thread clears the slot whose code it has in hand. -/
theorem Inv.take (hI : Inv acc tk st q s) {th : Thread} (hh : inHand s.thread = some c)
    (ht : taking s.thread = 0) (ht' : taking th = 1) (hh' : inHand th = none) :
    ∃ q', Inv acc (tk ++ [c]) st q'
      { s with buf := update s.buf s.oi 0, oi := s.oi + 1, thread := th } := by
  obtain ⟨q, rfl⟩ := List.head?_eq_some_iff.mp (hI.hand c hh)
  refine ⟨q, ?_, ?_, ?_, ?_, ?_, hI.bound, ?_, ?_, ?_⟩
  · simp [hI.acc]
  · rw [hI.oi_eq ht]
    simpa using hI.window.pop
  · have hn := hI.nonzero
    simp only [List.cons_append, List.mem_cons, not_or] at hn
    exact hn.2
  · have := hI.stores
    simp only [List.length_cons] at this
    simp only [List.length_append, List.length_singleton]
    omega
  · have := hI.used
    simp only [List.length_cons] at this
    simp only [ht']
    omega
  · simp [ht', hI.oi, ht]
  · simp [ht']
  · simp [hh']

/-- The slot is given back, and the index wraps. -/
theorem Inv.sub (hI : Inv acc tk st q s) {th : Thread} (ht : taking s.thread = 1)
    (ht' : taking th = 0) (hh' : inHand th = none) :
    Inv acc tk st q
      { s with
        lastUsed := s.used
        used := (s.used + (2 ^ 32 - 1)) % 2 ^ 32
        oi := s.oi &&& (bufSize - 1)
        thread := th } := by
  have hu := hI.used
  have hb := hI.bound
  have hmod : (s.used + (2 ^ 32 - 1)) % 2 ^ 32 = s.used - 1 := by
    rw [bufSize] at hb
    omega
  refine ⟨hI.acc, hI.window, hI.nonzero, hI.stores, ?_, ?_, ?_, ?_, ?_⟩
  · simp only [hmod, ht']
    omega
  · simp only [hmod]
    omega
  · have htk := hI.took
    obtain ⟨k, hk⟩ : ∃ k, tk.length = k + 1 := ⟨tk.length - 1, by omega⟩
    have ho := hI.oi
    rw [hk, ht, Nat.add_sub_cancel] at ho
    simp [ho, hk, ht', threadSlot]
  · simp [ht']
  · simp [hh']

end MyosIo.Keyboard
