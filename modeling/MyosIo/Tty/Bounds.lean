import MyosIo.Keyboard.ScanCode
import MyosIo.Tty.Typing

/-! The event ring together with the bytes at port 0x60 and the contents of `key_codes`, and the
array accesses the translation of a batch makes. -/
namespace MyosIo.Tty

open Function
open Keyboard (Code Event Clean Found IsKeyCode scan keyNum threadBufSize)

/-- The ring, the next byte at the port, the bytes the interrupts so far have started with, and
`key_codes`. -/
structure Input where
  ring : Keyboard.State
  pos : ℕ
  scans : List ℕ
  keyCodes : List Code

namespace Input

def initial : Input := ⟨Keyboard.initial, 0, [], []⟩

/-- `key_codes` after a step of the ring; the first code of a batch goes to `key_codes[0]`. -/
def collect (s : Input) : Event → List Code
  | .take _ code =>
    match s.ring.thread with
    | .firstZero _ => [code]
    | _ => s.keyCodes ++ [code]
  | _ => s.keyCodes

/-- The steps of the ring, where the ISR takes its key code from the port. -/
inductive Step (port : ℕ → UInt8) (s : Input) : Event → Input → Prop
  | scan {direct : Bool} {code : Code} (hp : s.ring.isr = .inb direct)
      (hg : (scan port s.pos).1.Gives code) (hc : code ≠ 0) :
      Step port s (.accept code)
        { s with
          ring := { s.ring with isr := .index code direct }
          pos := (scan port s.pos).2
          scans := s.scans ++ [s.pos] }
  | abort {direct : Bool} (hp : s.ring.isr = .inb direct)
      (ha : (scan port s.pos).1 = .abort ∨ (scan port s.pos).1.Gives 0) :
      Step port s .silent
        { s with
          ring := { s.ring with isr := .abort }
          pos := (scan port s.pos).2
          scans := s.scans ++ [s.pos] }
  | other {e : Event} {r : Keyboard.State} (hr : Keyboard.Step s.ring e r)
      (hp : ∀ direct, s.ring.isr = .inb direct → r.isr = .inb direct) :
      Step port s e { s with ring := r, keyCodes := s.collect e }

end Input

inductive Access
  | keymap (i : ℕ)
  | ascii (table : List UInt8) (i : ℕ)
  | c (i : ℕ)

/-- Within `keymap[KEY_NUM + 1]`, a table and `c[KEYBOARD_THREAD_BUF_SIZE]`. -/
def Access.InBounds : Access → Prop
  | .keymap i => i < keyNum + 1
  | .ascii table i => i < table.length
  | .c i => i < threadBufSize

/-- The table a character is taken from. -/
def Keys.table (k : Keys) : List UInt8 :=
  let shift := k.keymap leftShift || k.keymap rightShift
  if k.isCap && shift then toAsciiCapShift
  else if !k.isCap && shift then toAsciiShift
  else if k.isCap && !shift then toAsciiCap
  else toAscii

/-- The accesses of one turn, with `cNum` characters in `c`. -/
def Keys.accesses (k : Keys) (cNum : ℕ) (code : Code) : List Access :=
  let key := (code >>> 1).toNat
  let isPress := code &&& 1 == 1
  (if key = cap ∧ isPress then [Access.keymap cap] else []) ++ [Access.keymap key] ++
    if !isPress || key = back then []
    else
      [Access.keymap leftShift, .keymap rightShift, .ascii (k.turn code).1.table key] ++
        match (k.turn code).2 with
        | .char _ => [Access.c cNum]
        | _ => []

/-- The accesses of the whole loop. -/
def accesses : Keys → Batch → List Code → List Access
  | _, _, [] => []
  | k, p, code :: codes =>
    k.accesses p.c.length code ++ accesses (k.turn code).1 (p.add (k.turn code).2) codes

/-- All lookups for the interrupts so far are within the maps, the codes in the ring are those of
keys, and the translation of a batch is within its arrays. -/
structure Bounded (port : ℕ → UInt8) (s : Input) : Prop where
  lookups : ∀ i ∈ s.scans, (scan port i).1.Inside
  stored : ∀ i, s.ring.buf i ≠ 0 → IsKeyCode (s.ring.buf i)
  batch : s.ring.thread = .translate →
    ∀ k, ∀ a ∈ accesses k ⟨0, []⟩ s.keyCodes, a.InBounds

variable {port : ℕ → UInt8} {s t : Input} {e : Event} {k : Keys} {p : Batch} {code : Code}
  {codes : List Code}

/-- The machine is the ring, with a port that may deliver any byte. -/
theorem Input.Step.ring (h : Input.Step port s e t) : Keyboard.Step s.ring e t.ring := by
  cases h with
  | scan hp hg hc => exact .inb hp hc
  | abort hp ha => exact .inbAbort hp
  | other hr hp => exact hr

theorem length_table (k : Keys) : k.table.length = keyNum + 1 := by
  unfold Keys.table
  dsimp only
  split
  · rfl
  · split
    · rfl
    · split <;> rfl

theorem index_lt (h : IsKeyCode code) : (code >>> 1).toNat < keyNum + 1 := by
  obtain ⟨n, -, hn, hcode⟩ := h
  have : (code >>> 1).toNat = code.toNat / 2 := by simp [Nat.shiftRight_eq_div_pow]
  omega

theorem length_add (p : Batch) (v : Press) : (p.add v).c.length ≤ p.c.length + 1 := by
  cases v with
  | nothing => exact Nat.le_succ _
  | back =>
    rw [Batch.add]
    split
    · simp only [List.length_dropLast]
      omega
    · exact Nat.le_succ _
  | char b => simp [Batch.add]

theorem turn_accesses {cNum : ℕ} (h : IsKeyCode code) (hc : cNum < threadBufSize) :
    ∀ a ∈ k.accesses cNum code, a.InBounds := by
  have hkey := index_lt h
  have hcap : cap < keyNum + 1 := by decide
  have hleft : leftShift < keyNum + 1 := by decide
  have hright : rightShift < keyNum + 1 := by decide
  have hascii : (code >>> 1).toNat < (k.turn code).1.table.length := by rwa [length_table]
  intro a ha
  simp only [Keys.accesses, List.mem_append, List.mem_singleton] at ha
  obtain (ha | rfl) | ha := ha
  · split at ha
    · obtain rfl := List.mem_singleton.mp ha
      exact hcap
    · cases ha
  · exact hkey
  · split at ha
    · cases ha
    · obtain ha | ha := List.mem_append.mp ha
      · simp only [List.mem_cons, List.not_mem_nil, or_false] at ha
        obtain rfl | rfl | rfl := ha
        · exact hleft
        · exact hright
        · exact hascii
      · split at ha
        · obtain rfl := List.mem_singleton.mp ha
          exact hc
        · cases ha

/-- A batch that fits `key_codes` stays within all arrays. -/
theorem accesses_inBounds (hcodes : ∀ code ∈ codes, IsKeyCode code)
    (hlen : p.c.length + codes.length ≤ threadBufSize) :
    ∀ a ∈ accesses k p codes, a.InBounds := by
  induction codes generalizing k p with
  | nil => exact nofun
  | cons code codes ih =>
    obtain ⟨hcode, hcodes⟩ := List.forall_mem_cons.mp hcodes
    rw [List.length_cons] at hlen
    rw [accesses]
    intro a ha
    obtain ha | ha := List.mem_append.mp ha
    · exact turn_accesses hcode (by omega) a ha
    · have := length_add p (k.turn code).2
      exact ih hcodes (by omega) a ha

/-- What `keyboard_thread` holds at each place, besides the codes in `key_codes`. -/
def Holds (codes : List Code) : Keyboard.Thread → Prop
  | .firstZero code => IsKeyCode code
  | .firstSub => codes.length = 1
  | .next num => codes.length = num ∧ num < threadBufSize
  | .nextClear num code => codes.length = num ∧ num < threadBufSize ∧ IsKeyCode code
  | .nextZero num code => codes.length = num ∧ num < threadBufSize ∧ IsKeyCode code
  | .nextSub num => codes.length = num + 1 ∧ num < threadBufSize
  | .translate => codes.length ≤ threadBufSize
  | _ => True

/-- What the ISR holds between its read and its store. -/
def Carries : Keyboard.Isr → Prop
  | .index code _ => IsKeyCode code
  | .store _ code _ => IsKeyCode code
  | _ => True

/-- Every code on its way from the port to a batch is one of a key. -/
structure Sound (s : Input) : Prop where
  buf : ∀ i, s.ring.buf i ≠ 0 → IsKeyCode (s.ring.buf i)
  isr : Carries s.ring.isr
  thread : Holds s.keyCodes s.ring.thread
  codes : ∀ code ∈ s.keyCodes, IsKeyCode code

theorem isKeyCode_update {buf : ℕ → Code} (h : ∀ i, buf i ≠ 0 → IsKeyCode (buf i)) (i : ℕ)
    (hc : code ≠ 0 → IsKeyCode code) : ∀ j, update buf i code j ≠ 0 →
      IsKeyCode (update buf i code j) := by
  intro j
  by_cases hj : j = i
  · rw [hj, update_self]
    exact hc
  · rw [update_of_ne hj]
    exact h j

theorem Sound.ring {r : Keyboard.State} (h : Sound s) (hr : Keyboard.Step s.ring e r)
    (hp : ∀ direct, s.ring.isr = .inb direct → r.isr = .inb direct) :
    Sound { s with ring := r, keyCodes := s.collect e } := by
  obtain ⟨⟨buf, used, ii, sleeping, isr, thread, place, oi, lastUsed⟩, pos, scans, keyCodes⟩ := s
  obtain ⟨hbuf, hisr, hthread, hcodes⟩ := h
  dsimp only at hbuf hisr hthread hcodes hp
  cases hr with
  | load | full | reserveFail | wakeAwake | wakeAsleep | rouseBusy | rouseIdle | rouseWild
  | switchTo => exact ⟨hbuf, trivial, hthread, hcodes⟩
  | @reserve _ tempUsed =>
    refine ⟨hbuf, ?_, hthread, hcodes⟩
    dsimp only [Keyboard.afterReserve]
    split <;> trivial
  | inb hinb | inbAbort hinb => cases hp _ hinb
  | index hindex =>
    obtain rfl := hindex
    exact ⟨hbuf, hisr, hthread, hcodes⟩
  | @store i code direct hstore =>
    obtain rfl := hstore
    refine ⟨isKeyCode_update hbuf i fun _ => hisr, ?_, hthread, hcodes⟩
    dsimp only
    split <;> trivial
  | dispatch => exact ⟨hbuf, hisr, hthread, hcodes⟩
  | sleepOk | sleepFail | clear => exact ⟨hbuf, hisr, trivial, hcodes⟩
  | first _ _ hb => exact ⟨hbuf, hisr, hbuf _ hb, hcodes⟩
  | firstZero _ ht =>
    obtain rfl := ht
    exact ⟨isKeyCode_update hbuf _ (absurd rfl), hisr, rfl,
      by simpa [Input.collect, Holds] using hthread⟩
  | firstSub _ ht =>
    obtain rfl := ht
    exact ⟨hbuf, hisr, ⟨hthread, by decide⟩, hcodes⟩
  | nextEmpty _ ht =>
    obtain rfl := ht
    exact ⟨hbuf, hisr, (hthread.1.trans_lt hthread.2).le, hcodes⟩
  | next _ ht hb =>
    obtain rfl := ht
    refine ⟨hbuf, hisr, ?_, hcodes⟩
    dsimp only
    split
    · exact ⟨hthread.1, hthread.2, hbuf _ hb⟩
    · exact ⟨hthread.1, hthread.2, hbuf _ hb⟩
  | nextClear _ ht =>
    obtain rfl := ht
    exact ⟨hbuf, hisr, hthread, hcodes⟩
  | nextZero _ ht =>
    obtain rfl := ht
    refine ⟨isKeyCode_update hbuf _ (absurd rfl), hisr, ⟨?_, hthread.2.1⟩, ?_⟩
    · simp [Input.collect, hthread.1]
    · simpa [Input.collect, or_imp, forall_and] using ⟨hcodes, hthread.2.2⟩
  | nextSub _ ht =>
    obtain rfl := ht
    refine ⟨hbuf, hisr, ?_, hcodes⟩
    dsimp only
    split
    next hfull => exact (hthread.1.trans hfull).le
    next hnot => exact ⟨hthread.1, by have := hthread.2; omega⟩
  | translate =>
    refine ⟨hbuf, hisr, ?_, hcodes⟩
    dsimp only
    split <;> trivial

/-- As long as the bytes that are looked up are not 0xFF. -/
theorem Sound.step (h : Sound s) (hs : Input.Step port s e t)
    (hclean : ∀ i ∈ t.scans, Clean port i) : Sound t := by
  cases hs with
  | scan hp hg hc =>
    exact ⟨h.buf, Keyboard.scan_isKeyCode (hclean _ (by simp)) hg hc, h.thread, h.codes⟩
  | abort hp ha => exact ⟨h.buf, trivial, h.thread, h.codes⟩
  | other hr hp => exact h.ring hr hp

theorem scans_step (hs : Input.Step port s e t) : s.scans ⊆ t.scans := by
  cases hs with
  | scan => exact List.subset_append_left ..
  | abort => exact List.subset_append_left ..
  | other => exact List.Subset.refl _

theorem run_sound {xs : List Event} (h : Run (Input.Step port) Input.initial xs s)
    (hclean : ∀ i ∈ s.scans, Clean port i) : Sound s := by
  induction h with
  | refl => exact ⟨fun i hi => absurd rfl hi, trivial, trivial, nofun⟩
  | step hrun hs ih => exact (ih fun i hi => hclean i (scans_step hs hi)).step hs hclean

/-- In every run the lookups, the codes that are stored and the batches keep to their arrays, if
and only if no interrupt has looked up 0xFF. -/
theorem keys_in_bounds_iff {xs : List Event} (h : Run (Input.Step port) Input.initial xs s) :
    Bounded port s ↔ ∀ i ∈ s.scans, Clean port i := by
  constructor
  · intro hb i hi
    exact Keyboard.scan_inside_iff.mp (hb.lookups i hi)
  · intro hclean
    have hsound := run_sound h hclean
    refine ⟨fun i hi => Keyboard.scan_inside_iff.mpr (hclean i hi), hsound.buf, fun ht k => ?_⟩
    have hlen := hsound.thread
    rw [ht] at hlen
    exact accesses_inBounds hsound.codes (by simpa [Holds] using hlen)

/-- An interrupt while `keyboard_thread` is awake, up to its key code. -/
theorem interrupt_run (hg : (scan port 0).1.Gives code) (hc : code ≠ 0) :
    ∃ xs s, Run (Input.Step port) Input.initial xs s ∧ s.scans = [0] := by
  have hload : Run (Input.Step port) Input.initial _ _ := Run.refl
    |>.step (.other (.load rfl) fun _ h => by cases h)
    |>.step (.other (.reserve rfl (by decide) rfl) fun _ h => by cases h)
    |>.step (.other (.wakeAwake rfl rfl) fun _ h => by cases h)
    |>.step (.scan rfl hg hc)
  exact ⟨_, _, hload, rfl⟩

/-- The enter key. -/
theorem keys_in_bounds_iff_sample : ∃ xs s,
    Run (Input.Step fun _ => 0x1c) Input.initial xs s ∧ Bounded (fun _ => 0x1c) s := by
  have hclean (i : ℕ) : Clean (fun _ => 0x1c) i :=
    ⟨by change (0x1c : UInt8) ≠ 0xFF; decide,
      fun h => absurd h (by change (0x1c : UInt8) ≠ 0xE0; decide)⟩
  obtain ⟨xs, s, hrun, -⟩ := @interrupt_run (fun _ => 0x1c) Keyboard.Key.enter.press
    (fun _ => rfl) (by decide)
  exact ⟨xs, s, hrun, (keys_in_bounds_iff hrun).mpr fun i _ => hclean i⟩

/-- The byte a keyboard sends for a key detection error is looked up behind the map. -/
theorem error_byte_outside : ∃ xs s,
    Run (Input.Step fun _ => 0xFF) Input.initial xs s ∧ ¬ Bounded (fun _ => 0xFF) s := by
  have houtside : ¬ (scan (fun _ => 0xFF) 0).1.Inside :=
    fun h => (Keyboard.scan_inside_iff.mp h).1 rfl
  obtain ⟨xs, s, hrun, hscans⟩ := @interrupt_run (fun _ => 0xFF) 1
    (fun h => absurd h houtside) (by decide)
  exact ⟨xs, s, hrun, fun hb => houtside (hb.lookups 0 (by simp [hscans]))⟩

end MyosIo.Tty
