import MyosIo.Tty.Console

/-! In a run of the whole console every key code is in one place on its way, and the batches the
turns are translated to are the batches the buffer has handled. -/
namespace MyosIo.Tty.Console

open Function
open Keyboard (Code Clean keyCodes starts threadBufSize accepted stored)

variable {ι : Type*} {s t : Console ι} {e : Event} {xs : List Event}
  {port : ℕ → UInt8} {i j : Input} {w : Writer} {k : Keys} {p : Batch}
  {codes : List Code} {cut : List (List Code)} {a : Keyboard.Event}

theorem length_translate : (translate k p codes).2.c.length ≤ p.c.length + codes.length := by
  induction codes generalizing k p with
  | nil => exact Nat.le_refl _
  | cons code codes ih =>
    have hadd := length_add p (k.turn code).2
    have := @ih (k.turn code).1 (p.add (k.turn code).2)
    rw [translate, List.length_cons]
    omega

theorem batches_snoc : batches k (cut ++ [codes]) =
    batches k cut ++ [(translate (k.after cut.flatten) ⟨0, []⟩ codes).2] := by
  induction cut generalizing k with
  | nil => rfl
  | cons first cut ih =>
    rw [List.flatten_cons, Keys.after_append]
    have hkeys : (translate k ⟨0, []⟩ first).1 = k.after first := by rw [translate_eq]
    rw [List.cons_append, batches, batches]
    dsimp only
    rw [ih, hkeys, List.cons_append]

/-- A batch of nothing. -/
theorem edit_nothing {l : Line} (h : newline ∉ l.pending) : l.edit ⟨0, []⟩ = l := by
  have hall : ∀ b ∈ l.pending, decide (b ≠ newline) = true := fun b hb =>
    decide_eq_true fun he => h (he ▸ hb)
  simp only [Line.edit, List.rdrop_zero, List.append_nil]
  rw [List.rdropWhile_eq_nil_iff.mpr hall, List.rtakeWhile_eq_self_iff.mpr hall, List.append_nil]

/-- `key_codes` at each place of `keyboard_thread`. -/
def Gathered (codes : List Code) (w : Writer) : Keyboard.Thread → Prop
  | .firstSub => codes.length = 1 ∧ w = .outside
  | .next num | .nextClear num _ | .nextZero num _ =>
    codes.length = num ∧ 0 < num ∧ num < threadBufSize ∧ w = .outside
  | .nextSub num => codes.length = num + 1 ∧ num < threadBufSize ∧ w = .outside
  | .translate =>
    w = .leaving ∧ codes = [] ∨ w ≠ .leaving ∧ codes ≠ [] ∧ codes.length ≤ threadBufSize
  | _ => codes = [] ∧ w = .outside

@[simp] theorem taken_silent : Keyboard.taken [.silent] = [] := rfl

/-- Nothing is taken out of the ring while a batch is handled. -/
theorem taken_translate {s t : Keyboard.State} (h : Keyboard.Step s a t)
    (ht : s.thread = .translate) : Keyboard.taken [a] = [] := by
  cases h with
  | firstZero _ h | nextZero _ h => simp [ht] at h
  | _ => rfl

/-- A code that is taken out of the ring is a code more in `key_codes`. -/
theorem gathered_ring {r : Keyboard.State} (hr : Keyboard.Step i.ring a r)
    (ht : i.ring.thread = .translate → r.thread = .translate)
    (hg : Gathered i.keyCodes w i.ring.thread) :
    Gathered (i.collect a) w r.thread ∧ i.collect a = i.keyCodes ++ Keyboard.taken [a] := by
  obtain ⟨⟨buf, used, ii, sleeping, isr, thread, place, oi, lastUsed⟩, pos, scans, keyCodes⟩ := i
  dsimp only at hg ht
  cases hr with
  | firstZero _ h =>
    obtain rfl := h
    obtain ⟨rfl, rfl⟩ := hg
    exact ⟨⟨rfl, rfl⟩, rfl⟩
  | firstSub _ h =>
    obtain rfl := h
    exact ⟨⟨hg.1, by decide, by decide, hg.2⟩, (List.append_nil _).symm⟩
  | nextEmpty _ h =>
    obtain rfl := h
    obtain ⟨hlen, hpos, hlt, rfl⟩ := hg
    refine ⟨.inr ⟨by simp, ?_, ?_⟩, (List.append_nil _).symm⟩
    · exact List.ne_nil_of_length_pos (hlen ▸ hpos)
    · exact hlen ▸ hlt.le
  | next _ h =>
    obtain rfl := h
    refine ⟨?_, (List.append_nil _).symm⟩
    dsimp only
    split
    · exact hg
    · exact hg
  | nextClear _ h =>
    obtain rfl := h
    exact ⟨hg, (List.append_nil _).symm⟩
  | nextZero _ h =>
    obtain rfl := h
    obtain ⟨hlen, -, hlt, hw⟩ := hg
    refine ⟨⟨?_, hlt, hw⟩, rfl⟩
    simp [Input.collect, hlen]
  | nextSub _ h =>
    obtain rfl := h
    obtain ⟨hlen, hlt, rfl⟩ := hg
    refine ⟨?_, (List.append_nil _).symm⟩
    dsimp only
    split
    next hfull =>
      refine .inr ⟨by simp, ?_, (hlen.trans hfull).le⟩
      exact List.ne_nil_of_length_pos (by change 0 < keyCodes.length; omega)
    next hnot => exact ⟨hlen, Nat.zero_lt_succ _, by omega, rfl⟩
  | translate _ h =>
    have := ht h
    dsimp only at this
    split at this <;> cases this
  | sleepOk _ h | sleepFail _ h | clear _ h | first _ h =>
    obtain rfl := h
    exact ⟨hg, (List.append_nil _).symm⟩
  | _ => exact ⟨hg, (List.append_nil _).symm⟩

theorem gathered_step (h : Input.Step port i a j)
    (ht : i.ring.thread = .translate → j.ring.thread = .translate)
    (hg : Gathered i.keyCodes w i.ring.thread) :
    Gathered j.keyCodes w j.ring.thread ∧ j.keyCodes = i.keyCodes ++ Keyboard.taken [a] := by
  cases h with
  | scan hp hg' hc => exact ⟨hg, (List.append_nil _).symm⟩
  | abort hp ha => exact ⟨hg, (List.append_nil _).symm⟩
  | other hr hp => exact gathered_ring hr ht hg

/-- An interrupt accepts the key code its bytes come to, if there is one. -/
theorem scanned_step (h : Input.Step port i a j) :
    j.scans = i.scans ∧ j.pos = i.pos ∧ accepted [a] = [] ∨
      j.scans = i.scans ++ [i.pos] ∧ j.pos = (Keyboard.scan port i.pos).2 ∧
        (Clean port i.pos → accepted [a] = keyCodes port [i.pos]) := by
  cases h with
  | scan hp hg hc =>
    refine .inr ⟨rfl, rfl, fun hclean => ?_⟩
    have := hg.keyCode (Keyboard.scan_inside_iff.mpr hclean)
    simp [accepted, keyCodes, this, hc]
  | abort hp ha =>
    refine .inr ⟨rfl, rfl, fun hclean => ?_⟩
    have hzero : (Keyboard.scan port i.pos).1.keyCode = 0 := by
      obtain ha | ha := ha
      · rw [ha]
        rfl
      · exact ha.keyCode (Keyboard.scan_inside_iff.mpr hclean)
    simp [accepted, keyCodes, hzero]
  | other hr hp =>
    refine .inl ⟨rfl, rfl, ?_⟩
    cases hr with
    | inb hinb => cases hp _ hinb
    | _ => rfl

@[simp] theorem ringEvents_snoc (xs : List Event) (e : Event) :
    ringEvents (xs ++ [e]) = ringEvents xs ++ e.ring.toList := by
  cases h : e.ring <;> simp [ringEvents, h]

@[simp] theorem turns_snoc (xs : List Event) (e : Event) :
    turns (xs ++ [e]) = turns xs ++ e.turn.toList := by
  cases h : e.turn <;> simp [turns, h]

@[simp] theorem ops_snoc (xs : List Event) (e : Event) :
    ops (xs ++ [e]) = ops xs ++ (e.system.bind id).toList := by
  cases h : e.system with
  | none => simp [ops, h]
  | some op => cases op <;> simp [ops, h]

/-- Every code taken out of the ring is in `key_codes` or in one of the turns before, and the buffer
has handled the batches of these turns. -/
structure Flow (xs : List Event) (s : Console ι) : Prop where
  taken : (turns xs).flatten ++ s.input.keyCodes = Keyboard.taken (ringEvents xs)
  keys : s.keys = noKeys.after (turns xs).flatten
  lines : edited (typed (ops xs)) = edited (batches noKeys (turns xs))
  length : written (typed (ops xs)) ≤ (turns xs).flatten.length
  cut : ∀ codes ∈ turns xs, codes ≠ [] ∧ codes.length ≤ threadBufSize
  gathered : Gathered s.input.keyCodes s.tty.keyboard s.input.ring.thread
  handling : ∀ n c, s.tty.keyboard = .handling n c ∨ s.tty.keyboard = .storing n c →
    s.batch = ⟨n, c⟩

theorem flow_initial : Flow [] (initial : Console ι) where
  taken := rfl
  keys := rfl
  lines := rfl
  length := Nat.le_refl 0
  cut := by simp [turns]
  gathered := ⟨rfl, rfl⟩
  handling := by simp [initial]

namespace Flow

/-- Only when it has a batch does `keyboard_thread` work on the tty. -/
theorem translating (h : Flow xs s) (hk : s.tty.keyboard ≠ .outside) :
    s.input.ring.thread = .translate := by
  have := h.gathered
  cases ht : s.input.ring.thread with
  | translate => rfl
  | _ => simp [ht, Gathered, hk] at this

theorem filled (h : Flow xs s) (ht : s.input.ring.thread = .translate)
    (hk : s.tty.keyboard ≠ .leaving) :
    s.input.keyCodes ≠ [] ∧ s.input.keyCodes.length ≤ threadBufSize := by
  have := h.gathered
  rw [ht] at this
  exact (this.resolve_left fun hl => hk hl.1).2

theorem input (h : Flow xs s) {i : Input} (hs : Input.Step port s.input a i)
    (ht : s.input.ring.thread = .translate → i.ring.thread = .translate) :
    Flow (xs ++ [Event.input a]) { s with input := i } := by
  obtain ⟨hg, hcodes⟩ := gathered_step hs ht h.gathered
  refine ⟨?_, by simpa [Event.turn] using h.keys, by simpa [Event.turn, Event.system] using h.lines,
    by simpa [Event.turn, Event.system] using h.length, by simpa [Event.turn] using h.cut, hg, ?_⟩
  · rw [hcodes, ← List.append_assoc]
    simp [Event.turn, Event.ring, h.taken]
  · intro n c (hk : s.tty.keyboard = _ ∨ s.tty.keyboard = _)
    have htrans := h.translating fun ho => by simp [ho] at hk
    rw [taken_translate hs.ring htrans, List.append_nil] at hcodes
    rw [← h.handling n c hk, batch, batch, hcodes]

/-- A step on the tty that hands it no batch. -/
theorem wait (h : Flow xs s) {t : System ι} {op : Option Op} (hop : ∀ o ∈ op, o.typed = none)
    (hg : Gathered s.input.keyCodes t.keyboard s.input.ring.thread)
    (hb : ∀ n c, t.keyboard = .handling n c ∨ t.keyboard = .storing n c → s.batch = ⟨n, c⟩) :
    Flow (xs ++ [Event.tty op]) { s with tty := t } := by
  have htyped : typed (ops (xs ++ [Event.tty op])) = typed (ops xs) := by
    cases op with
    | none => simp [Event.system]
    | some o => simp [Event.system, hop o rfl]
  refine ⟨by simpa [Event.turn, Event.ring] using h.taken, by simpa [Event.turn] using h.keys, ?_,
    ?_, by simpa [Event.turn] using h.cut, hg, hb⟩
  · rw [htyped]
    simpa [Event.turn] using h.lines
  · rw [htyped]
    simpa [Event.turn] using h.length

theorem nextKeys (h : Flow xs s) :
    s.nextKeys = noKeys.after ((turns xs).flatten ++ s.input.keyCodes) := by
  rw [Keys.after_append, ← h.keys, Console.nextKeys, translate_eq]

theorem batch (h : Flow xs s) :
    batches noKeys (turns xs ++ [s.input.keyCodes]) = batches noKeys (turns xs) ++ [s.batch] := by
  rw [batches_snoc, ← h.keys]
  rfl

/-- `key_codes` becomes the last turn. -/
theorem cut_snoc (h : Flow xs s) (hf : s.input.keyCodes ≠ [] ∧
    s.input.keyCodes.length ≤ threadBufSize) : ∀ codes ∈ turns xs ++ [s.input.keyCodes],
      codes ≠ [] ∧ codes.length ≤ threadBufSize := by
  intro codes hc
  obtain hc | hc := List.mem_append.mp hc
  · exact h.cut codes hc
  · obtain rfl := List.mem_singleton.mp hc
    exact hf

end Flow

variable [DecidableEq ι]

/-- A reader hands no batch to the buffer. -/
theorem reader_typed {s t : System ι} {op : Op} (h : System.Step s (some op) t)
    (hk : t.keyboard = s.keyboard) : op.typed = none := by
  cases h with
  | copy i c hi b op ht =>
    cases c with
    | read size =>
      obtain ⟨⟨b, bytes⟩, -, he⟩ := Option.map_eq_some_iff.mp ht
      cases he
      rfl
    | readv iov iovcnt =>
      obtain ⟨⟨b, ret⟩, -, he⟩ := Option.map_eq_some_iff.mp ht
      cases he
      rfl
  | store n c hs => simp [hs] at hk

theorem Flow.step (h : Flow xs s) (hs : Step port s e t) : Flow (xs ++ [e]) t := by
  cases hs with
  | input hs ht => exact h.input hs ht
  | reader hs hk =>
    refine h.wait (fun o ho => ?_) (hk ▸ h.gathered) (hk ▸ h.handling)
    obtain rfl := Option.mem_def.mp ho
    exact reader_typed hs hk
  | lock ht hs hk hk' =>
    refine h.wait (by simp) ?_ fun n c hb => ?_
    · have := h.filled ht (by simp [hk])
      rw [ht]
      exact .inr ⟨by simp [hk'], this⟩
    · rcases hb with hb | hb
      · rw [hk'] at hb
        cases hb
        rfl
      · simp [hk'] at hb
  | @handle _ n c hs hk hk' =>
    have ht := h.translating (by simp [hk])
    refine h.wait (by simp) ?_ fun n' c' hb => ?_
    · rw [ht]
      exact .inr ⟨by simp [hk'], h.filled ht (by simp [hk])⟩
    · have hbatch := h.handling n c (.inl hk)
      rcases hb with hb | hb
      · simp [hk'] at hb
      · rw [hk'] at hb
        cases hb
        exact hbatch
  | skip hr ht hk hb =>
    have hf := h.filled ht (by simp [hk])
    have hnothing : s.batch = ⟨0, []⟩ := by
      obtain ⟨hc, hn⟩ := hb
      generalize s.batch = p at hc hn
      obtain ⟨n, c⟩ := p
      simp only at hc hn
      rw [hc, hn]
    refine ⟨?_, ?_, ?_, ?_, ?_, ?_, by simp [hk]⟩
    · simpa [Event.turn, Event.ring] using h.taken
    · simpa [Event.turn] using h.nextKeys
    · simp only [ops_snoc, turns_snoc, Event.system, Event.turn, Option.bind_none,
        Option.toList_none, List.append_nil, Option.toList_some]
      rw [h.batch, edited_snoc, hnothing, edit_nothing (edited_pending _), h.lines]
    · have := h.length
      simp only [ops_snoc, turns_snoc, Event.system, Event.turn, Option.bind_none,
        Option.toList_none, List.append_nil, Option.toList_some, List.flatten_append,
        List.length_append]
      omega
    · simpa [Event.turn] using h.cut_snoc hf
    · dsimp only [Input.turn]
      split
      · exact ⟨rfl, hk⟩
      · exact ⟨rfl, hk⟩
  | @store _ n c hs hk hk' =>
    have ht := h.translating (by simp [hk])
    have hf := h.filled ht (by simp [hk])
    have hbatch := h.handling n c (.inr hk)
    refine ⟨?_, ?_, ?_, ?_, ?_, ?_, by simp [hk']⟩
    · simpa [Event.turn, Event.ring] using h.taken
    · simpa [Event.turn] using h.nextKeys
    · have htyped : (Op.batch n c).typed.toList = [⟨n, c⟩] := rfl
      simp only [ops_snoc, turns_snoc, Event.system, Event.turn, Option.bind_some, id,
        Option.toList_some, typed_snoc, htyped]
      rw [h.batch, edited_snoc, edited_snoc, h.lines, hbatch]
    · have hlen : s.batch.c.length ≤ 0 + s.input.keyCodes.length := length_translate
      have := h.length
      have hc : written [⟨n, c⟩] = c.length := by simp [written]
      have htyped : (Op.batch n c).typed.toList = [⟨n, c⟩] := rfl
      rw [hbatch] at hlen
      simp only [ops_snoc, turns_snoc, Event.system, Event.turn, Option.bind_some, id,
        Option.toList_some, typed_snoc, htyped, written_append, hc, List.flatten_append,
        List.flatten_cons, List.flatten_nil, List.append_nil, List.length_append] at hlen ⊢
      omega
    · simpa [Event.turn] using h.cut_snoc hf
    · rw [ht, hk']
      exact .inl ⟨rfl, rfl⟩
  | unlock hr ht hs hk hk' =>
    have hnil : s.input.keyCodes = [] := by
      have := h.gathered
      rw [ht, hk] at this
      exact (this.resolve_right fun hn => hn.1 rfl).2
    refine ⟨?_, by simpa [Event.turn] using h.keys, ?_, ?_, by simpa [Event.turn] using h.cut, ?_,
      by simp [hk']⟩
    · simpa [Event.turn, Event.ring, Input.turn] using h.taken
    · simpa [Event.turn, Event.system] using h.lines
    · simpa [Event.turn, Event.system] using h.length
    · dsimp only [Input.turn]
      split
      · exact ⟨hnil, hk'⟩
      · exact ⟨hnil, hk'⟩

theorem run_flow (h : Run (Step port) (initial : Console ι) xs s) : Flow xs s :=
  h.history flow_initial fun _ _ _ _ hf hs => hf.step hs

/-- The interrupts so far have read the bytes at the port one after another. -/
structure Scanned (port : ℕ → UInt8) (xs : List Event) (s : Console ι) : Prop where
  scans : s.input.scans = starts port s.input.scans.length
  pos : s.input.pos = (fun i => (Keyboard.scan port i).2)^[s.input.scans.length] 0
  accepted : (∀ i ∈ s.input.scans, Clean port i) →
    accepted (ringEvents xs) = keyCodes port s.input.scans

omit [DecidableEq ι] in
theorem accepted_ringEvents (xs : List Event) (e : Event) :
    accepted (ringEvents (xs ++ [e])) = accepted (ringEvents xs) ++ accepted e.ring.toList := by
  rw [ringEvents_snoc, accepted, List.filterMap_append]
  rfl

theorem Scanned.step (h : Scanned port xs s) (hs : Step port s e t) :
    Scanned port (xs ++ [e]) t := by
  have hsame (he : Keyboard.accepted e.ring.toList = []) (hscans : t.input.scans = s.input.scans)
      (hpos : t.input.pos = s.input.pos) : Scanned port (xs ++ [e]) t := by
    refine ⟨by rw [hscans]; exact h.scans, by rw [hscans, hpos]; exact h.pos, ?_⟩
    rw [hscans, accepted_ringEvents, he, List.append_nil]
    exact h.accepted
  cases hs with
  | @input a i hs ht =>
    obtain ⟨hscans, hpos, ha⟩ | ⟨hscans, hpos, ha⟩ := scanned_step hs
    · exact hsame ha hscans hpos
    · refine ⟨?_, ?_, fun hclean => ?_⟩
      · dsimp only
        rw [hscans, List.length_append, List.length_singleton, starts, List.iterate_add, ← starts,
          ← h.scans, ← h.pos]
        rfl
      · dsimp only
        rw [hpos, hscans, List.length_append, List.length_singleton, Function.iterate_succ_apply',
          ← h.pos]
      · rw [hscans] at hclean
        rw [accepted_ringEvents, h.accepted fun i hi => hclean i (by simp [hi]), hscans,
          Keyboard.keyCodes_append]
        exact congrArg _ (ha (hclean _ (by simp)))
  | _ => exact hsame rfl rfl rfl

theorem run_scanned (h : Run (Step port) (initial : Console ι) xs s) : Scanned port xs s :=
  h.history ⟨rfl, rfl, fun _ => rfl⟩ fun _ _ _ _ hi hs => hi.step hs

/-- For any order of steps, with at most 65536 key codes stored: what the readers have read, what is
readable and what is pending is the edited text of the key codes the interrupts have read, up to
those that are still on their way; and nobody sleeps while there is something to read. -/
theorem typed_is_read (h : Run (Step port) (initial : Console ι) xs s)
    (hclean : ∀ i ∈ s.input.scans, Clean port i)
    (hn : (stored (ringEvents xs)).length ≤ 65536) :
    ∃ l rest, Related l s.tty.tty ∧
      keyCodes port (starts port s.input.scans.length) = (turns xs).flatten ++ rest ∧
      (s.input.ring.used = 0 → s.input.keyCodes = [] → rest = []) ∧
      Cut (turns xs).flatten (turns xs) ∧
      (⟨received (ops xs) ++ l.readable, l.pending⟩ : Line) =
        edited (batches noKeys (turns xs)) ∧
      (l.readable ≠ [] → ∀ i, ¬s.tty.Waiting i) := by
  obtain ⟨l, hline, hrel⟩ := run_line h
  obtain ⟨q, hinv⟩ := Keyboard.run_inv (run_ring h) fun k hk => Keyboard.slots_agree (by omega)
  have hflow := run_flow h
  have hscanned := run_scanned h
  have haccepted := hscanned.accepted hclean
  rw [hscanned.scans, hinv.acc, ← hflow.taken] at haccepted
  have hlen : (turns xs).flatten.length ≤ 65536 := by
    have htaken := congrArg List.length hflow.taken
    have := hinv.stores
    rw [List.length_append] at htaken
    omega
  rw [List.append_assoc, List.append_assoc] at haccepted
  refine ⟨l, _, hrel, haccepted.symm, ?_, ⟨rfl, hflow.cut⟩, ?_, fun hr => ?_⟩
  · intro hused hcodes
    have hall := hinv.used
    rw [hused] at hall
    have hq : q = [] := List.eq_nil_of_length_eq_zero (by omega)
    have hflight : Keyboard.inFlight s.input.ring.isr = [] := by
      cases hi : s.input.ring.isr with
      | index | store =>
        simp only [hi, Keyboard.reserved] at hall
        omega
      | _ => rfl
    rw [hcodes, hq, hflight]
    rfl
  · rw [← hflow.lines]
    refine run_edited hline ?_
    have hlow : 65536 < readBufVisibleThreshold := by decide
    have := hflow.length
    omega
  · have hvisible : s.tty.tty.visible ≠ 0 := fun hv =>
      hr (List.eq_nil_of_length_eq_zero (hrel.visible ▸ hv))
    exact (System.run_inv start_initial (run_system h)).waiting hvisible

/-- The enter key, from its scan code to the newline. -/
theorem typed_is_read_sample : ∃ xs, ∃ s : Console Unit,
    Run (Step fun _ => 0x1c) initial xs s ∧
      ∃ l, Related l s.tty.tty ∧ received (ops xs) ++ l.readable = [newline] := by
  have hscan : (Keyboard.scan (fun _ => 0x1c) 0).1.Gives Keyboard.Key.enter.press := fun _ => rfl
  have h₀ : Run (Step fun _ => 0x1c) (initial : Console Unit) [] _ := .refl
  have h₁ := h₀.step (.input (.other (.load rfl) fun _ h => by cases h) id)
  have h₂ := h₁.step (.input (.other (.reserve rfl (by decide) rfl) fun _ h => by cases h) id)
  have h₃ := h₂.step (.input (.other (.wakeAwake rfl rfl) fun _ h => by cases h) id)
  have h₄ := h₃.step (.input (.scan rfl hscan (by decide)) id)
  have h₅ := h₄.step (.input (.other (.index rfl) fun _ h => by cases h) id)
  have h₆ := h₅.step (.input (.other (.store rfl) fun _ h => by cases h) id)
  have h₇ := h₆.step (.input (.other (.sleepFail rfl rfl (by decide)) fun _ h => h)
    fun h => by cases h)
  have h₈ := h₇.step (.input (.other (.clear rfl rfl) fun _ h => h) fun h => by cases h)
  have h₉ := h₈.step (.input (.other (.first rfl rfl (by decide)) fun _ h => h) fun h => by cases h)
  have g₀ := h₉.step (.input (.other (.firstZero rfl rfl) fun _ h => h) fun h => by cases h)
  have g₁ := g₀.step (.input (.other (.firstSub rfl rfl) fun _ h => h) fun h => by cases h)
  have g₂ := g₁.step (.input (.other (.nextEmpty rfl rfl rfl) fun _ h => h) fun h => by cases h)
  have g₃ := g₂.step (.lock rfl (.keyLock 0 [newline] rfl (by simp) rfl) rfl rfl)
  have g₄ := g₃.step (.handle (.broadcast 0 [newline] rfl (by decide)) rfl rfl)
  have g₅ := g₄.step (.store (.store 0 [newline] rfl) rfl rfl)
  have g₆ := g₅.step (.unlock rfl rfl (.keyUnlock rfl) rfl rfl)
  have hclean (i : ℕ) : Clean (fun _ => 0x1c) i :=
    ⟨by change (0x1c : UInt8) ≠ 0xFF; decide,
      fun h => absurd h (by change (0x1c : UInt8) ≠ 0xE0; decide)⟩
  obtain ⟨l, rest, hrel, -, -, -, htext, -⟩ :=
    typed_is_read g₆ (fun i _ => hclean i) (by decide)
  exact ⟨_, _, g₆, l, hrel, congrArg Line.readable htext⟩

end MyosIo.Tty.Console
