import MyosIo.Keyboard.Lossless
import MyosIo.Tty.Bounds
import MyosIo.Tty.Readers
import MyosIo.Tty.Text

/-! `keyboard_isr`, `keyboard_thread` and any number of readers at once: what arrives at port 0x60
goes through the ring, `key_codes`, the key tables and the tty buffer into the calls of `read`. -/
namespace MyosIo.Tty

open Function
open Keyboard (Code)

variable {ι : Type*}

structure Console (ι : Type*) where
  input : Input
  keys : Keys
  tty : System ι

/-- `last_used` decides how the next turn of `keyboard_thread` begins. -/
def Input.turn (s : Input) : Input :=
  { s with ring := { s.ring with thread := if s.ring.lastUsed = 1 then .sleep else .first } }

namespace Console

/-- What a step does: to the ring, to the tty, and at the end of a batch. -/
inductive Event
  | input (e : Keyboard.Event)
  | tty (op : Option Op)
  | store (codes : List Code) (p : Batch)
  | skip (codes : List Code)
  | unlock

/-- No key is down. -/
def noKeys : Keys := ⟨fun _ => false, false⟩

def initial : Console ι where
  input := Input.initial
  keys := noKeys
  tty := ⟨defaultTty, none, fun _ => .outside, .outside⟩

/-- `back_num` and `c`. -/
def batch (s : Console ι) : Batch := (translate s.keys ⟨0, []⟩ s.input.keyCodes).2

/-- `keymap` and `is_cap` once the batch is translated. -/
def nextKeys (s : Console ι) : Keys := (translate s.keys ⟨0, []⟩ s.input.keyCodes).1

/-- The ISR, the readers and `keyboard_thread` take their steps in any order; `keyboard_thread`
works on the tty between two turns. -/
inductive Step [DecidableEq ι] (port : ℕ → UInt8) (s : Console ι) : Event → Console ι → Prop
  | input {e : Keyboard.Event} {i : Input} (h : Input.Step port s.input e i)
      (ht : s.input.ring.thread = .translate → i.ring.thread = .translate) :
      Step port s (.input e) { s with input := i }
  | reader {op : Option Op} {t : System ι} (h : System.Step s.tty op t)
      (hk : t.keyboard = s.tty.keyboard) : Step port s (.tty op) { s with tty := t }
  -- `if (c_num == 0 && back_num == 0) continue;`
  | skip (hr : s.input.ring.place = .running) (ht : s.input.ring.thread = .translate)
      (hk : s.tty.keyboard = .outside) (hb : s.batch.c = [] ∧ s.batch.backNum = 0) :
      Step port s (.skip s.input.keyCodes)
        { s with input := { s.input.turn with keyCodes := [] }, keys := s.nextKeys }
  | lock {t : System ι} (ht : s.input.ring.thread = .translate) (h : System.Step s.tty none t)
      (hk : s.tty.keyboard = .outside)
      (hk' : t.keyboard = .handling s.batch.backNum s.batch.c) :
      Step port s (.tty none) { s with tty := t }
  | handle {t : System ι} {n : ℕ} {c : List UInt8} (h : System.Step s.tty none t)
      (hk : s.tty.keyboard = .handling n c) (hk' : t.keyboard = .storing n c) :
      Step port s (.tty none) { s with tty := t }
  | store {t : System ι} {n : ℕ} {c : List UInt8} (h : System.Step s.tty (some (.batch n c)) t)
      (hk : s.tty.keyboard = .storing n c) (hk' : t.keyboard = .leaving) :
      Step port s (.store s.input.keyCodes ⟨n, c⟩)
        { s with input := { s.input with keyCodes := [] }, keys := s.nextKeys, tty := t }
  | unlock {t : System ι} (hr : s.input.ring.place = .running)
      (ht : s.input.ring.thread = .translate) (h : System.Step s.tty none t)
      (hk : s.tty.keyboard = .leaving) (hk' : t.keyboard = .outside) :
      Step port s .unlock { s with input := s.input.turn, tty := t }

def Event.ring : Event → Option Keyboard.Event
  | .input e => some e
  | .skip _ | .unlock => some .silent
  | _ => none

def Event.system : Event → Option (Option Op)
  | .tty op => some op
  | .store _ p => some (some (.batch p.backNum p.c))
  | .unlock => some none
  | _ => none

def Event.turn : Event → Option (List Code)
  | .store codes _ | .skip codes => some codes
  | _ => none

def ringEvents (xs : List Event) : List Keyboard.Event := xs.filterMap Event.ring

/-- What is done to the tty buffer. -/
def ops (xs : List Event) : List Op := (xs.filterMap Event.system).filterMap id

/-- The contents of `key_codes` in one turn after another. -/
def turns (xs : List Event) : List (List Code) := xs.filterMap Event.turn

/-- The batches that the turns are translated to. -/
def batches : Keys → List (List Code) → List Batch
  | _, [] => []
  | k, codes :: cut =>
    let (k, p) := translate k ⟨0, []⟩ codes
    p :: batches k cut

variable [DecidableEq ι] {port : ℕ → UInt8} {s t : Console ι} {e : Event} {xs : List Event}

theorem ring_step (h : Step port s e t) : e.ring = none ∧ t.input.ring = s.input.ring ∨
    ∃ e', e.ring = some e' ∧ Keyboard.Step s.input.ring e' t.input.ring := by
  cases h with
  | input h ht => exact .inr ⟨_, rfl, h.ring⟩
  | skip hr ht hk hb => exact .inr ⟨_, rfl, .translate hr ht⟩
  | unlock hr ht h hk hk' => exact .inr ⟨_, rfl, .translate hr ht⟩
  | reader | lock | handle | store => exact .inl ⟨rfl, rfl⟩

theorem system_step (h : Step port s e t) : e.system = none ∧ t.tty = s.tty ∨
    ∃ e', e.system = some e' ∧ System.Step s.tty e' t.tty := by
  cases h with
  | input | skip => exact .inl ⟨rfl, rfl⟩
  | reader h | lock _ h | handle h | store h | unlock _ _ h => exact .inr ⟨_, rfl, h⟩

theorem run_ring (h : Run (Step port) (initial : Console ι) xs s) :
    Run Keyboard.Step Keyboard.initial (ringEvents xs) s.input.ring :=
  h.project (fun s => s.input.ring) fun _ _ _ => ring_step

theorem run_system (h : Run (Step port) (initial : Console ι) xs s) :
    Run System.Step (initial : Console ι).tty (xs.filterMap Event.system) s.tty :=
  h.project (fun s => s.tty) fun _ _ _ => system_step

omit [DecidableEq ι] in
theorem start_initial : System.Start (initial : Console ι).tty := ⟨rfl, fun _ => rfl, rfl⟩

/-- The buffer holds what an editor of the same batches and reads holds. -/
theorem run_line (h : Run (Step port) (initial : Console ι) xs s) :
    ∃ l, Run Line.Step ⟨[], []⟩ (ops xs) l ∧ Related l s.tty.tty := by
  have hrun := System.run_tty start_initial (run_system h)
  change Run Tty.Step defaultTty (ops xs) s.tty.tty at hrun
  generalize ops xs = os, s.tty.tty = b at hrun
  induction hrun with
  | refl => exact ⟨_, .refl, related_default⟩
  | step _ hs ih =>
    obtain ⟨l, hrun, hrel⟩ := ih
    obtain ⟨l', hstep, hrel'⟩ := step_related hrel hs
    exact ⟨l', hrun.step hstep, hrel'⟩

end Console
end MyosIo.Tty
