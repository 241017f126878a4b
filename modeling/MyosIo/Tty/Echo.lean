import MyosIo.Tty.Batching

/-! The erasings of a batch are clamped to what is pending before they are echoed; its characters
are clamped to the room left only afterwards. -/
namespace MyosIo.Tty

variable {l : Line} {s : TTY}

/-- `back_num` after it is clamped: the pending bytes the batch takes off. -/
def TTY.erased (s : TTY) (backNum : ℕ) : ℕ :=
  if s.used - s.visible < backNum then s.used - s.visible else backNum

/-- `save_num`. -/
def TTY.saveNum (s : TTY) (backNum : ℕ) (c : List UInt8) : ℕ :=
  if c.length > readBufSize - (s.used - s.erased backNum) then
    readBufSize - (s.used - s.erased backNum) else c.length

/-- The bytes the saving loop appends. -/
def TTY.saved (s : TTY) (backNum : ℕ) (c : List UInt8) : List UInt8 :=
  c.take (s.saveNum backNum c)

/-- The echo takes back and adds what the batch takes off and appends. -/
def EchoStored (s : TTY) (backNum : ℕ) (c : List UInt8) : Prop :=
  (handleBatch s backNum c).echo = erasing (s.erased backNum) ++ s.saved backNum c

theorem handleBatch_echo (s : TTY) (backNum : ℕ) (c : List UInt8) :
    (handleBatch s backNum c).echo = erasing (s.erased backNum) ++ c := by
  unfold handleBatch
  dsimp only
  rw [← TTY.erased]
  split
  next h =>
    obtain ⟨hk, rfl⟩ := h
    rw [hk]
    rfl
  next => rfl

theorem Related.erased_eq (h : Related l s) (backNum : ℕ) :
    s.erased backNum = min backNum l.pending.length := by
  rw [TTY.erased, h.pending_length]
  split <;> omega

/-- The line keeps what is not erased and gains what is saved. -/
theorem Related.saved_eq (h : Related l s) (backNum : ℕ) (c : List UInt8) :
    s.saved backNum c = l.fitting backNum c := by
  obtain ⟨hused, -, -⟩ := h.erase (h.erased_eq backNum)
  rw [TTY.saved, TTY.saveNum, hused, Line.fitting]
  split
  next => rfl
  next hle =>
    rw [List.take_of_length_le (Nat.le_refl _), List.take_of_length_le (Nat.not_lt.mp hle)]

theorem Related.echoStored (h : Related l s) (backNum : ℕ) (c : List UInt8) :
    EchoStored s backNum c ↔
      c.length ≤ readBufSize - (s.used - min backNum (s.used - s.visible)) := by
  have herased : s.erased backNum = min backNum (s.used - s.visible) := by
    rw [h.erased_eq, h.pending_length]
  rw [EchoStored, handleBatch_echo, List.append_cancel_left_eq, TTY.saved, TTY.saveNum, ← herased]
  constructor
  · intro heq
    have hlen := congrArg List.length heq
    rw [List.length_take] at hlen
    split at hlen <;> omega
  · intro hle
    rw [if_neg (Nat.not_lt.mpr hle), List.take_of_length_le (Nat.le_refl _)]

/-- The echo of a batch says what became of the buffer exactly when all its characters fit. -/
theorem echo_stored_iff (h : Related l s) (backNum : ℕ) (c : List UInt8) :
    (∃ l', Related l' (handleBatch s backNum c).tty ∧
      l'.readable ++ l'.pending =
        l.readable ++ l.pending.rdrop (s.erased backNum) ++ s.saved backNum c) ∧
    (EchoStored s backNum c ↔
      c.length ≤ readBufSize - (s.used - min backNum (s.used - s.visible))) := by
  refine ⟨⟨_, handleBatch_related h backNum c, ?_⟩, h.echoStored backNum c⟩
  rw [h.saved_eq, h.erased_eq]
  exact l.batch_contents backNum c

/-- `"hi"`, then a backspace and `"a\n"` in one batch. -/
theorem echo_stored_iff_sample :
    let s := (handleBatch defaultTty 0 [104, 105]).tty
    (∃ l', Related l' (handleBatch s 1 [97, 10]).tty ∧
      l'.readable ++ l'.pending = [104, 97, 10]) ∧
    (handleBatch s 1 [97, 10]).echo = [8, 32, 8, 97, 10] ∧ EchoStored s 1 [97, 10] := by
  have hrel := handleBatch_related related_default 0 [104, 105]
  obtain ⟨⟨l', hl', hbytes⟩, hiff⟩ := echo_stored_iff hrel 1 [97, 10]
  exact ⟨⟨l', hl', hbytes.trans (by decide)⟩, by decide, hiff.mpr (by decide)⟩

/-- A buffer that nobody reads takes `n` characters typed one by one. -/
theorem typed_run {n : ℕ} (hn : n ≤ readBufSize) : ∃ l s,
    Run Step defaultTty (List.replicate n (.batch 0 [97])) s ∧ Related l s ∧ l.size = n := by
  induction n with
  | zero => exact ⟨⟨[], []⟩, _, .refl, related_default, rfl⟩
  | succ n ih =>
    obtain ⟨l, s, hrun, hrel, hsize⟩ := ih (Nat.le_of_succ_le hn)
    refine ⟨_, _, ?_, handleBatch_related hrel 0 [97], ?_⟩
    · rw [List.replicate_succ']
      exact hrun.step (.batch 0 [97])
    · have hroom : l.fitting 0 [97] = [97] := Line.fitting_room (hsize ▸ hn)
      have hlen : (l.readable ++ l.pending).length = n := hsize
      rw [Line.size, l.batch_contents, hroom, Line.kept_zero, List.length_append, hlen]
      rfl

/-- A character typed at a full buffer is shown and not stored. -/
theorem full_echoed : ∃ xs, ∃ s, Run Step defaultTty xs s ∧
    Alike s (handleBatch s 0 [98]).tty ∧ (handleBatch s 0 [98]).echo = [98] ∧
    ¬EchoStored s 0 [98] := by
  obtain ⟨l, s, hrun, hrel, hsize⟩ := typed_run (Nat.le_refl readBufSize)
  have hstay : l.batch 0 [98] = l := Line.batch_full hsize [98]
  have hfull : readBufSize - (s.used - min 0 (s.used - s.visible)) = 0 := by
    rw [Nat.zero_min, Nat.sub_zero, hrel.used, ← Line.size, hsize, Nat.sub_self]
  refine ⟨_, s, hrun, ⟨l, hrel, ?_⟩, rfl, ?_⟩
  · have := handleBatch_related hrel 0 [98]
    rwa [hstay] at this
  · rw [hrel.echoStored, hfull]
    exact Nat.not_succ_le_zero 0

end MyosIo.Tty
