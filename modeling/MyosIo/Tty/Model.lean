import Mathlib.Data.List.DropRight
import MyosIo.Lib.Ring
import MyosIo.Lib.Run

/-! `keyboard_thread`'s update of the current tty, `tty_read` and `tty_readv`. Each one is the
critical section it runs under `read_mtx`; a read that finds nothing visible waits in `cnd_wait`
and starts again, so its section begins with something to read. -/
namespace MyosIo.Tty

open Function

/-- `TTY_READ_BUF_SIZE`. -/
def readBufSize : ℕ := 0x200000

/-- `TTY_READ_BUF_VISIBLE_THRESHOLD`. -/
def readBufVisibleThreshold : ℕ := readBufSize >>> 1

/-- `SSIZE_MAX`. -/
def ssizeMax : ℕ := 2 ^ 63 - 1

/-- `'\n'`. -/
def newline : UInt8 := 10

structure TTY where
  readBuf : ℕ → UInt8
  ii : ℕ
  oi : ℕ
  used : ℕ
  visible : ℕ

/-- `default_tty`. -/
def defaultTty : TTY := ⟨fun _ => 0, 0, 0, 0, 0⟩

/-- The variables of the loop that saves a batch. -/
structure Saving where
  readBuf : ℕ → UInt8
  ii : ℕ
  newVisible : ℕ

/-- One turn of the loop: `used` counts the bytes before `c[i] = b`. -/
def Saving.put (used : ℕ) (st : Saving) (b : UInt8) : Saving where
  readBuf := update st.readBuf st.ii b
  ii := (st.ii + 1) % readBufSize
  newVisible := if b = newline ∧ used + 1 > st.newVisible then used + 1 else st.newVisible

def saveLoop : ℕ → List UInt8 → Saving → Saving
  | _, [], st => st
  | used, b :: c, st => saveLoop (used + 1) c (st.put used b)

/-- What handling a batch does: the new buffer, what is echoed with `tty->write` or
`tty->writev`, and whether `read_cnd` is broadcast. -/
structure Handled where
  tty : TTY
  echo : List UInt8
  broadcast : Bool

/-- `"\b \b"`, once for every byte taken back. -/
def erasing (backNum : ℕ) : List UInt8 := (List.replicate backNum [8, 32, 8]).flatten

/-- The input index `backNum` bytes earlier. -/
def stepBack (ii backNum : ℕ) : ℕ :=
  if backNum ≠ 0 then
    if ii ≥ backNum then ii - backNum else readBufSize - (backNum - ii)
  else ii

/-- The block after the echo, where `backNum` is no more than what is pending. -/
def saveBatch (s : TTY) (backNum : ℕ) (c : List UInt8) : TTY × Bool :=
  let used := s.used - backNum
  let ii := stepBack s.ii backNum
  let saveNum := if c.length > readBufSize - used then readBufSize - used else c.length
  if saveNum ≠ 0 then
    let newVisible := if used + saveNum ≥ readBufVisibleThreshold then used + saveNum else 0
    let st := saveLoop used (c.take saveNum) ⟨s.readBuf, ii, newVisible⟩
    if st.newVisible > 0 then
      (⟨st.readBuf, st.ii, s.oi, used + saveNum, st.newVisible⟩, s.visible == 0)
    else (⟨st.readBuf, st.ii, s.oi, used + saveNum, s.visible⟩, false)
  else ({ s with ii := ii, used := used + saveNum }, false)

/-- `keyboard_thread` from `// handle c` on. -/
def handleBatch (s : TTY) (backNum : ℕ) (c : List UInt8) : Handled :=
  let backNum := if s.used - s.visible < backNum then s.used - s.visible else backNum
  if backNum = 0 ∧ c = [] then ⟨s, [], false⟩
  else
    let (tty, broadcast) := saveBatch s backNum c
    ⟨tty, erasing backNum ++ c, broadcast⟩

/-- The counters and the copy, the same text in `tty_read` and `tty_readv`. -/
def copyOut (s : TTY) (size : ℕ) : TTY × List UInt8 :=
  let visible := s.visible - size
  let used := s.used - size
  if s.oi < readBufSize - size then
    (⟨s.readBuf, s.ii, s.oi + size, used, visible⟩, slice s.readBuf s.oi size)
  else if s.oi = readBufSize - size then
    (⟨s.readBuf, s.ii, 0, used, visible⟩, slice s.readBuf s.oi size)
  else
    let tempSize := readBufSize - s.oi
    (⟨s.readBuf, s.ii, size - tempSize, used, visible⟩,
      slice s.readBuf s.oi tempSize ++ slice s.readBuf 0 (size - tempSize))

/-- `tty_read` once something is visible, with what it puts into the buffer and what it returns;
`none` is a failed assertion. -/
def ttyRead (s : TTY) (size : ℕ) : Option (TTY × List UInt8 × ℕ) :=
  if size = 0 then some (s, [], 0)
  else
    let size := if size > s.visible then s.visible else size
    if size ≤ ssizeMax then
      let (t, bytes) := copyOut s size
      some (t, bytes, size)
    else none

/-- The loop of `tty_readv`, with what it puts into each buffer and the last `ret`. -/
def readvLoop : TTY → ℕ → List ℕ → Option (TTY × List (List UInt8) × ℕ)
  | s, ret, [] => some (s, [], ret)
  | s, ret, len :: iov =>
    let size := if len > s.visible then s.visible else len
    if size ≤ ssizeMax - ret then
      let (t, chunk) := copyOut s size
      if t.visible = 0 then some (t, chunk :: List.replicate iov.length [], ret + size)
      else (readvLoop t (ret + size) iov).map fun (u, chunks, ret) => (u, chunk :: chunks, ret)
    else none

/-- What a `readv` call does: `EINVAL`, or the contents of the buffers. -/
inductive Readv
  | einval
  | done (chunks : List (List UInt8))

/-- `tty_readv`, with what it returns: empty buffers are skipped before the lock is taken. -/
def ttyReadv (s : TTY) (iov : List ℕ) (iovcnt : ℤ) : Option (TTY × Readv × ℤ) :=
  if iovcnt < 0 then some (s, .einval, -1)
  else
    let iov := iov.take iovcnt.toNat
    let skipped := (iov.takeWhile (· = 0)).map fun _ => []
    match iov.dropWhile (· = 0) with
    | [] => some (s, .done skipped, 0)
    | len :: iov =>
      (readvLoop s 0 (len :: iov)).map fun (t, chunks, ret) => (t, .done (skipped ++ chunks), ret)

/-- Whether a `readv` call returns without looking at the buffer. -/
def Immediate (iov : List ℕ) (iovcnt : ℤ) : Prop :=
  iovcnt < 0 ∨ ∀ len ∈ iov.take iovcnt.toNat, len = 0

/-- The calls, with what they do. -/
inductive Op
  | batch (backNum : ℕ) (c : List UInt8)
  | read (size : ℕ) (bytes : List UInt8)
  | readv (iov : List ℕ) (iovcnt : ℤ) (done : Readv)

inductive Step (s : TTY) : Op → TTY → Prop
  | batch (backNum : ℕ) (c : List UInt8) :
      Step s (.batch backNum c) (handleBatch s backNum c).tty
  | read {size ret : ℕ} {t : TTY} {bytes : List UInt8} (hw : size = 0 ∨ s.visible ≠ 0)
      (hr : ttyRead s size = some (t, bytes, ret)) : Step s (.read size bytes) t
  | readv {iov : List ℕ} {iovcnt ret : ℤ} {t : TTY} {done : Readv}
      (hw : Immediate iov iovcnt ∨ s.visible ≠ 0)
      (hr : ttyReadv s iov iovcnt = some (t, done, ret)) : Step s (.readv iov iovcnt done) t

end MyosIo.Tty
