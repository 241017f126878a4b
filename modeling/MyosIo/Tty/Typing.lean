import MyosIo.Keyboard.Model
import MyosIo.Tty.Line

/-! `keyboard_thread`'s translation of a batch of key codes into backspaces and characters, and
the question whether it matters how the codes were cut into batches. -/
namespace MyosIo.Tty

open Function
open Keyboard (Code threadBufSize)

def back : ℕ := 72
def cap : ℕ := 77
def enter : ℕ := 80
def leftShift : ℕ := 81
def rightShift : ℕ := 85

/-- One of the four tables: letters, function keys, the digits, the keypad's digits,
`ESC` to `PAGE_DOWN`, and then the other keys up to `__DOT`; `marks` are the characters of
`` ` - = [ ] \ ; ' , . / ``. -/
def asciiTable (letters digits marks : List UInt8) : List UInt8 :=
  [0] ++ letters ++ List.replicate 12 0 ++ digits ++ [49, 50, 51, 52, 53, 54, 55, 56, 57, 48] ++
    List.replicate 10 0 ++ marks.take 3 ++ [0, 9] ++ (marks.drop 3).take 3 ++ [0] ++
    (marks.drop 6).take 2 ++ [newline, 0] ++ marks.drop 8 ++ [0, 0, 0, 32, 0, 0] ++
    List.replicate 4 0 ++ [0, 47, 42, 45, 43, newline, 46]

def lower : List UInt8 := (List.range 26).map fun i => UInt8.ofNat (97 + i)
def upper : List UInt8 := (List.range 26).map fun i => UInt8.ofNat (65 + i)

def digits : List UInt8 := [49, 50, 51, 52, 53, 54, 55, 56, 57, 48]
def shiftedDigits : List UInt8 := [33, 64, 35, 36, 37, 94, 38, 42, 40, 41]
def marks : List UInt8 := [96, 45, 61, 91, 93, 92, 59, 39, 44, 46, 47]
def shiftedMarks : List UInt8 := [126, 95, 43, 123, 125, 124, 58, 34, 60, 62, 63]

def toAscii : List UInt8 := asciiTable lower digits marks
def toAsciiShift : List UInt8 := asciiTable upper shiftedDigits shiftedMarks
def toAsciiCap : List UInt8 := asciiTable upper digits marks
def toAsciiCapShift : List UInt8 := asciiTable lower shiftedDigits shiftedMarks

/-- `keymap` and `is_cap`. -/
structure Keys where
  keymap : ℕ → Bool
  isCap : Bool

/-- What one key code comes to. -/
inductive Press
  | nothing
  | back
  | char (b : UInt8)
  deriving DecidableEq

/-- The body of the translating loop, up to what it does with the character. -/
def Keys.turn (k : Keys) (code : Code) : Keys × Press :=
  let key := (code >>> 1).toNat
  let isPress := code &&& 1 == 1
  let isCap := if key = cap ∧ isPress ∧ ¬k.keymap cap then !k.isCap else k.isCap
  let keymap := update k.keymap key isPress
  let shift := keymap leftShift || keymap rightShift
  let tempC :=
    if isCap && shift then toAsciiCapShift.getD key 0
    else if !isCap && shift then toAsciiShift.getD key 0
    else if isCap && !shift then toAsciiCap.getD key 0
    else toAscii.getD key 0
  (⟨keymap, isCap⟩,
    if !isPress then .nothing
    else if key = back then .back
    else if tempC ≠ 0 then .char tempC
    else .nothing)

/-- `back_num` backspaces and then the string `c`. -/
structure Batch where
  backNum : ℕ
  c : List UInt8

def Batch.add (p : Batch) : Press → Batch
  | .nothing => p
  | .back =>
    if p.c.length > 0 then { p with c := p.c.dropLast } else { p with backNum := p.backNum + 1 }
  | .char b => { p with c := p.c ++ [b] }

/-- The translating loop. -/
def translate : Keys → Batch → List Code → Keys × Batch
  | k, p, [] => (k, p)
  | k, p, code :: codes => translate (k.turn code).1 (p.add (k.turn code).2) codes

/-- What `keyboard_thread` keeps between two batches. -/
structure Typing where
  keys : Keys
  tty : TTY

/-- One turn of `keyboard_thread`'s loop with the key codes it drained. -/
def Typing.handle (t : Typing) (codes : List Code) : Typing :=
  let (keys, p) := translate t.keys ⟨0, []⟩ codes
  ⟨keys, (handleBatch t.tty p.backNum p.c).tty⟩

/-- Batch after batch, with no read in between. -/
def Typing.handleAll (t : Typing) (cut : List (List Code)) : Typing := cut.foldl Typing.handle t

/-- A way to drain `codes`. -/
structure Cut (codes : List Code) (cut : List (List Code)) : Prop where
  flatten : cut.flatten = codes
  batch : ∀ b ∈ cut, b ≠ [] ∧ b.length ≤ threadBufSize

/-- The same readable bytes and the same pending ones. -/
def Alike (s t : TTY) : Prop := ∃ l, Related l s ∧ Related l t

end MyosIo.Tty
