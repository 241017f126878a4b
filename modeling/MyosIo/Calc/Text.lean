import Mathlib.Data.List.DropRight
import MyosIo.Calc.Model

/-! `check`, `string_to_Num` and `print` over lists of characters. -/
namespace MyosIo.Calc

/-- The number a sequence of digits denotes. -/
def decimal (cs : List Char) : ℕ := Nat.ofDigitChars 10 cs 0

/-- The loop of `check`; `c>'9'||c<'0'` says that `c` is no digit. -/
def checkLoop : ℕ → List Char → Bool
  | _, [] => true
  | numOfPoint, c :: a =>
    if ¬c.isDigit then
      if c = '.' then
        if numOfPoint + 1 > 1 then false else checkLoop (numOfPoint + 1) a
      else false
    else checkLoop numOfPoint a

def check (a : List Char) : Bool :=
  if a.length ≤ 0 then false
  else if a.getLast?.all fun c => !c.isDigit then false
  else if a.head?.all fun c => !c.isDigit then false
  else checkLoop 0 ((a.drop 1).take (a.length - 2))

/-- `sscanf(s, "%<width>lld", num)` for a string of digits and points; `*num` was 0. -/
def sscanf (width : ℕ) (s : List Char) : ℤ :=
  decimal ((s.take width).takeWhile Char.isDigit)

/-- `while(string[len-1]=='0')`. -/
def stripZeros (string : List Char) : ℕ → ℤ → Outcome (ℕ × ℤ)
  | 0, _ => .error .fault
  | len + 1, float =>
    match string[len]? with
    | none => .error .fault
    | some c => if c = '0' then stripZeros string len (float + 1) else .ok (len + 1, float)

/-- `string`, `len` and `float_`. -/
structure Scanned where
  string : List Char
  len : ℕ
  float : ℤ

/-- The loop that looks for the point between two digits and closes the gap. -/
def Scanned.dropPoint (s : Scanned) : Scanned :=
  match (List.range' 1 (s.len - 2)).find? fun i => s.string[i]? = some '.' with
  | some i =>
    let len := s.len - 1
    ⟨s.string.take i ++ (s.string.drop (i + 1)).take (len - i) ++ s.string.drop len, len,
      i - len⟩
  | none => s

/-- The first half of `string_to_Num` after the leading zeros; `none` is `label1`. -/
def scannedFrom (string : List Char) : Outcome (Option Scanned) := do
  let len := string.length
  if len = 0 then .ok none
  else
    let (len, float) ← stripZeros string len 0
    let s ← (if string.head? = some '.' then
        .ok ⟨string.tail, len - 1, -((len - 1 : ℕ) : ℤ)⟩
      else if string[len - 1]? = some '.' then
        (stripZeros string (len - 1) 0).map fun (len, float) => ⟨string, len, float⟩
      else .ok (Scanned.dropPoint ⟨string, len, float⟩))
    .ok (if s.len = 0 then none else some s)

def scanned (string : List Char) : Outcome (Option Scanned) :=
  scannedFrom (string.dropWhile (· = '0'))

/-- `while(len/WEI!=0)`: the words in the order they are read, and what is left. -/
def scanWords : ℕ → List Char → List ℤ × List Char
  | 0, string => ([], string)
  | k + 1, string =>
    let (words, rest) := scanWords k (string.drop wei)
    (sscanf wei string :: words, rest)

/-- The words from `string` on, the last one filled up with zeros, and `float_`. -/
def restWords (s : Scanned) : List ℤ × ℤ :=
  let (words, rest) := scanWords (s.len / wei) s.string
  let len := s.len % wei
  if len ≠ 0 then
    (words ++ [sscanf wei (rest.take len ++ List.replicate (wei - len) '0')],
      s.float - (wei - len : ℕ))
  else (words, s.float)

/-- The end of `string_to_Num`: `first` is read already, and `len` words were allocated. -/
def wordsNum (first : List ℤ) (s : Scanned) (len : ℕ) (a : Num) : Outcome Num :=
  let (words, float) := restWords s
  let (offset, segment) : ℤ × ℤ :=
    if float.tmod wei ≠ 0 then
      if float.tmod wei < 0 then (wei + float.tmod wei, float.tdiv wei - 1)
      else (float.tmod wei, float.tdiv wei)
    else (0, float.tdiv wei)
  if (first ++ words).length = len then
    .ok ⟨(first ++ words).reverse, a.isNegative, segment, offset.toNat, len⟩
  else .error .fault

/-- `string_to_Num`. The sum that `temp` is the remainder of is unsigned and never wraps around:
the length of a string is a `size_t`. -/
def stringToNum (string : List Char) (a : Num) (fuhao : ℕ) : Outcome Num := do
  match ← scanned string with
  | none => .ok ⟨[], false, 0, 0, 0⟩
  | some s =>
    let temp := ((s.len + s.float) % wei).toNat
    if fuhao ≤ 1 ∧ temp ≠ 0 then
      if temp ≥ s.len then
        let word := sscanf temp (s.string.take s.len ++ List.replicate (temp - s.len) '0')
        let segment := if s.float ≥ 0 then 0 else (s.float - temp + s.len) / wei
        .ok ⟨[word], a.isNegative, segment, 0, 1⟩
      else
        let len := if (s.len - temp) % wei = 0 then (s.len - temp) / wei + 1
          else (s.len - temp) / wei + 2
        wordsNum [sscanf temp s.string] ⟨s.string.drop temp, s.len - temp, s.float⟩ len a
    else
      wordsNum [] s (if s.len % wei = 0 then s.len / wei else s.len / wei + 1) a

/-- `%lld`. -/
def lld (w : ℤ) : List Char :=
  if w < 0 then '-' :: Nat.toDigits 10 (-w).toNat else Nat.toDigits 10 w.toNat

/-- `%.6lld`. -/
def lld6 (w : ℤ) : List Char :=
  let digits := Nat.toDigits 10 w.natAbs
  (if w < 0 then ['-'] else []) ++ (List.replicate (wei - digits.length) '0' ++ digits)

/-- `sprintf` into `temp[WEI+1]`. -/
def sprintf (s : List Char) : Outcome (List Char) :=
  if s.length ≤ wei then .ok s else .error .fault

/-- The loops that print `n` words with `%.6lld`, from the word `lo + n - 1` down. -/
def printWords (num : List ℤ) (lo : ℕ) : ℕ → Outcome (List Char)
  | 0 => .ok []
  | n + 1 => do
    let w ← read num ((lo : ℤ) + n)
    let rest ← printWords num lo n
    .ok (lld6 w ++ rest)

/-- The digits of a number with its point in or before them; `segment` is `-a->float_segment`. -/
def printPoint (a : Num) (segment : ℕ) : Outcome (List Char) := do
  if segment > a.len ∨ segment = a.len ∧ a.floatOffset = 0 then
    let zeros := (((segment : ℤ) - a.len) * wei - a.floatOffset) % 2 ^ 64
    let words ← printWords a.num 0 a.len
    .ok ('0' :: '.' :: (List.replicate zeros.toNat '0' ++ words))
  else
    let top ← read a.num ((a.len : ℤ) - 1)
    if segment = a.len then
      let temp ← sprintf (lld top)
      let words ← printWords a.num 0 (a.len - 1)
      if temp.length ≤ wei - a.floatOffset then
        .ok ('0' :: '.' ::
          (List.replicate (wei - a.floatOffset - temp.length) '0' ++ temp ++ words))
      else
        -- the source's unsigned difference goes below zero before the offset is added
        let cut := temp.length + a.floatOffset - wei
        .ok (temp.take cut ++ '.' :: (temp.drop cut ++ words))
    else
      let high ← printWords a.num segment (a.len - 1 - segment)
      let split ← read a.num ((segment : ℤ) - 1)
      let temp ← sprintf (lld6 split)
      let low ← printWords a.num 0 (segment - 1)
      .ok (lld top ++ high ++ temp.take a.floatOffset ++ '.' :: (temp.drop a.floatOffset ++ low))

/-- What `print` writes. -/
def print (a : Num) : Outcome (List Char) := do
  if a.len = 0 ∧ a.isNegative then
    if a.isNegative then .error (.exit "error\n") else .ok ['0']
  else
    let sign := if a.isNegative then ['-'] else []
    let text ← (if a.floatSegment < 0 then do
        let segment ← i64 (-a.floatSegment)
        printPoint a segment.toNat
      else do
        let top ← read a.num ((a.len : ℤ) - 1)
        let words ← printWords a.num 0 (a.len - 1)
        .ok (lld top ++ words ++ List.replicate (a.floatSegment.toNat * wei) '0' ++
          List.replicate a.floatOffset '0'))
    .ok (sign ++ text)

end MyosIo.Calc
