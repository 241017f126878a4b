import MyosIo.Calc.Text

/-! `scan` over the characters typed. `none` is a `scan` that still waits for input. -/
namespace MyosIo.Calc

def getchar : List Char → Option (Char × List Char)
  | [] => none
  | c :: input => some (c, input)

def xi : List Char → Option (List Char)
  | [] => none
  | c :: input => if c ≠ '\n' then xi input else some input

/-- `isspace`. -/
def isspace (c : Char) : Bool :=
  c = ' ' ∨ c = '\t' ∨ c = '\n' ∨ c = '\x0b' ∨ c = '\x0c' ∨ c = '\r'

/-- `scanf("%llu",…)`: the number if it returns 1. -/
def scanfLlu (input : List Char) : Option (Option ℕ × List Char) := do
  let (c, _) ← getchar (input.dropWhile isspace)
  let digits := if c = '+' ∨ c = '-' then (input.dropWhile isspace).tail
    else input.dropWhile isspace
  let (d, _) ← getchar digits
  if d.isDigit then
    let _ ← getchar (digits.dropWhile Char.isDigit)
    let y := decimal (digits.takeWhile Char.isDigit)
    let value := if y ≥ 2 ^ 64 then 2 ^ 64 - 1 else if c = '-' then (2 ^ 64 - y) % 2 ^ 64 else y
    some (some value, digits.dropWhile Char.isDigit)
  else some (none, digits)

/-- The characters `%[0-9.]` reads. -/
def inSet (c : Char) : Bool := c.isDigit || c = '.'

/-- `scanf(temp_for_scanf,temp_num)`: it returns 1 if it reads a character. -/
def scanfSet : ℕ → List Char → Option (List Char × List Char)
  | 0, input => some ([], input)
  | _ + 1, [] => none
  | width + 1, c :: input =>
    if inSet c then (scanfSet width input).map fun (tempNum, input) => (c :: tempNum, input)
    else some ([], c :: input)

/-- The operator; `n` bounds the turns of the loop. -/
def scanOperator : ℕ → List Char → Option (ℕ × List Char)
  | 0, _ => none
  | n + 1, input => do
    let (fuhao, input) ← getchar input
    if fuhao = '\n' then scanOperator n input
    else
      let (c, input) ← getchar input
      if c ≠ '\n' then scanOperator n (← xi input)
      else if fuhao = '+' then some (0, input)
      else if fuhao = '-' then some (1, input)
      else if fuhao = '*' then some (2, input)
      else if fuhao = '/' then some (3, input)
      else scanOperator n input

/-- `baoliu`, which must not be 0, and `x`. -/
def scanNumber (zero : Bool) : ℕ → List Char → Option (ℕ × List Char)
  | 0, _ => none
  | n + 1, input => do
    let (value, input) ← scanfLlu input
    match value with
    | none => scanNumber zero n (← xi input)
    | some value =>
      let (c, input) ← getchar input
      if c ≠ '\n' then scanNumber zero n (← xi input)
      else if value = 0 ∧ ¬zero then scanNumber zero n input
      else some (value, input)

/-- The part of `scan` before the operands: `fuhao`, `baoliu` and `x`. -/
def scanHead (malloc : ℕ → Bool) (baoliu : ℕ) (input : List Char) :
    Option (Outcome (ℕ × ℕ × ℕ) × List Char) := do
  let (fuhao, input) ← scanOperator input.length input
  let (baoliu, input) ←
    if fuhao = 3 then scanNumber false input.length input else some (baoliu, input)
  let (x, input) ← scanNumber true input.length input
  if (x : ℤ) > mallocMax - 2 then
    some (.error (.exit "Excessive number of digits, can't malloc\n"), input)
  else if ¬malloc (x + 2) then some (.error (.exit "Out of memory!\n"), input)
  else some (.ok (fuhao, baoliu, x), input)

/-- The loop around a prompt for an operand. `minus`, `plus` and `other` are what it does to the
numbers for the first character of a line. -/
def scanOperand (minus plus other : Num × Num → Num × Num) (x : ℕ) :
    ℕ → Num × Num → List Char → Option (List Char × (Num × Num) × List Char)
  | 0, _, _ => none
  | n + 1, ab, input => do
    let (temp, rest) ← getchar input
    let (ab, input) :=
      if temp = '-' then (minus ab, rest)
      else if temp = '+' then (plus ab, rest)
      else (other ab, input)
    let (tempNum, input) ← scanfSet (x + 1) input
    let input ← xi input
    if tempNum ≠ [] ∧ check tempNum then some (tempNum, ab, input)
    else scanOperand minus plus other x n ab input

/-- `a->is_negative=…` and `b->is_negative=…`. -/
def setA (v : Bool) (ab : Num × Num) : Num × Num := ({ ab.1 with isNegative := v }, ab.2)

def setB (v : Bool) (ab : Num × Num) : Num × Num := (ab.1, { ab.2 with isNegative := v })

def scanFirst : ℕ → ℕ → Num × Num → List Char → Option (List Char × (Num × Num) × List Char) :=
  scanOperand (setA true) (setA false) (setA false)

/-- A `+` sets the sign of `a` here too. -/
def scanSecond : ℕ → ℕ → Num × Num → List Char → Option (List Char × (Num × Num) × List Char) :=
  scanOperand (setB true) (setA false) (setB false)

/-- The part of `scan` that reads the operands. -/
def scanOperands (fuhao x : ℕ) (a b : Num) (input : List Char) :
    Option (Outcome (Num × Num) × List Char) := do
  let (tempNum, (a, b), input) ← scanFirst x input.length (a, b) input
  match stringToNum tempNum a fuhao with
  | .error stop => some (.error stop, input)
  | .ok a =>
    let (tempNum, (a, b), input) ← scanSecond x input.length (a, b) input
    some ((stringToNum tempNum b fuhao).map fun b => (a, b), input)

def scan (malloc : ℕ → Bool) (a b : Num) (baoliu : ℕ) (input : List Char) :
    Option (Outcome (Num × Num × ℕ × ℕ) × List Char) := do
  let (head, input) ← scanHead malloc baoliu input
  match head with
  | .error stop => some (.error stop, input)
  | .ok (fuhao, baoliu, x) =>
    let (ab, input) ← scanOperands fuhao x a b input
    some (ab.map fun (a, b) => (a, b, fuhao, baoliu), input)

end MyosIo.Calc
