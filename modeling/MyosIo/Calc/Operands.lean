import MyosIo.Calc.Pack
import MyosIo.Calc.Scan

/-! What `scan` makes of the lines at the two prompts. -/
namespace MyosIo.Calc

variable {l s rest : List Char} {ls : List (List Char)} {x n fuhao : ℕ} {ab : Num × Num}
  {minus plus other : Num × Num → Num × Num} {a b : Num}

/-- Lines as they are typed. -/
def entered (ls : List (List Char)) : List Char := ls.flatMap (· ++ ['\n'])

/-- A line without its sign. -/
def body : List Char → List Char
  | [] => []
  | c :: l => if c = '-' ∨ c = '+' then l else c :: l

/-- The part of a line that is read. -/
def taken (x : ℕ) (l : List Char) : List Char := ((body l).takeWhile inSet).take (x + 1)

/-- A sign, perhaps, and a numeral within the announced width. -/
def WellFormed (x : ℕ) (l : List Char) : Prop := check (body l) = true ∧ (body l).length ≤ x + 1

/-- What a line does to the signs. -/
def mark (minus plus other : Num × Num → Num × Num) (ab : Num × Num) (l : List Char) : Num × Num :=
  if l.head? = some '-' then minus ab else if l.head? = some '+' then plus ab else other ab

/-- The number a line stands for by itself. -/
def own (fuhao : ℕ) (l : List Char) : Outcome Num :=
  stringToNum (body l) ⟨[], l.head? = some '-', 0, 0, 0⟩ fuhao

end MyosIo.Calc
