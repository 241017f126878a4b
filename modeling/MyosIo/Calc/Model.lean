import MyosIo.Lib.Radix

/-! `Num_compare_jueduizhi`, `jian`, `jia`, `cheng`, `chu` and `calc_baoliu` with the loops they
share. A pointer into an array is the rest of the array from there on. An access outside an array,
an `int64_t` overflow in a word and a division by zero are a `fault`. -/
namespace MyosIo.Calc

/-- `WEI`. -/
def wei : ℕ := 6

/-- `A_E_B(1,WEI)`. -/
def base : ℤ := 1000000

/-- `FLOAT_WIDTH_MAX`. -/
def floatWidthMax : ℤ := 2 ^ 63 - 1

/-- `LEN_MAX`. -/
def lenMax : ℤ := 2 ^ 64 - 1

/-- `MALLOC_MAX`. -/
def mallocMax : ℤ := 2 ^ 64 - 1

/-- `sizeof(NUM_WIDTH)`. -/
def sizeofNumWidth : ℤ := 8

/-- Why a function does not return. -/
inductive Stop
  | exit (message : String)
  | fault
  deriving DecidableEq

abbrev Outcome := Except Stop

structure Num where
  num : List ℤ
  isNegative : Bool
  floatSegment : ℤ
  floatOffset : ℕ
  len : ℕ
  deriving DecidableEq

/-- A value an `int64_t` holds. -/
def i64 (x : ℤ) : Outcome ℤ :=
  if -2 ^ 63 ≤ x ∧ x < 2 ^ 63 then .ok x else .error .fault

/-- `a[i]`. -/
def read (a : List ℤ) (i : ℤ) : Outcome ℤ :=
  if 0 ≤ i then
    match a[i.toNat]? with
    | some w => .ok w
    | none => .error .fault
  else .error .fault

/-- The first `len` words of an array. -/
def readAll (a : List ℤ) (len : ℕ) : Outcome (List ℤ) :=
  if len ≤ a.length then .ok (a.take len) else .error .fault

/-- A function called with the pointer `a + off`. -/
def atOffset (off : ℤ) (f : List ℤ → Outcome (List ℤ)) (a : List ℤ) : Outcome (List ℤ) :=
  if 0 ≤ off ∧ off ≤ a.length then (f (a.drop off.toNat)).map (a.take off.toNat ++ ·)
  else .error .fault

/-- `memcpy(a, src, …)`. -/
def memcpy (src a : List ℤ) : Outcome (List ℤ) :=
  if src.length ≤ a.length then .ok (src ++ a.drop src.length) else .error .fault

/-- `calloc(n, sizeof(NUM_WIDTH))`: it fails when the product is no `size_t`. -/
def calloc (n : ℤ) : Option (List ℤ) :=
  if n * sizeofNumWidth ≤ mallocMax then some (List.replicate n.toNat 0) else none

/-- The loops that add `c` times the words of `src` to those at `a`. -/
def addScaled (c : ℤ) : List ℤ → List ℤ → Outcome (List ℤ)
  | [], a => .ok a
  | _ :: _, [] => .error .fault
  | x :: src, y :: a => do
    let p ← i64 (x * c)
    let z ← i64 (y + p)
    let a ← addScaled c src a
    .ok (z :: a)

/-- `x` is copied to `a + i` and then `c` times `y` added from `a + j` on. -/
def copyAndAdd (c : ℤ) (x y : List ℤ) (i j : ℤ) (a : List ℤ) : Outcome (List ℤ) := do
  let a ← atOffset i (memcpy x) a
  atOffset j (addScaled c y) a

def jinweiZhengxiang : ℕ → List ℤ → Outcome (List ℤ)
  | n + 2, x :: y :: a => do
    let y ← i64 (y + x.tdiv base)
    let a ← jinweiZhengxiang (n + 1) (y :: a)
    .ok (x.tmod base :: a)
  | _ + 2, _ => .error .fault
  | _, a => .ok a

def jinweiFanxiang : ℕ → List ℤ → Outcome (List ℤ)
  | n + 2, x :: y :: a =>
    if x < 0 then do
      let temp := (-x - 1).tdiv base + 1
      let p ← i64 (temp * base)
      let y ← i64 (y - temp)
      let a ← jinweiFanxiang (n + 1) (y :: a)
      .ok ((x + p) :: a)
    else do
      let a ← jinweiFanxiang (n + 1) (y :: a)
      .ok (x :: a)
  | _ + 2, _ => .error .fault
  | _, a => .ok a

/-- `numcmp`, from the word `n - 1` down. -/
def numcmp (a b : List ℤ) : ℕ → Outcome ℤ
  | 0 => .ok 0
  | n + 1 => do
    let x ← read a n
    let y ← read b n
    if n ≠ 0 ∧ x = y then numcmp a b n else .ok (x - y)

/-- `Num_compare_jueduizhi`: the sums are unsigned. -/
def numCompareJueduizhi (a b : Num) : Outcome ℤ :=
  if (a.floatSegment + a.len) % 2 ^ 64 > (b.floatSegment + b.len) % 2 ^ 64 then .ok 1
  else if (a.floatSegment + a.len) % 2 ^ 64 < (b.floatSegment + b.len) % 2 ^ 64 then .ok (-1)
  else if a.len > b.len then .ok 1
  else if a.len < b.len then .ok (-1)
  else do
    let temp ← numcmp a.num b.num a.len
    if temp < 0 then .ok (-1) else .ok (if temp ≠ 0 then 1 else 0)

/-- `max` in `jian` and `jia`. -/
def topOf (a b : Num) : ℤ :=
  if a.floatSegment + a.len > b.floatSegment + b.len then a.floatSegment + a.len
  else b.floatSegment + b.len

/-- `min` in `jian` and `jia`. -/
def bottomOf (a b : Num) : ℤ :=
  if a.floatSegment < b.floatSegment then a.floatSegment else b.floatSegment

/-- The checks `jian` and `jia` begin with, and the words they allocate. -/
def allocate (a b : Num) (message : String) : Outcome (List ℤ) :=
  if a.floatSegment + a.len > floatWidthMax ∨ b.floatSegment + b.len > floatWidthMax then
    .error (.exit "Excessive number of digits!\n")
  else if topOf a b - bottomOf a b + 1 > mallocMax then
    .error (.exit "Excessive number of digits, can't malloc\n")
  else
    match calloc (topOf a b - bottomOf a b + 1) with
    | none => .error (.exit message)
    | some result => .ok result

/-- The loop that looks for the highest word, from the index `i` down. -/
def resultMax (result : List ℤ) : ℕ → Outcome ℕ
  | 0 => .ok 0
  | i + 1 => do
    let w ← read result (i + 1)
    if w = 0 then resultMax result i else .ok (i + 1)

def jian (a b result : Num) : Outcome Num := do
  let max := topOf a b
  let min := bottomOf a b
  let words ← allocate a b "malloc failed!\n"
  if a.len > mallocMax / sizeofNumWidth then
    .error (.exit "Excessive number of digits, can't malloc\n")
  else
    let aNum ← readAll a.num a.len
    let bNum ← readAll b.num b.len
    let words ← copyAndAdd (-1) aNum bNum (a.floatSegment - min) (b.floatSegment - min) words
    let words ← atOffset (b.floatSegment - min)
      (jinweiFanxiang (max - b.floatSegment + 1).toNat) words
    let i ← resultMax words (max - min).toNat
    let w ← read words i
    if i = 0 ∧ w = 0 then
      .ok { result with num := words, floatSegment := min, isNegative := false, len := i }
    else .ok { result with num := words, floatSegment := min, len := i + 1 }

def jia (a b result : Num) : Outcome Num := do
  let max := topOf a b
  let min := bottomOf a b
  let words ← allocate a b "Out of memory!\n"
  let aNum ← readAll a.num a.len
  let bNum ← readAll b.num b.len
  let words ← (if a.len ≥ b.len then
      copyAndAdd 1 aNum bNum (a.floatSegment - min) (b.floatSegment - min) words
    else copyAndAdd 1 bNum aNum (b.floatSegment - min) (a.floatSegment - min) words)
  let minMax := if a.floatSegment > min then a.floatSegment else b.floatSegment
  let words ← atOffset (minMax - min) (jinweiZhengxiang (max - minMax + 1).toNat) words
  let w ← read words (max - min).toNat
  if w = 0 then .ok { result with num := words, floatSegment := min, len := (max - min).toNat }
  else .ok { result with num := words, floatSegment := min, len := (max - min + 1).toNat }

/-- The loop over the words of `chengshu`; `pos` and `mark` are where `temp_result` and
`mark_result` point. -/
def chengLoop (beichengshu : List ℤ) : List ℤ → List ℤ → ℕ → ℕ → ℕ → Outcome (List ℤ × ℕ × ℕ)
  | [], result, _, mark, jishu => .ok (result, mark, jishu)
  | c :: chengshu, result, pos, mark, jishu => do
    let result ← atOffset pos (addScaled c beichengshu) result
    if jishu ≠ 0 then chengLoop beichengshu chengshu result (pos + 1) mark (jishu - 1)
    else
      let result ← atOffset mark
        (jinweiZhengxiang (beichengshu.length + base.toNat)) result
      chengLoop beichengshu chengshu result (pos + 1) (pos + 1) (base.toNat - 1)

def cheng (a b result : Num) : Outcome Num := do
  if a.len = 0 ∨ b.len = 0 then .ok { result with len := 0, isNegative := false }
  else if (a.len : ℤ) + b.len > lenMax then
    .error (.exit "The result excessives number of digits\n")
  else if (a.len : ℤ) + b.len > mallocMax / sizeofNumWidth then
    .error (.exit "The result excessives number of digits, can't malloc\n")
  else
    match calloc (a.len + b.len) with
    | none => .error (.exit "Out of memory!")
    | some words =>
      let floatSegment ← i64 (a.floatSegment + b.floatSegment)
      let floatOffset := a.floatOffset + b.floatOffset
      let (floatSegment, floatOffset) ←
        if floatOffset ≥ wei then do
          let floatSegment ← i64 (floatSegment + 1)
          pure (floatSegment, floatOffset - wei)
        else pure (floatSegment, floatOffset)
      if (a.len : ℤ) + base > lenMax then .error (.exit "Excessive number of digits!\n")
      else
        let beichengshu ← readAll a.num a.len
        let chengshu ← readAll b.num b.len
        let (words, mark, jishu) ← chengLoop beichengshu chengshu words 0 0 (base.toNat - 1)
        let words ← atOffset mark
          (jinweiZhengxiang (a.len + base.toNat - 1 - jishu)) words
        let w ← read words (mark + (a.len + base - 2 - jishu))
        let len := if w = 0 then a.len + b.len - 1 else a.len + b.len
        .ok ⟨words, a.isNegative ^^ b.isNegative, floatSegment, floatOffset, len⟩

/-- `x / y`. -/
def divide (x y : ℤ) : Outcome ℤ := if y = 0 then .error .fault else i64 (x.tdiv y)

/-- `hi * A_E_B(1,WEI) + lo`. -/
def twoWords (hi lo : ℤ) : Outcome ℤ := do
  let x ← i64 (hi * base)
  i64 (x + lo)

/-- `hi * A_E_B(1,WEI) * A_E_B(1,WEI) + mid * A_E_B(1,WEI) + lo`. -/
def threeWords (hi mid lo : ℤ) : Outcome ℤ := do
  let x ← i64 (hi * base * base)
  let y ← i64 (mid * base)
  let z ← i64 (x + y)
  i64 (z + lo)

/-- The loop that multiplies the copy of the divisor. -/
def scale (q : ℤ) : List ℤ → Outcome (List ℤ)
  | [] => .ok []
  | x :: a => do
    let y ← i64 (x * q)
    let a ← scale q a
    .ok (y :: a)

/-- The `if` around a quotient digit: `copy` is `temp_chushu` before it is multiplied, `off` where
the words it is compared with begin. -/
def correct (low q : ℤ) (chushu top : List ℤ) (off : ℤ) (beichushu : List ℤ) : Outcome ℤ :=
  if low ≠ q then do
    let product ← scale q chushu
    let product ← jinweiZhengxiang (chushu.length + top.length) (product ++ top)
    if 0 ≤ off then
      let temp ← numcmp product (beichushu.drop off.toNat) (chushu.length + top.length)
      if temp > 0 then i64 (q - 1) else .ok q
    else .error .fault
  else .ok q

/-- The first digit where it is not simply 1; `high` is where `beichushu_high` points. -/
def firstDigit (chushu beichushu : List ℤ) (high : ℤ) : Outcome ℤ := do
  let len : ℤ := chushu.length
  let x ← read beichushu high
  if chushu.length = 1 then
    let c ← read chushu 0
    divide x c
  else if chushu.length = 2 then
    let chushu1 ← twoWords (← read chushu 1) (← read chushu 0)
    let temp1 ← twoWords x (← read beichushu (high - 1))
    divide temp1 chushu1
  else
    let temp1 ← threeWords x (← read beichushu (high - 1)) (← read beichushu (high - 2))
    let zuigaoliangwei ← twoWords (← read chushu (len - 1)) (← read chushu (len - 2))
    let temp2 ← twoWords zuigaoliangwei (← read chushu (len - 3))
    if chushu.length = 3 then divide temp1 temp2
    else
      let low ← divide temp1 (temp2 + 1)
      let q ← divide (temp1 + 1) temp2
      correct low q chushu [] (high - len + 1) beichushu

/-- A digit after the first. -/
def nextDigit (chushu beichushu : List ℤ) (high : ℤ) : Outcome ℤ := do
  let len : ℤ := chushu.length
  let x ← read beichushu high
  let y ← read beichushu (high - 1)
  if chushu.length = 1 then
    let temp ← twoWords x y
    divide temp (← read chushu 0)
  else
    let temp1 ← threeWords x y (← read beichushu (high - 2))
    let zuigaoliangwei ← twoWords (← read chushu (len - 1)) (← read chushu (len - 2))
    if chushu.length = 2 then divide temp1 zuigaoliangwei
    else
      let low ← divide temp1 (zuigaoliangwei + 1)
      let q ← divide (temp1 + 1) zuigaoliangwei
      correct low q chushu [0] (high - len) beichushu

/-- `q` times the divisor is taken off the dividend from `off` on, and the borrows are passed on
through `n` words. -/
def takeOff (q : ℤ) (chushu : List ℤ) (off : ℤ) (n : ℕ) (beichushu : List ℤ) :
    Outcome (List ℤ) := do
  let beichushu ← atOffset off (addScaled (-q) chushu) beichushu
  atOffset off (jinweiFanxiang n) beichushu

/-- The digits after the first, the highest first; `m` of them are left. -/
def chuLoop (chushu : List ℤ) : ℕ → ℤ → List ℤ → Outcome (List ℤ)
  | 0, _, _ => .ok []
  | m + 1, high, beichushu => do
    let q ← nextDigit chushu beichushu high
    let beichushu ← takeOff q chushu (high - chushu.length) (chushu.length + 1) beichushu
    let qs ← chuLoop chushu m (high - 1) beichushu
    .ok (q :: qs)

/-- All the digits; `flag` says how the first one is found. -/
def chuDigits (chushu : List ℤ) (cishu flag : ℕ) (beichushu : List ℤ) : Outcome (List ℤ) := do
  let high : ℤ := beichushu.length - 1
  if flag = 0 then chuLoop chushu cishu high beichushu
  else
    let off := high - chushu.length + 1
    if flag = 2 then
      let beichushu ← atOffset off (memcpy (List.replicate chushu.length 0)) beichushu
      let qs ← chuLoop chushu (cishu - 1) high beichushu
      .ok (1 :: qs)
    else
      let q ← firstDigit chushu beichushu high
      let beichushu ← takeOff q chushu off chushu.length beichushu
      let qs ← chuLoop chushu (cishu - 1) high beichushu
      .ok (q :: qs)

/-- The `flag` that says whether the highest words of the dividend hold the divisor: 0 if they do
not, 2 if they are equal. -/
def chuFlag (a b : Num) : Outcome ℕ :=
  if b.len > a.len then do
    let temp ← numcmp (b.num.drop (b.len - a.len)) a.num a.len
    .ok (if temp ≥ 0 then 0 else 1)
  else do
    let temp ← numcmp b.num (a.num.drop (a.len - b.len)) b.len
    .ok (if temp > 0 then 0 else if temp = 0 then 2 else 1)

/-- The working copy of the dividend. -/
def chuCopy (a : Num) (len : ℕ) : Outcome (List ℤ) :=
  if len > a.len then do
    let words ← readAll a.num a.len
    .ok (List.replicate (len - a.len) 0 ++ words)
  else readAll a.num len

/-- `chu`; a `malloc` of a size that passed its check succeeds. -/
def chu (a b : Num) (baoliu : ℕ) (result : Num) : Outcome Num := do
  if a.len = 0 ∨ b.len = 0 then .ok { result with len := 0, isNegative := b.len = 0 }
  else
    let cishu := (baoliu - 1) / wei + 2
    if cishu > mallocMax / sizeofNumWidth then
      .error (.exit "Excessive number of digits, can't malloc\n")
    else if (b.len : ℤ) + cishu > lenMax then
      .error (.exit "The result excessives number of digits\n")
    else
      let flag ← chuFlag a b
      let lenBeichushu := if flag = 0 then b.len + cishu else b.len + cishu - 1
      if lenBeichushu > mallocMax / sizeofNumWidth then
        .error (.exit "The result excessives number of digits\n")
      else
        let beichushu ← chuCopy a lenBeichushu
        let floatSegment := Int.bmod (a.len - b.len + a.floatSegment - b.floatSegment - cishu +
          (if flag = 0 then 0 else 1)) (2 ^ 64)
        let (floatSegment, floatOffset) ←
          if a.floatOffset ≥ b.floatOffset then
            pure (floatSegment, a.floatOffset - b.floatOffset)
          else do
            let floatSegment ← i64 (floatSegment - 1)
            pure (floatSegment, a.floatOffset + wei - b.floatOffset)
        let chushu ← readAll b.num b.len
        if b.len ≥ 3 ∧ b.len > mallocMax / sizeofNumWidth - 1 then
          .error (.exit "The result excessives number of digits, can't malloc\n")
        else
          let qs ← chuDigits chushu cishu flag beichushu
          .ok ⟨qs.reverse, a.isNegative ^^ b.isNegative, floatSegment, floatOffset, cishu⟩

/-- What `calc_baoliu` does for `+` and `-`. -/
inductive Plan
  | jia (isNegative : Bool)
  | jian (isNegative swapped : Bool)
  | zero
  deriving DecidableEq

def plan (fuhao : ℕ) (a b : Num) : Outcome Plan := do
  let tempFuhao := (fuhao == 1) ^^ b.isNegative
  if a.isNegative = tempFuhao then .ok (.jia a.isNegative)
  else
    let temp ← numCompareJueduizhi a b
    if temp > 0 then .ok (.jian a.isNegative false)
    else if temp < 0 then .ok (.jian tempFuhao true)
    else .ok .zero

def calcBaoliu (fuhao : ℕ) (a b result : Num) (baoliu : ℕ) : Outcome Num :=
  if fuhao = 3 then chu a b baoliu result
  else if fuhao = 2 then cheng a b result
  else if fuhao = 1 ∨ fuhao = 0 then do
    let result := { result with floatOffset := 0 }
    match ← plan fuhao a b with
    | .jia isNegative => jia a b { result with isNegative := isNegative }
    | .jian isNegative false => jian a b { result with isNegative := isNegative }
    | .jian isNegative true => jian b a { result with isNegative := isNegative }
    | .zero => .ok { result with len := 0, isNegative := false }
  else .ok result

end MyosIo.Calc
