import Mathlib.Data.List.Basic

/-! A search that remembers the first hit and gives up at the second. -/
namespace MyosIo

variable {α : Type} {p : α → Bool} {xs : List α} {a : α}

/-- What a search has found so far. -/
inductive Only (α : Type)
  | none
  | one (a : α)
  | several
  deriving DecidableEq

namespace Only

/-- One more hit. -/
def add (a : α) : Only α → Only α
  | .none => .one a
  | _ => .several

/-- The search stops at the second hit. -/
def search (p : α → Bool) : Only α → List α → Only α
  | found, [] => found
  | found, x :: xs =>
    if p x then
      match found.add x with
      | .several => .several
      | found => search p found xs
    else search p found xs

/-- What there is to find in a list. -/
def ofList : List α → Only α
  | [] => .none
  | [a] => .one a
  | _ => .several

theorem search_one : search p (.one a) xs = ofList (a :: xs.filter p) := by
  induction xs with
  | nil => rfl
  | cons x xs ih =>
    by_cases hx : p x
    · simp [search, hx, add, ofList]
    · simp [search, hx, ih]

theorem search_none : search p .none xs = ofList (xs.filter p) := by
  induction xs with
  | nil => rfl
  | cons x xs ih =>
    by_cases hx : p x
    · simp [search, hx, add, search_one]
    · simp [search, hx, ih]

theorem ofList_eq_one : ofList xs = .one a ↔ xs = [a] := by
  cases xs with
  | nil => simp [ofList]
  | cons x xs =>
    cases xs with
    | nil => simp [ofList]
    | cons y xs => simp [ofList]

theorem search_several : search p .several xs = .several := by
  induction xs with
  | nil => rfl
  | cons x xs ih =>
    by_cases hx : p x
    · simp [search, hx, add]
    · simp [search, hx, ih]

/-- A search goes on where another one has stopped. -/
theorem search_append (found : Only α) (xs ys : List α) :
    search p found (xs ++ ys) = search p (search p found xs) ys := by
  induction xs generalizing found with
  | nil => rfl
  | cons x xs ih =>
    by_cases hx : p x
    · cases found with
      | none => simp [search, hx, add, ih]
      | one a => simp [search, hx, add, search_several]
      | several => simp [search, hx, add, search_several]
    · simp [search, hx, ih]

end Only
end MyosIo
