import Lox.Value

/-!
The names bound in one frame, or the fields of one instance: each name at most once, in the order
they were first bound. What an operation does is said through `get?`.
-/

namespace Lox

/-- Names with their values. -/
abbrev Bindings := List (Name × Value)

namespace Bindings

/-- The value bound to a name. -/
def get? (name : Name) : Bindings → Option Value
  | [] => none
  | (n, v) :: rest => if n = name then some v else get? name rest

/-- Whether a name is bound. -/
def contains (b : Bindings) (name : Name) : Bool := (b.get? name).isSome

/-- Bind a name, in place of an earlier binding if there is one. -/
def insert (name : Name) (value : Value) : Bindings → Bindings
  | [] => [(name, value)]
  | (n, v) :: rest => if n = name then (n, value) :: rest else (n, v) :: insert name value rest

/-- Bind names from left to right; a repeated name keeps the last value. -/
def ofList (entries : List (Name × Value)) : Bindings :=
  entries.foldl (fun b e => insert e.1 e.2 b) []

/-- The entries in the order of their names. -/
def sorted (b : Bindings) : List (Name × Value) :=
  b.mergeSort (fun x y => x.1 ≤ y.1)

/-- The names bound. -/
def names (b : Bindings) : List Name := b.map Prod.fst

@[simp] theorem get?_nil (name : Name) : get? name [] = none := rfl

@[simp] theorem get?_insert_self (name : Name) (value : Value) (b : Bindings) :
    get? name (insert name value b) = some value := by
  induction b with
  | nil => simp [insert, get?]
  | cons e rest ih =>
    by_cases h : e.1 = name <;> simp [insert, get?, h, ih]

theorem get?_insert_of_ne {name other : Name} (h : other ≠ name) (value : Value) (b : Bindings) :
    get? other (insert name value b) = get? other b := by
  induction b with
  | nil => simp [insert, get?, h.symm]
  | cons e rest ih =>
    by_cases hn : e.1 = name
    · simp [insert, get?, hn, h.symm]
    · simp [insert, get?, hn, ih]

theorem get?_eq_none_iff {name : Name} {b : Bindings} :
    get? name b = none ↔ name ∉ b.names := by
  induction b with
  | nil => simp [names]
  | cons e rest ih =>
    by_cases h : e.1 = name
    · simp [get?, names, h]
    · simp only [get?, h, if_false, ih]
      simp [names, Ne.symm h]

end Bindings

end Lox
