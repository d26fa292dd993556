import Lox.Keyword

/-!
Interned names. An interner gives equal names the same symbol, so that two of its symbols are the
same name exactly when they stand at the same place in its table. Symbols of different interners are
never the same, whatever their names.
-/

namespace Lox

/-- An interned name: the interner it belongs to, its place in that interner's table, and the
name. -/
structure Symbol where
  interner : Nat
  index : Nat
  name : Name

/-- A table of the names seen so far, in the order they were first seen. -/
structure Interner where
  id : Nat
  names : List Name

namespace Symbol

/-- Two symbols are the same if they stand at the same place of the same interner. -/
def same (a b : Symbol) : Bool := a.interner == b.interner && a.index == b.index

/-- Symbols are ordered by name, and those of one name by their place. -/
def order (a b : Symbol) : Ordering :=
  (compare a.name b.name).then ((compare a.interner b.interner).then (compare a.index b.index))

end Symbol

namespace Interner

/-- An interner that has seen no name. Interners in use together have different numbers. -/
def empty (id : Nat) : Interner := ⟨id, []⟩

/-- The symbol of a name, which is entered into the table when it is new. -/
def intern (t : Interner) (name : Name) : Symbol × Interner :=
  match t.names.idxOf? name with
  | some index => (⟨t.id, index, name⟩, t)
  | none => (⟨t.id, t.names.length, name⟩, { t with names := t.names ++ [name] })

/-- The symbols of several names, interned from left to right. -/
def internAll (t : Interner) : List Name → List Symbol × Interner
  | [] => ([], t)
  | name :: rest =>
    let (symbol, t) := t.intern name
    let (symbols, t) := t.internAll rest
    (symbol :: symbols, t)

end Interner

end Lox
