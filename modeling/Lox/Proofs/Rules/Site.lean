import Lox.Check
import Lox.Proofs.Part

/-!
The rules of a program, said of the places in its tree.

A path leads from the whole to one of its parts. The site at the end of a path is the part that
stands there, with the parts that come before it in the same part and the parts around it. Which
rules a site breaks (`Site.Breaks`) depends on nothing else: on the innermost function and the
innermost class around it, on what is declared before it directly in the same block, on the
parameters of the function whose body it stands in. Paths in lexicographic order are the places of a
program in the order of a traversal that comes to a part before the parts in it.
-/

namespace Lox

/-! ### Sites -/

/-- A place in a program: the part that stands there, the parts before it directly in the same part,
and the parts around it, the innermost first. -/
structure Site where
  part : Part
  before : List Part
  around : List Part

namespace Site

/-- The whole program as a site. -/
def whole (program : Program) : Site := ⟨.program program.stmts, [], []⟩

/-- One of the parts directly in the part of a site. -/
def inner? (s : Site) (i : Nat) : Option Site :=
  s.part.parts[i]?.map fun part => ⟨part, s.part.parts.take i, s.part :: s.around⟩

/-- The site that a path leads to. -/
def at? : Site → List Nat → Option Site
  | s, [] => some s
  | s, i :: path => (s.inner? i).bind (·.at? path)

end Site

/-! ### What is around a site -/

/-- Whether a part is a function or method. -/
def Part.isFunction : Part → Bool
  | .function _ | .method _ => true
  | _ => false

/-- The class that a part is. -/
def Part.cls? : Part → Option ClassDecl
  | .cls decl => some decl
  | _ => none

/-- The parameters of a function or method. -/
def Part.params : Part → List Name
  | .function decl | .method decl => decl.params
  | _ => []

/-- Whether the statements directly in a part are those of a block or of a function's body. -/
def Part.isBlock : Part → Bool
  | .stmt (.block _) | .function _ | .method _ => true
  | _ => false

/-- The innermost function or method of the parts around a site. -/
def innermostFunction? (around : List Part) : Option Part := around.find? Part.isFunction

/-- The innermost class of the parts around a site. -/
def innermostClass? (around : List Part) : Option ClassDecl := around.findSome? Part.cls?

/-! ### The rules -/

/-- The rules that a site breaks. -/
inductive Site.Breaks : Site → SemanticError → Prop where
  /-- A reserved word is bound by a declaration. -/
  | reservedBinder {name before around} : name.isReserved = true →
      Breaks ⟨.binder name, before, around⟩ (.reservedWord name)
  /-- A reserved word is bound as a parameter. -/
  | reservedParam {name before around} : name.isReserved = true →
      Breaks ⟨.param name, before, around⟩ (.reservedWord name)
  /-- A parameter has the name of one before it. -/
  | repeatedParam {name before around} : .param name ∈ before →
      Breaks ⟨.param name, before, around⟩ (.duplicateParameter name)
  /-- A statement directly in the body of a function declares the name of a parameter. -/
  | shadowedParam {s name before owner outer} : s.declaredName? = some name →
      name ∈ owner.params →
      Breaks ⟨.stmt s, before, owner :: outer⟩ (.shadowsParameter name)
  /-- A statement directly in a block declares a name that one before it declares. -/
  | redeclared {s earlier name before owner outer} : owner.isBlock = true →
      s.declaredName? = some name → .stmt earlier ∈ before →
      earlier.declaredName? = some name →
      Breaks ⟨.stmt s, before, owner :: outer⟩ (.duplicateLocal name)
  /-- A `return` stands in no function. -/
  | strayReturn {value before around} : innermostFunction? around = none →
      Breaks ⟨.stmt (.return value), before, around⟩ .returnOutsideFunction
  /-- An initializer returns something other than the literal `nil`. -/
  | initializerReturn {value decl before around} :
      innermostFunction? around = some (.method decl) → decl.name = initializerName →
      value ≠ .nil → Breaks ⟨.stmt (.return value), before, around⟩ .returnFromInitializer
  /-- A `this` stands in no class. -/
  | strayThis {before around} : innermostClass? around = none →
      Breaks ⟨.expr .this, before, around⟩ .thisOutsideClass
  /-- A `super` stands in no class. -/
  | straySuper {method before around} : innermostClass? around = none →
      Breaks ⟨.expr (.super method), before, around⟩ .superOutsideClass
  /-- The class around a `super` has no superclass. -/
  | baseSuper {method decl before around} : innermostClass? around = some decl →
      decl.superclass = none →
      Breaks ⟨.expr (.super method), before, around⟩ .superWithoutSuperclass
  /-- A class names itself as its superclass. -/
  | ownSuperclass {decl before outer} :
      Breaks ⟨.superclass decl.name, before, .cls decl :: outer⟩ (.inheritFromSelf decl.name)

/-- A path from a site leads to one that breaks a rule. -/
def Site.Breach (s : Site) (path : List Nat) (e : SemanticError) : Prop :=
  ∃ t, s.at? path = some t ∧ t.Breaks e

/-- A path of a program leads to a site that breaks a rule. -/
def Program.Breach (program : Program) (path : List Nat) (e : SemanticError) : Prop :=
  (Site.whole program).Breach path e

end Lox
