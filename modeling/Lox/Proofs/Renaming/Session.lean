import Lox.Proofs.Renaming.Check
import Lox.Proofs.Renaming.Parse
import Lox.Proofs.Renaming.Simulation
import Lox.Session.Script

/-!
Sessions that run renamed programs.

A step of a session parses a text, checks the program and runs it. If the texts given to two
sessions parse alike (`ParsesAlike`), and the store of the second is the image of that of the first,
then they answer alike and are left so (`Session.ends_eval`). So it is for a whole script of texts
(`Script.image_run`).
-/

namespace Lox

variable {P : Renaming}

/-! ### Programs -/

/-- Rename the identifiers that a failure mentions. -/
def Failure.rename (r : Name → Name) : Failure → Failure
  | .syntactic e => .syntactic (e.rename r)
  | .semantic e => .semantic (e.rename r)
  | .runtime e => .runtime (e.rename r)

/-- The second program is the first one renamed, the check sees no difference, and the first one
keeps to the names in use. -/
structure Program.Image (P : Renaming) (p p' : Program) : Prop where
  stmts : p'.stmts = Stmt.renameAll P.name p.stmts
  check : p'.check = p.check.mapError (SemanticError.rename P.name)
  covered : Stmt.OverAll P.uses (Fixed P.name) p.stmts

/-- What comes out of parsing two texts: renamed programs, or the same failure up to renaming. -/
inductive ParsesAlike (P : Renaming) : Except Failure Program → Except Failure Program → Prop where
  | ok {p p' : Program} : p.Image P p' → ParsesAlike P (.ok p) (.ok p')
  | error (e : Failure) : ParsesAlike P (.error e) (.error (e.rename P.name))

/-! ### Sessions -/

/-- Two sessions with the same host and the same global scope, of which the second has the image of
the first one's store. -/
inductive Session.Image (P : Renaming) (host : Host) (scope : Scope) :
    Session → Session → Prop where
  | mk {store store' : Store} : store.Image P store' →
      Image P host scope ⟨host, scope, store⟩ ⟨host, scope, store'⟩

/-- Two steps that ended in the same way. -/
inductive Session.Ends (P : Renaming) (host : Host) (scope : Scope) :
    Outcome Failure Session Value → Outcome Failure Session Value → Prop where
  | ok {v v' s s'} : v.Image P v' → Session.Image P host scope s s' →
      Ends P host scope (.ok v s) (.ok v' s')
  | error {s s'} (e : Failure) : Session.Image P host scope s s' →
      Ends P host scope (.error e s) (.error (e.rename P.name) s')
  | outOfFuel : Ends P host scope .outOfFuel .outOfFuel

section

variable {host : Host} {scope : Scope} {s s' : Session}

theorem Session.Image.written (h : Session.Image P host scope s s') : s'.written = s.written := by
  cases h with
  | mk image => exact congrArg Output.bytes image.output

theorem Session.ends_perform {x y : Run Value} (mirrors : Run.Mirrors P (Value.Image P) x y)
    (h : Session.Image P host scope s s') :
    Session.Ends P host scope (s.perform x) (s'.perform y) := by
  cases h with
  | @mk store store' image =>
    have ends := mirrors store store' image
    unfold Session.perform
    dsimp only
    generalize x store = r at ends
    generalize y store' = r' at ends
    cases ends with
    | ok image image' => exact .ok image (.mk image')
    | error image => exact .error (.runtime _) (.mk image)
    | outOfFuel => exact .outOfFuel

theorem Session.ends_run (respects : host.Respects P) (fuel : Nat) {p p' : Program}
    (same : p.Image P p') (h : Session.Image P host scope s s') :
    Session.Ends P host scope (s.run fuel p) (s'.run fuel p') := by
  unfold Session.run
  rw [same.check]
  cases p.check with
  | error e => exact .error (.semantic e) h
  | ok _ =>
    have nil : Value.Image P .nil .nil := ⟨rfl, trivial⟩
    have program := mirrors_execProgram respects fuel scope same.covered nil
    rw [← same.stmts] at program
    cases h with
    | mk image => exact Session.ends_perform program (.mk image)

theorem Session.ends_eval (respects : host.Respects P) (fuel : Nat) {text text' : String}
    (same : ParsesAlike P (Session.parse text) (Session.parse text'))
    (h : Session.Image P host scope s s') :
    Session.Ends P host scope (s.eval fuel text) (s'.eval fuel text') := by
  unfold Session.eval
  generalize Session.parse text = parsed at same
  generalize Session.parse text' = parsed' at same
  cases same with
  | ok same => exact Session.ends_run respects fuel same h
  | error e => exact .error e h

/-! ### Scripts -/

/-- Two answers of the same kind, with the same output. -/
inductive Answer.Image (P : Renaming) : Answer → Answer → Prop where
  | value {v v' : Value} (written : ByteArray) : v.Image P v' →
      Image P (.result (.ok v) written) (.result (.ok v') written)
  | failure (e : Failure) (written : ByteArray) :
      Image P (.result (.error e) written) (.result (.error (e.rename P.name)) written)

/-- Two scripts with images for sessions. -/
def Script.Image (P : Renaming) (host : Host) (scope : Scope) (t t' : Script) : Prop :=
  Session.Image P host scope t.session t'.session

theorem Script.image_finish {r r' : Outcome Failure Session Value}
    (h : Session.Ends P host scope r r') (slots slots' : List (String × Program)) (before : Nat) :
    Option.Rel (fun a a' => a.1.Image P a'.1 ∧ a.2.Image P host scope a'.2)
      (finish slots before r) (finish slots' before r') := by
  cases h with
  | ok same image =>
    simp only [finish, image.written]
    exact .some ⟨.value _ same, image⟩
  | error e image =>
    simp only [finish, image.written]
    exact .some ⟨.failure e _, image⟩
  | outOfFuel => exact .none

/-- A step leads from images to images, with answers of the same kind. -/
theorem Script.image_step (respects : host.Respects P) (fuel : Nat) {text text' : String}
    (same : ParsesAlike P (Session.parse text) (Session.parse text')) {t t' : Script}
    (h : t.Image P host scope t') :
    Option.Rel (fun a a' => a.1.Image P a'.1 ∧ a.2.Image P host scope a'.2)
      (t.step fuel (.eval text)) (t'.step fuel (.eval text')) := by
  change Option.Rel _ (finish t.slots t.session.written.size (t.session.eval fuel text))
    (finish t'.slots t'.session.written.size (t'.session.eval fuel text'))
  rw [Session.Image.written h]
  exact Script.image_finish (Session.ends_eval respects fuel same h) _ _ _

/-- So does a whole script of texts. -/
theorem Script.image_run (respects : host.Respects P) (fuel : Nat) {texts texts' : List String}
    (same : List.Forall₂
      (fun text text' => ParsesAlike P (Session.parse text) (Session.parse text')) texts texts')
    {t t' : Script} (h : t.Image P host scope t') :
    Option.Rel (fun a a' => List.Forall₂ (Answer.Image P) a.1 a'.1 ∧ a.2.Image P host scope a'.2)
      (t.run fuel (texts.map .eval)) (t'.run fuel (texts'.map .eval)) := by
  induction same generalizing t t' with
  | nil => exact .some ⟨.nil, h⟩
  | cons same _ ih =>
    have first := Script.image_step respects fuel same h
    simp only [List.map_cons, Script.run]
    rcases rel_cases first with ⟨none, none'⟩ | ⟨a, a', some, some', image, left⟩
    · rw [none, none']
      exact .none
    · rw [some, some']
      dsimp only
      rcases rel_cases (ih left) with ⟨none, none'⟩ | ⟨b, b', some, some', images, left⟩
      · rw [none, none']
        exact .none
      · rw [some, some']
        exact .some ⟨.cons image images, left⟩

end

/-! ### The start of a session -/

namespace Session

/-- The global scope of every session. -/
def globalScope : Scope := ⟨1, [0]⟩

/-- A session whose global frame alone is given. -/
def withFrame (host : Host) (limit : Option Nat) (b : Bindings) : Session :=
  ⟨host, globalScope, { (new host limit).store with frames := #[builtins, b] }⟩

/-- The builtins and the globals that a session starts with are all that is in its store. -/
theorem withGlobals_eq (host : Host) (limit : Option Nat) (globals : List (Name × Value)) :
    withGlobals host limit globals = withFrame host limit (.ofList globals) := by
  unfold withGlobals Bindings.ofList
  suffices ∀ b : Bindings,
      globals.foldl (fun s g => s.bind g.1 g.2) (withFrame host limit b) =
        withFrame host limit (globals.foldl (fun b e => b.insert e.1 e.2) b) from this []
  induction globals with
  | nil => exact fun _ => rfl
  | cons g rest ih => exact fun b => ih (b.insert g.1 g.2)

/-- The frame of the builtins is its own image if their names are kept. -/
theorem image_builtins (kept : ∀ b : Builtin, Fixed P.name b.name) :
    builtins.Image P builtins := by
  have same : builtins.rename P.name = builtins := by
    have clock : P.name "clock" = "clock" := kept .clock
    have sqrt : P.name "sqrt" = "sqrt" := kept .sqrt
    have max : P.name "max" = "max" := kept .max
    change [(P.name "clock", _), (P.name "sqrt", _), (P.name "max", _)] = _
    rw [clock, sqrt, max]
    rfl
  constructor
  case get? =>
    intro name _
    have found := builtins.get?_rename (P := P) name
    rwa [same] at found
  case fit =>
    intro name v _ found
    obtain ⟨b, -, same⟩ := List.mem_map.mp (Bindings.mem_of_get?_ofList found)
    cases same
    exact ⟨kept b, fun index supplied => nomatch supplied⟩

/-- Sessions start as images of each other if their globals are. -/
theorem image_withGlobals {host : Host} {limit : Option Nat}
    {globals globals' : List (Name × Value)} (kept : ∀ b : Builtin, Fixed P.name b.name)
    (image : (Bindings.ofList globals).Image P (.ofList globals'))
    (left : ∀ f name, ¬ P.uses name →
      ((withGlobals host limit globals).store.frame f).get? name = P.left f name)
    (right : ∀ f name, (∀ other, P.uses other → P.name other ≠ name) →
      ((withGlobals host limit globals').store.frame f).get? name = P.right f name) :
    Session.Image P host globalScope (withGlobals host limit globals)
      (withGlobals host limit globals') := by
  rw [withGlobals_eq] at left right ⊢
  rw [withGlobals_eq]
  refine .mk ⟨rfl, ?_, left, right, rfl, fun _ => Bindings.image_nil, rfl, rfl, rfl⟩
  rintro (_ | _ | f)
  · exact image_builtins kept
  · exact image
  · exact Bindings.image_nil

end Session

end Lox
