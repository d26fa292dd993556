import Mathlib
import Lox.Proofs.Desugar
import Lox.Proofs.Renaming.Session
import Lox.Proofs.Renaming.Text

/-!
What a program does depends on its identifiers only up to renaming.

Let a bijection take identifiers to identifiers and keep the words that mean something by themselves
(`Respelling`), and let it keep the names under which the texts declare functions, methods and
classes, since values show these. Then the texts and the renamed texts are answered alike, step by
step and byte for byte, and leave the same globals under the renamed names. The main statement is
`run_renameText`.
-/

namespace Lox

/-! ### Words with a meaning of their own -/

/-- A bijection that takes identifiers to identifiers, and keeps the keywords, the name of
initializers and those of the builtins. -/
structure Respelling (r : Equiv.Perm Name) : Prop where
  words : ∀ word, Scan.IsWord word → Scan.IsWord (r word)
  keywords : ∀ k : Keyword, Fixed r k.text
  init : Fixed r initializerName
  builtins : ∀ b : Builtin, Fixed r b.name

namespace Respelling

variable {r : Equiv.Perm Name} (h : Respelling r)

include h

theorem isReserved (word : Name) : (r word).isReserved = word.isReserved := by
  rw [Bool.eq_iff_iff, Name.isReserved_iff, Name.isReserved_iff]
  refine exists_congr fun k => ?_
  have kept : r k.text = k.text := h.keywords k
  rw [← r.injective.eq_iff (a := word), kept]

theorem ruleBlind : RuleBlind r := ⟨r.injective, h.isReserved, h.init⟩

end Respelling

/-- The renaming of all names of a program that is given no functions from outside. -/
def Renaming.ofRespelling {r : Equiv.Perm Name} (h : Respelling r) : Renaming where
  name := r
  uses _ := True
  calls _ := False
  left _ _ := none
  right _ _ := none
  injective := r.injective
  uses_this := trivial
  uses_super := trivial
  fixed_this := h.keywords .this
  fixed_super := h.keywords .super
  fixed_init := h.init

/-! ### Parsing a renamed text -/

section

variable {r : Equiv.Perm Name}

theorem Respelling.parseProgram_renameText (h : Respelling r) (text : String) :
    parseProgram (renameText r text) =
      ((parseProgram text).map (Stmt.renameAll r)).mapError (SyntaxError.rename r) := by
  have unreserved : ∀ word : Name, word.isReserved = false → (r word).isReserved = false :=
    fun word free => (h.isReserved word).trans free
  unfold parseProgram
  rw [scan_renameText h.words unreserved, programOfItems_rename]

/-- The renamed text parses to the renamed program, or fails in the same way. -/
theorem Respelling.parsesAlike (h : Respelling r) {text : String}
    (declared : ∀ tree, parseProgram text = .ok tree →
      Stmt.OverAll (fun _ => True) (Fixed r) tree) :
    ParsesAlike (.ofRespelling h) (Session.parse text) (Session.parse (renameText r text)) := by
  unfold Session.parse
  rw [h.parseProgram_renameText]
  cases parsed : parseProgram text with
  | ok tree =>
    refine .ok ⟨Stmt.desugarAll_renameAll r tree, ?_, Stmt.OverAll.desugar (declared tree parsed)⟩
    unfold Program.check Program.ofStmts
    rw [Stmt.desugarAll_renameAll]
    exact Check.stmts_rename h.ruleBlind _
  | error e => exact .error (.syntactic e)

end

/-! ### Running renamed texts -/

/-- Two answers of the same kind and with the same output: values that show the same, or the same
failure up to renaming. -/
inductive Answer.SameUpTo (r : Name → Name) : Answer → Answer → Prop where
  | value (v : Value) (written : ByteArray) : (v.rename r).text = v.text →
      SameUpTo r (.result (.ok v) written) (.result (.ok (v.rename r)) written)
  | failure (e : Failure) (written : ByteArray) :
      SameUpTo r (.result (.error e) written) (.result (.error (e.rename r)) written)

/-- Two scripts that came to the same end, up to renaming: in their answers, and in what is bound in
the global frame, where values show the same. -/
structure SameEnd (r : Name → Name) (run run' : List Answer × Script) : Prop where
  answers : List.Forall₂ (Answer.SameUpTo r) run.1 run'.1
  globals : ∀ name, (run'.2.session.store.own run'.2.session.scope).get? (r name) =
    ((run.2.session.store.own run.2.session.scope).get? name).map (Value.rename r)
  texts : ∀ name v, (run.2.session.store.own run.2.session.scope).get? name = some v →
    (v.rename r).text = v.text

theorem Answer.Image.sameUpTo {r : Equiv.Perm Name} {h : Respelling r} {a a' : Answer}
    (image : a.Image (.ofRespelling h) a') : a.SameUpTo r a' := by
  cases image with
  | value written image =>
    obtain ⟨rfl, fit⟩ := image
    exact .value _ written (Value.text_rename fit)
  | failure e written => exact .failure e written

theorem sameEnd_of_image {r : Equiv.Perm Name} {h : Respelling r} {host : Host} {scope : Scope}
    {run run' : List Answer × Script}
    (answers : List.Forall₂ (Answer.Image (.ofRespelling h)) run.1 run'.1)
    (image : run.2.Image (.ofRespelling h) host scope run'.2) : SameEnd r run run' := by
  obtain ⟨given, ⟨session, slots⟩⟩ := run
  obtain ⟨given', ⟨session', slots'⟩⟩ := run'
  cases image with
  | mk image =>
    have own := image.frame scope.frame
    constructor
    case answers => exact answers.imp fun _ _ image => image.sameUpTo
    case globals => exact fun name => own.get? name trivial
    case texts => exact fun name v found => Value.text_rename (own.fit name v trivial found)

/-- Texts and the renamed texts, run in fresh sessions, are answered alike at every step and leave
the same globals up to renaming; and if one run does not come to an end, neither does the other. -/
theorem run_renameText {r : Equiv.Perm Name} (h : Respelling r) (host : Host)
    (limit : Option Nat) {texts : List String}
    (declared : ∀ text ∈ texts, ∀ tree, parseProgram text = .ok tree →
      Stmt.OverAll (fun _ => True) (Fixed r) tree) (fuel : Nat) :
    Option.Rel (SameEnd r) ((Script.start (.new host limit)).run fuel (texts.map .eval))
      ((Script.start (.new host limit)).run fuel ((texts.map (renameText r)).map .eval)) := by
  have respects : host.Respects (.ofRespelling h) := fun _ _ allowed => allowed.elim
  have start : (Script.start (.new host limit)).Image (.ofRespelling h) host Session.globalScope
      (Script.start (.new host limit)) := by
    have empty : Bindings.Image (.ofRespelling h) (.ofList []) (.ofList []) := Bindings.image_nil
    refine Session.image_withGlobals h.builtins empty ?_ ?_
    · exact fun f name unused => absurd trivial unused
    · intro f name unused
      exact absurd (r.apply_symm_apply name) (unused (r.symm name) trivial)
  have same : List.Forall₂ (fun text text' =>
      ParsesAlike (.ofRespelling h) (Session.parse text) (Session.parse text')) texts
      (texts.map (renameText r)) := by
    rw [List.forall₂_map_right_iff, List.forall₂_same]
    exact fun text mem => h.parsesAlike (declared text mem)
  rcases rel_cases (Script.image_run respects fuel same start) with
    ⟨none, none'⟩ | ⟨run, run', some, some', answers, left⟩
  · rw [none, none']
    exact .none
  · rw [some, some']
    exact .some (sameEnd_of_image answers left)

theorem respelling_swap : Respelling (Equiv.swap "a" "count") := by
  have apart : ∀ name : Name, name ≠ "a" → name ≠ "count" →
      Fixed (Equiv.swap "a" "count") name :=
    fun name ne ne' => Equiv.swap_apply_of_ne_of_ne ne ne'
  constructor
  case words =>
    intro word isWord
    rw [Equiv.swap_apply_def]
    split
    · exact ⟨'c', ['o', 'u', 'n', 't'], by simp, rfl, List.all_eq_true.mp rfl⟩
    · split
      · exact ⟨'a', [], by simp, rfl, List.all_eq_true.mp rfl⟩
      · exact isWord
  case keywords =>
    intro k
    cases k <;> exact apart _ (by decide) (by decide)
  case init => exact apart _ (by decide) (by decide)
  case builtins =>
    intro b
    cases b <;> exact apart _ (by decide) (by decide)

/-- A parameter and a global exchange their names. The string that reads like one of them, and the
comment, stay as they are; the error of the second step names the other. -/
theorem run_renameText_swap :
    Respelling (Equiv.swap "a" "count") ∧ ∃ run run',
      (Script.start (.new Host.first none)).run 20
        (["fun f(a) \x7b print a; \x7d f(\"a\"); var count;", "a; // a"].map .eval) = some run ∧
      (Script.start (.new Host.first none)).run 20
        (["fun f(count) \x7b print count; \x7d f(\"a\"); var a;", "count; // a"].map .eval) =
          some run' ∧
      run.1 = [.result (.ok .nil) "a\n".toUTF8,
        .result (.error (.runtime (.undefinedName "a"))) .empty] ∧
      SameEnd (Equiv.swap "a" "count") run run' := by
  have first : parseProgram "fun f(a) \x7b print a; \x7d f(\"a\"); var count;" =
      .ok [.funDecl ⟨"f", ["a"], [.print (.var "a")]⟩, .expr (.call (.var "f") [.string "a"]),
        .varDecl "count" .nil] := by
    cbv
  have second : parseProgram "a; // a" = .ok [.expr (.var "a")] := by
    cbv
  have renamed : ["fun f(a) \x7b print a; \x7d f(\"a\"); var count;", "a; // a"].map
        (renameText (Equiv.swap "a" "count")) =
      ["fun f(count) \x7b print count; \x7d f(\"a\"); var a;", "count; // a"] := by
    cbv
  have declared : ∀ text ∈ ["fun f(a) \x7b print a; \x7d f(\"a\"); var count;", "a; // a"],
      ∀ tree, parseProgram text = .ok tree →
        Stmt.OverAll (fun _ => True) (Fixed (Equiv.swap "a" "count")) tree := by
    have kept : Fixed (Equiv.swap "a" "count") "f" :=
      Equiv.swap_apply_of_ne_of_ne (by decide) (by decide)
    intro text mem tree parsed
    rcases List.mem_pair.mp mem with rfl | rfl
    · cases first.symm.trans parsed
      simp [Stmt.OverAll, Stmt.Over, FunctionDecl.Over, Expr.Over, Expr.OverAll, kept]
    · cases second.symm.trans parsed
      simp [Stmt.OverAll, Stmt.Over, Expr.Over]
  have answered : ((Script.start (.new Host.first none)).run 20
      (["fun f(a) \x7b print a; \x7d f(\"a\"); var count;", "a; // a"].map .eval)).map Prod.fst =
      some [.result (.ok .nil) "a\n".toUTF8,
        .result (.error (.runtime (.undefinedName "a"))) .empty] := by
    cbv
  obtain ⟨run, ran, answers⟩ := Option.map_eq_some_iff.mp answered
  have same := run_renameText respelling_swap Host.first none declared 20
  rw [renamed, ran] at same
  rcases rel_cases same with ⟨none, -⟩ | ⟨_, run', some, ran', ended⟩
  · cases none
  · cases some
    exact ⟨respelling_swap, run, run', ran, ran', answers, ended⟩

end Lox
