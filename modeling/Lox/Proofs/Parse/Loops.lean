import Lox.Proofs.Desugar.Loops
import Lox.Proofs.Eval.Names
import Lox.Proofs.Parse.Regular

/-!
The loops of a parsed tree.

The initialiser of a loop, where the grammar allows one, declares a variable or is an expression,
and the body of a loop is a statement, not a declaration. So no loop stands in an initialiser, and a
body binds no name in the scope it runs in. The main statement is `writtenLoops_of_parse`.
-/

namespace Lox

open Grammar

/-- The initialiser of a loop, in the forms that the grammar has for it. -/
inductive Stmt.Initialiser : Option Stmt → Prop where
  | none : Initialiser none
  | varDecl {name init} : Initialiser (some (.varDecl name init))
  | expr {e} : Initialiser (some (.expr e))

/-- If a part is a loop, its initialiser and its body are of the forms that the grammar has. -/
def Part.WrittenLoop : Part → Prop
  | .stmt (.for init _ _ body) => Stmt.Initialiser init ∧ body.desugar.boundNames = []
  | _ => True

/-- All the loops in a part are of the form that the grammar has. -/
def Part.WrittenLoops : Part → Prop := Everywhere WrittenLoop

namespace Part

variable {p : Part}

theorem writtenLoops_iff : p.WrittenLoops ↔ p.WrittenLoop ∧ ∀ q ∈ p.parts, q.WrittenLoops :=
  everywhere_iff

theorem writtenLoops_expr (e : Expr) : (Part.expr e).WrittenLoops := by
  intro r inside
  obtain ⟨f, rfl⟩ := contains_expr inside
  trivial

theorem writtenLoops_leaf (h : p.WrittenLoop) (leaf : p.parts = []) : p.WrittenLoops :=
  writtenLoops_iff.mpr ⟨h, by simp [leaf]⟩

theorem writtenLoops_binder (name : Name) : (Part.binder name).WrittenLoops :=
  writtenLoops_leaf trivial rfl

theorem writtenLoops_superclass (name : Name) : (Part.superclass name).WrittenLoops :=
  writtenLoops_leaf trivial rfl

theorem writtenLoops_of_parts_eq {s : Stmt} {e : Expr} (h : (Part.stmt s).WrittenLoop)
    (only : s.parts = [.expr e]) : (Part.stmt s).WrittenLoops := by
  rw [writtenLoops_iff]
  simp [h, parts, only, writtenLoops_expr]

theorem writtenLoops_function {decl : FunctionDecl}
    (h : ∀ s ∈ decl.body, (Part.stmt s).WrittenLoops) : ∀ q ∈ decl.parts, q.WrittenLoops := by
  intro q mem
  simp only [FunctionDecl.parts, List.mem_cons, List.mem_append, List.mem_map] at mem
  rcases mem with rfl | ⟨name, -, rfl⟩ | ⟨s, mem, rfl⟩
  · exact writtenLoops_binder decl.name
  · exact writtenLoops_leaf trivial rfl
  · exact h s mem

theorem writtenLoops_cls {decl : ClassDecl}
    (h : ∀ m ∈ decl.methods, (Part.method m).WrittenLoops) : (Part.cls decl).WrittenLoops := by
  rw [writtenLoops_iff]
  refine ⟨trivial, fun q mem => ?_⟩
  simp only [parts, List.mem_cons, List.mem_append, List.mem_map] at mem
  rcases mem with rfl | ⟨name, -, rfl⟩ | ⟨m, mem, rfl⟩
  · exact writtenLoops_binder decl.name
  · exact writtenLoops_superclass name
  · exact h m mem

theorem not_hasLoop_initialiser {first : Stmt} (h : Stmt.Initialiser (some first)) :
    ¬ (Part.stmt first).HasLoop := by
  rw [hasLoop_iff]
  cases h <;>
    simp [IsLoop, parts, Stmt.parts, not_hasLoop_expr, not_hasLoop_binder]

/-- No loop of the form that the grammar has hides a loop. -/
theorem WrittenLoops.not_hidesLoop (h : p.WrittenLoops) : ¬ p.HidesLoop := by
  rintro ⟨r, inside, starts⟩
  have written := h r inside
  unfold StartsWithLoop at starts
  split at starts
  · obtain ⟨start, -⟩ := written
    exact not_hasLoop_initialiser start starts
  · exact starts

end Part

/-! ### Derived trees -/

theorem initialiser_of_loopInit {toks : List Token} {init : Option Stmt} (h : LoopInit toks init) :
    Stmt.Initialiser init := by
  rcases h with _ | h | h
  · exact .none
  · cases h <;> exact .varDecl
  · cases h
    exact .expr

theorem writtenLoops_of_initialiser {first : Stmt} (h : Stmt.Initialiser (some first)) :
    (Part.stmt first).WrittenLoops := by
  cases h with
  | varDecl =>
    rw [Part.writtenLoops_iff]
    simp [Part.WrittenLoop, Part.parts, Stmt.parts, Part.writtenLoops_expr,
      Part.writtenLoops_binder]
  | expr => exact Part.writtenLoops_of_parts_eq trivial rfl

mutual

/-- The replacement of a derived statement binds no name in the scope it runs in, and the loops in
it are of the form that the grammar has. -/
theorem writtenLoops_of_statement : ∀ {isOpen toks stmt}, Statement isOpen toks stmt →
    stmt.desugar.boundNames = [] ∧ (Part.stmt stmt).WrittenLoops
  | _, _, _, .expr ⟨_⟩ => ⟨rfl, writtenLoops_of_initialiser .expr⟩
  | _, _, _, .print _ => ⟨rfl, Part.writtenLoops_of_parts_eq trivial rfl⟩
  | _, _, _, .returnNil => ⟨rfl, Part.writtenLoops_of_parts_eq trivial rfl⟩
  | _, _, _, .return _ => ⟨rfl, Part.writtenLoops_of_parts_eq trivial rfl⟩
  | _, _, _, .nop => ⟨rfl, Part.writtenLoops_leaf trivial rfl⟩
  | _, _, _, .block h => by
    have body := writtenLoops_of_declarations h
    rw [Part.writtenLoops_iff]
    exact ⟨rfl, by simpa [Part.WrittenLoop, Part.parts, Stmt.parts] using body⟩
  | _, _, _, .ifElse _ h h' => by
    obtain ⟨nothing, thenBranch⟩ := writtenLoops_of_statement h
    obtain ⟨nothing', elseBranch⟩ := writtenLoops_of_statement h'
    rw [Part.writtenLoops_iff, Stmt.desugar, Stmt.boundNames, nothing, nothing']
    simp [Part.WrittenLoop, Part.parts, Stmt.parts, Part.writtenLoops_expr, thenBranch, elseBranch]
  | _, _, _, .if _ h => by
    obtain ⟨nothing, thenBranch⟩ := writtenLoops_of_statement h
    have elseBranch : (Part.stmt (.block [])).WrittenLoops := Part.writtenLoops_leaf trivial rfl
    rw [Part.writtenLoops_iff, Stmt.desugar, Stmt.boundNames, nothing]
    exact ⟨rfl, by simp [Part.WrittenLoop, Part.parts, Stmt.parts, Part.writtenLoops_expr,
      thenBranch, elseBranch]⟩
  | _, _, _, .while _ h => by
    obtain ⟨nothing, body⟩ := writtenLoops_of_statement h
    rw [Part.writtenLoops_iff, Stmt.desugar, Stmt.boundNames, nothing]
    simp [Part.WrittenLoop, Part.parts, Stmt.parts, Part.writtenLoops_expr, body]
  | _, _, _, .for h _ _ h' => by
    have start := initialiser_of_loopInit h
    obtain ⟨nothing, body⟩ := writtenLoops_of_statement h'
    rw [Part.writtenLoops_iff]
    refine ⟨Stmt.boundNames_ofFor _ _ _ _, ⟨start, nothing⟩, ?_⟩
    intro q mem
    simp only [Part.parts, Stmt.parts, List.mem_append, List.mem_map, List.mem_singleton,
      Option.mem_toList] at mem
    rcases mem with ⟨first, found, rfl⟩ | ⟨e, -, rfl⟩ | ⟨e, -, rfl⟩ | rfl
    · exact writtenLoops_of_initialiser (found ▸ start)
    · exact Part.writtenLoops_expr e
    · exact Part.writtenLoops_expr e
    · exact body

/-- The loops in a derived declaration are of the form that the grammar has. -/
theorem writtenLoops_of_declaration : ∀ {toks stmt}, Declaration toks stmt →
    (Part.stmt stmt).WrittenLoops
  | _, _, .var h => by
    cases h <;> exact writtenLoops_of_initialiser .varDecl
  | _, _, .fun h => by
    have inside := writtenLoops_of_function h
    rw [Part.writtenLoops_iff]
    refine ⟨trivial, fun q mem => ?_⟩
    obtain rfl := List.mem_singleton.mp mem
    exact Part.writtenLoops_iff.mpr ⟨trivial, inside⟩
  | _, _, .cls _ h => by
    have methods := writtenLoops_of_functions h
    rw [Part.writtenLoops_iff]
    refine ⟨trivial, fun q mem => ?_⟩
    obtain rfl := List.mem_singleton.mp mem
    exact Part.writtenLoops_cls methods
  | _, _, .statement h => (writtenLoops_of_statement h).2

theorem writtenLoops_of_declarations : ∀ {toks stmts}, Declarations toks stmts →
    ∀ s ∈ stmts, (Part.stmt s).WrittenLoops
  | _, _, .nil => by simp
  | _, _, .cons h h' => by
    simp only [List.forall_mem_cons]
    exact ⟨writtenLoops_of_declaration h, writtenLoops_of_declarations h'⟩

theorem writtenLoops_of_function : ∀ {toks decl}, Function toks decl →
    ∀ q ∈ decl.parts, q.WrittenLoops
  | _, _, .mk _ h => Part.writtenLoops_function (writtenLoops_of_declarations h)

theorem writtenLoops_of_functions : ∀ {toks decls}, Functions toks decls →
    ∀ decl ∈ decls, (Part.method decl).WrittenLoops
  | _, _, .nil => by simp
  | _, _, .cons h h' => by
    simp only [List.forall_mem_cons]
    exact ⟨Part.writtenLoops_iff.mpr ⟨trivial, writtenLoops_of_function h⟩,
      writtenLoops_of_functions h'⟩

end

/-! ### Parsed texts -/

/-- The loops in a parsed program are of the form that the grammar has. -/
theorem writtenLoops_of_parse {text : String} {tree : List Stmt}
    (h : parseProgram text = .ok tree) : (Part.program tree).WrittenLoops := by
  unfold parseProgram at h
  rw [programOfItems_eq_ok] at h
  obtain ⟨toks, -, derived⟩ := h
  rw [Part.writtenLoops_iff]
  simpa [Part.WrittenLoop, Part.parts] using writtenLoops_of_declarations derived

/-- No loop is left in a parsed program when its loops have been replaced. -/
theorem not_hasLoop_of_parse {text : String} {tree : List Stmt}
    (h : parseProgram text = .ok tree) :
    ¬ (Part.program (Program.ofStmts tree).stmts).HasLoop := by
  intro left
  exact (writtenLoops_of_parse h).not_hidesLoop (Part.hasLoop_desugar.mp left)

end Lox
