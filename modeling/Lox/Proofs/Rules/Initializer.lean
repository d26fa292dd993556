import Mathlib
import Lox.Proofs.Check.Loops
import Lox.Proofs.Returns

/-!
The values that initializers return.

A program that breaks no other rule is rejected for what it returns from an initializer. The rule is
about values, and the text decides it by what is written behind `return`: nothing and the literal
`nil` are accepted, everything else is not. Where a `return` stands, only the innermost function or
method around it counts. The main statement is `initializer_returns`.
-/

namespace Lox

open Check Grammar Site

/-! ### The returns of a part -/

/-- The `return` statements in a part, whose innermost function or method is the owner. -/
def Part.returns (owner : Option Part) : Part → List Returned
  | .program stmts => Stmt.returnsAll owner stmts
  | .stmt s => s.returns owner
  | .function decl => decl.returns .function
  | .method decl => decl.returns .method
  | .cls decl => decl.returns
  | .expr _ | .binder _ | .param _ | .superclass _ => []

/-- The `return` stands in a method of the initializer's name, and in no function inside it. -/
def Returned.InInitializer (r : Returned) : Prop :=
  ∃ decl, r.owner = some (.method decl) ∧ decl.name = initializerName

section

variable {r : Returned} {owner : Option Part} {around before : List Part} {p : Part}

theorem Stmt.mem_returnsAll {stmts : List Stmt} :
    r ∈ Stmt.returnsAll owner stmts ↔ ∃ s ∈ stmts, r ∈ s.returns owner := by
  induction stmts with
  | nil => simp [Stmt.returnsAll]
  | cons s rest ih => simp [Stmt.returnsAll, ih]

theorem FunctionDecl.mem_returnsAll {decls : List FunctionDecl} :
    r ∈ FunctionDecl.returnsAll decls ↔ ∃ decl ∈ decls, r ∈ decl.returns .method := by
  induction decls with
  | nil => simp [FunctionDecl.returnsAll]
  | cons decl rest ih => simp [FunctionDecl.returnsAll, ih]

theorem FunctionDecl.mem_returns {kind : FunctionDecl → Part} {decl : FunctionDecl} :
    r ∈ decl.returns kind ↔ ∃ s ∈ decl.body, r ∈ s.returns (some (kind decl)) := by
  obtain ⟨name, params, body⟩ := decl
  exact Stmt.mem_returnsAll

theorem innermostFunction?_cons_function (h : p.isFunction = true) :
    innermostFunction? (p :: around) = some p :=
  List.find?_cons_of_pos h

theorem innermostFunction?_cons_other (h : p.isFunction = false) :
    innermostFunction? (p :: around) = innermostFunction? around :=
  List.find?_cons_of_neg (by simp [h])

/-- A `return` in a part is the part itself, or stands in one of its own parts. -/
theorem Part.mem_returns_iff :
    r ∈ p.returns (innermostFunction? around) ↔
      (∃ value, p = .stmt (.return value) ∧ r = ⟨innermostFunction? around, value⟩) ∨
        ∃ q ∈ p.parts, r ∈ q.returns (innermostFunction? (p :: around)) := by
  cases p with
  | program stmts =>
    rw [innermostFunction?_cons_other rfl]
    simp [returns, parts, Stmt.mem_returnsAll]
  | stmt s =>
    rw [innermostFunction?_cons_other rfl]
    cases s with
    | «for» init cond incr body =>
      cases init <;> cases cond <;> cases incr <;>
        simp [returns, parts, Stmt.parts, Stmt.returns, Stmt.returns?]
    | _ => simp [returns, parts, Stmt.parts, Stmt.returns, Stmt.mem_returnsAll]
  | function decl =>
    rw [innermostFunction?_cons_function rfl]
    simp [returns, parts, FunctionDecl.parts, FunctionDecl.mem_returns, or_and_right, exists_or]
  | method decl =>
    rw [innermostFunction?_cons_function rfl]
    simp [returns, parts, FunctionDecl.parts, FunctionDecl.mem_returns, or_and_right, exists_or]
  | cls decl =>
    obtain ⟨name, superclass, methods⟩ := decl
    simp [returns, parts, ClassDecl.returns, FunctionDecl.mem_returnsAll, or_and_right, exists_or]
  | _ => simp [returns, parts, Expr.parts]

/-! ### Broken initializers -/

/-- The rule about initializers is broken by those `return` statements that it forbids. -/
theorem breaks_initializer_iff :
    Breaks ⟨p, before, around⟩ .returnFromInitializer ↔
      ∃ value, p = .stmt (.return value) ∧ value ≠ .nil ∧
        Returned.InInitializer ⟨innermostFunction? around, value⟩ := by
  constructor
  · intro broken
    cases broken with
    | initializerReturn found initializer ne => exact ⟨_, rfl, ne, _, found, initializer⟩
  · rintro ⟨value, rfl, ne, decl, found, initializer⟩
    exact .initializerReturn found initializer ne

/-- The rule about initializers is broken in a part if a `return` in it breaks it. -/
theorem breach_initializer_iff :
    (∃ path, Breach ⟨p, before, around⟩ path .returnFromInitializer) ↔
      ∃ r ∈ p.returns (innermostFunction? around), r.InInitializer ∧ r.value ≠ .nil := by
  -- The parts of a part have others before them, which the rule does not look at.
  induction p using Part.induction generalizing before around with
  | step p ih =>
  constructor
  · rintro ⟨path, breach⟩
    rcases breach_iff.mp breach with ⟨-, broken⟩ | ⟨i, q, path', found, -, inner⟩
    · obtain ⟨value, same, ne, initializer⟩ := breaks_initializer_iff.mp broken
      exact ⟨_, Part.mem_returns_iff.mpr (.inl ⟨value, same, rfl⟩), initializer, ne⟩
    · have mem := List.mem_of_getElem? found
      obtain ⟨r, inside, forbidden⟩ := (ih q mem).mp ⟨path', inner⟩
      exact ⟨r, Part.mem_returns_iff.mpr (.inr ⟨q, mem, inside⟩), forbidden⟩
  · rintro ⟨r, mem, initializer, ne⟩
    rcases Part.mem_returns_iff.mp mem with ⟨value, same, rfl⟩ | ⟨q, mem, inside⟩
    · have broken : Breaks ⟨p, before, around⟩ .returnFromInitializer :=
        breaks_initializer_iff.mpr ⟨value, same, ne, initializer⟩
      exact ⟨[], breach_iff.mpr (.inl ⟨rfl, broken⟩)⟩
    · obtain ⟨i, found⟩ := List.mem_iff_getElem?.mp mem
      obtain ⟨path, inner⟩ := (ih q mem).mpr ⟨r, inside, initializer, ne⟩
      exact ⟨_, breach_iff.mpr (.inr ⟨i, q, path, found, rfl, inner⟩)⟩

/-! ### No other rule -/

theorem Site.at?_trans {s t u : Site} {path path' : List Nat} (found : s.at? path = some t)
    (behind : t.at? path' = some u) : s.at? (path ++ path') = some u := by
  induction path generalizing s with
  | nil =>
    cases found
    exact behind
  | cons i path ih =>
    obtain ⟨r, first, rest⟩ := Option.bind_eq_some_iff.mp found
    rw [List.cons_append, at?, first]
    exact ih rest

theorem Site.inner?_of_parts {s : Site} {front rest : List Part} {q : Part}
    (split : s.part.parts = front ++ q :: rest) :
    s.inner? front.length = some ⟨q, front, s.part :: s.around⟩ := by
  simp [inner?, split]

/-- In the increment of a contested loop another rule is broken, since no `return` stands there. -/
theorem Site.Contested.exists_breach {s : Site} (h : s.Contested) :
    ∃ path e, s.Breach path e ∧ e ≠ .returnFromInitializer := by
  obtain @⟨init, cond, incr, body, before, around, path, -, e, -, breach, -⟩ := h
  have other : e ≠ .returnFromInitializer := by
    rintro rfl
    obtain ⟨r, mem, -⟩ := breach_initializer_iff.mp ⟨path, breach⟩
    cases mem
  obtain ⟨t, reached, broken⟩ := breach
  have increment := Site.inner?_of_parts
    (s := ⟨.stmt (.for init cond (some incr) body), before, around⟩) (List.append_assoc _ _ _).symm
  exact ⟨_ :: path, e, ⟨t, by rw [at?, increment]; exact reached, broken⟩, other⟩

/-- If no other rule is broken in a program, it does not matter whether its loops are replaced. -/
theorem check_ofStmts_of_only {stmts : List Stmt}
    (only : ∀ path e, (⟨stmts⟩ : Program).Breach path e → e = .returnFromInitializer) :
    (Program.ofStmts stmts).check = (⟨stmts⟩ : Program).check := by
  have uncontested : Uncontested (.whole ⟨stmts⟩) := by
    intro path t reached contested
    obtain ⟨path', e, ⟨u, found, broken⟩, ne⟩ := contested.exists_breach
    exact ne (only _ _ ⟨u, Site.at?_trans reached found, broken⟩)
  have alike : Alike (UncontestedIn [.program stmts] [] (stmts.map .stmt)) (Check.stmts stmts)
      (Check.stmts (Stmt.desugarAll stmts)) := alike_stmts stmts
  exact (alike.same uncontested.parts).symm

theorem judged_program (program : Program) : Judged (.whole program) program.check :=
  .of_parts nofun (isFirst_stmts program.stmts)

/-- A verdict about breaches of one rule only says whether there are any. -/
theorem IsFirst.of_only {breaches : List Nat → SemanticError → Prop} {e : SemanticError}
    {v : Except SemanticError Unit} (h : IsFirst breaches v)
    (only : ∀ path e', breaches path e' → e' = e) :
    (v = .ok () ↔ ¬ ∃ path, breaches path e) ∧ (v = .error e ↔ ∃ path, breaches path e) := by
  cases v with
  | ok =>
    have none : ¬ ∃ path, breaches path e := fun ⟨path, breach⟩ => h path e breach
    simp [none]
  | error e' =>
    obtain ⟨path, breach, -⟩ := h
    obtain rfl := only path e' breach
    have some : ∃ path, breaches path e' := ⟨path, breach⟩
    simp [some]

/-! ### The text -/

/-- What is forbidden in an initializer can be read off the text. -/
theorem exists_returned_iff {written : List (List Token)} {returns : List Returned}
    (stand : List.Forall₂ (fun w r => Stands w r.value) written returns) :
    (∃ r ∈ returns, r.InInitializer ∧ r.value ≠ .nil) ↔
      ∃ w r, (w, r) ∈ written.zip returns ∧ r.InInitializer ∧ w ≠ [] ∧ w ≠ [.keyword .nil] := by
  obtain ⟨length, each⟩ := List.forall₂_iff_zip.mp stand
  have bare : ∀ {w r}, (w, r) ∈ written.zip returns →
      (r.value ≠ .nil ↔ w ≠ [] ∧ w ≠ [.keyword .nil]) := fun mem => by
    rw [ne_eq, (each mem).eq_nil_iff, not_or]
  constructor
  · rintro ⟨r, mem, initializer, ne⟩
    rw [← List.map_snd_zip (Nat.le_of_eq length.symm)] at mem
    obtain ⟨⟨w, _⟩, pair, rfl⟩ := List.mem_map.mp mem
    exact ⟨w, _, pair, initializer, (bare pair).mp ne⟩
  · rintro ⟨w, r, pair, initializer, other⟩
    exact ⟨r, (List.of_mem_zip pair).2, initializer, (bare pair).mpr other⟩

end

/-- Take a text that is a program, and in which no other rule is broken. Each `return` of the text
belongs to one of the tree, whose value it has. The program is rejected for what it returns from an
initializer if behind some `return`, to which an initializer is the innermost function or method,
something other than the literal `nil` is written. Otherwise it is accepted. -/
theorem initializer_returns {text : String} {stmts : List Stmt}
    (parsed : parseProgram text = .ok stmts)
    (only : ∀ path e, (⟨stmts⟩ : Program).Breach path e → e = .returnFromInitializer) :
    ∃ toks, Item.tokens (scan text) = .ok toks ∧
      List.Forall₂ (fun w r => Stands w r.value) (writtenReturns toks)
        (Stmt.returnsAll none stmts) ∧
      ((Program.ofStmts stmts).check = .error .returnFromInitializer ↔
        ∃ w r, (w, r) ∈ (writtenReturns toks).zip (Stmt.returnsAll none stmts) ∧
          r.InInitializer ∧ w ≠ [] ∧ w ≠ [.keyword .nil]) ∧
      ((Program.ofStmts stmts).check = .ok () ↔
        ∀ w r, (w, r) ∈ (writtenReturns toks).zip (Stmt.returnsAll none stmts) →
          r.InInitializer → w = [] ∨ w = [.keyword .nil]) := by
  obtain ⟨toks, scanned, derived⟩ := programOfItems_eq_ok.mp parsed
  have stand := stands_of_declarations derived
  have broken : (∃ path, (⟨stmts⟩ : Program).Breach path .returnFromInitializer) ↔
      ∃ w r, (w, r) ∈ (writtenReturns toks).zip (Stmt.returnsAll none stmts) ∧
        r.InInitializer ∧ w ≠ [] ∧ w ≠ [.keyword .nil] :=
    breach_initializer_iff.trans (exists_returned_iff stand)
  obtain ⟨accepted, rejected⟩ := (judged_program ⟨stmts⟩).of_only only
  rw [check_ofStmts_of_only only]
  refine ⟨toks, scanned, stand, rejected.trans broken, ?_⟩
  rw [accepted]
  refine (not_congr broken).trans ?_
  simp only [not_exists, not_and, not_not, or_iff_not_imp_left, ne_eq]

/-- `nil` in parentheses may not be returned. -/
theorem initializer_returns_group :
    let text := "class A \x7b init() \x7b return (nil); \x7d \x7d"
    let init : FunctionDecl := ⟨"init", [], [.return (.group .nil)]⟩
    let stmts : List Stmt := [.classDecl ⟨"A", none, [init]⟩]
    parseProgram text = .ok stmts ∧
      (∀ path e, (⟨stmts⟩ : Program).Breach path e → e = .returnFromInitializer) ∧
      (Program.ofStmts stmts).check = .error .returnFromInitializer := by
  intro text init stmts
  have parsed : parseProgram text = .ok stmts := by cbv
  have only : ∀ path e, (⟨stmts⟩ : Program).Breach path e → e = .returnFromInitializer := by
    intro path e breach
    simp only [stmts, init, Program.Breach, Site.whole, breach_iff, within_cons, within_nil,
      or_false, Part.parts, Stmt.parts, FunctionDecl.parts, Expr.parts, List.map, List.nil_append,
      Option.toList_none] at breach
    rcases breach with ⟨-, ⟨⟩⟩ | ⟨_, -, ⟨-, cls⟩ | ⟨_, -, ⟨-, ⟨⟩⟩ | ⟨_, -, -, name⟩ |
      ⟨_, -, ⟨-, ⟨⟩⟩ | ⟨_, -, -, name⟩ | ⟨_, -, ⟨-, returns⟩ |
      ⟨_, -, ⟨-, value⟩ | ⟨_, -, -, value⟩⟩⟩⟩⟩⟩
    · exact absurd cls (not_breaks_declared rfl rfl)
    · cases name with
      | reservedBinder reserved => cases reserved
    · cases name with
      | reservedBinder reserved => cases reserved
    · exact Except.error.inj (breaks_return_iff.mp returns).symm
    · cases value
    · cases value
  obtain ⟨toks, scanned, -, rejected, -⟩ := initializer_returns parsed only
  have tokens : Item.tokens (scan text) = .ok [.keyword .cls, .identifier "A", .mark .leftCurly,
      .identifier "init", .mark .leftParen, .mark .rightParen, .mark .leftCurly, .keyword .return,
      .mark .leftParen, .keyword .nil, .mark .rightParen, .mark .semicolon, .mark .rightCurly,
      .mark .rightCurly] := by cbv
  cases scanned.symm.trans tokens
  have other : ([.mark .leftParen, .keyword .nil, .mark .rightParen] : List Token) ≠
      [.keyword .nil] := by simp
  exact ⟨parsed, only,
    rejected.mpr ⟨_, _, List.mem_cons_self, ⟨init, rfl, rfl⟩, List.cons_ne_nil _ _, other⟩⟩

/-- The literal `nil` may be returned, so that not everything that is written behind a `return` of
an initializer is rejected. -/
theorem initializer_returns_literal :
    ¬ ∀ text stmts toks, parseProgram text = .ok stmts →
      (∀ path e, (⟨stmts⟩ : Program).Breach path e → e = .returnFromInitializer) →
      Item.tokens (scan text) = .ok toks →
      ((Program.ofStmts stmts).check = .error .returnFromInitializer ↔
        ∃ w r, (w, r) ∈ (writtenReturns toks).zip (Stmt.returnsAll none stmts) ∧
          r.InInitializer ∧ w ≠ []) := by
  intro every
  let init : FunctionDecl := ⟨"init", [], [.return .nil]⟩
  let stmts : List Stmt := [.classDecl ⟨"A", none, [init]⟩]
  have parsed : parseProgram "class A \x7b init() \x7b return nil; \x7d \x7d" = .ok stmts := by cbv
  have tokens : Item.tokens (scan "class A \x7b init() \x7b return nil; \x7d \x7d") =
      .ok [.keyword .cls, .identifier "A", .mark .leftCurly, .identifier "init", .mark .leftParen,
        .mark .rightParen, .mark .leftCurly, .keyword .return, .keyword .nil, .mark .semicolon,
        .mark .rightCurly, .mark .rightCurly] := by cbv
  have accepted : Judged (.whole ⟨stmts⟩) (.ok ()) := judged_program ⟨stmts⟩
  have rejected := (every _ stmts _ parsed
    (fun path e breach => absurd breach (accepted path e)) tokens).mpr
    ⟨_, _, List.mem_cons_self, ⟨init, rfl, rfl⟩, List.cons_ne_nil _ _⟩
  cases rejected

end Lox
