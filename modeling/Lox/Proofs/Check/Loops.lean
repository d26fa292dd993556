import Lox.Proofs.Rules

/-!
The rules of a program before and after its loops are replaced.

The check goes through a loop as it is written: initialiser, condition, increment, body. What the
loop is replaced by has the increment behind the body, and blocks around them which the loop does
not have; a block with one statement that can declare a name has nothing to object to. So the same
programs are accepted. They are also rejected for the same rule, unless the two orders matter: a
loop is contested if a rule is broken in its increment and another one in its body. The main
statement is `check_ofStmts`.
-/

namespace Lox

open Check

/-! ### Contested loops -/

namespace Site

/-- A loop with a rule broken in its increment and a rule broken in its body. -/
inductive Contested : Site → Prop where
  | loop {init cond incr body before around path path' e e'} :
      Breach ⟨.expr incr, init.toList.map .stmt ++ cond.toList.map .expr,
        .stmt (.for init cond (some incr) body) :: around⟩ path e →
      Breach ⟨.stmt body, init.toList.map .stmt ++ (cond.toList.map .expr ++ [.expr incr]),
        .stmt (.for init cond (some incr) body) :: around⟩ path' e' →
      Contested ⟨.stmt (.for init cond (some incr) body), before, around⟩

/-- No loop at a site or under it is contested. -/
def Uncontested (s : Site) : Prop := ∀ path t, s.at? path = some t → ¬ t.Contested

/-- No loop is contested in the last parts of a part, behind those of `before`. -/
def UncontestedIn (around before rest : List Part) : Prop :=
  ∀ i part, rest[i]? = some part → Uncontested ⟨part, before ++ rest.take i, around⟩

variable {s : Site} {part : Part} {around before front rest : List Part}

theorem Uncontested.here (h : s.Uncontested) : ¬ s.Contested := h [] s rfl

theorem Uncontested.parts (h : s.Uncontested) :
    UncontestedIn (s.part :: s.around) [] s.part.parts := by
  intro i part found path t reached
  have stands : s.inner? i = some ⟨part, s.part.parts.take i, s.part :: s.around⟩ := by
    rw [inner?, found, Option.map_some]
  exact h (i :: path) t (by rw [at?, stands]; exact reached)

theorem UncontestedIn.drop (h : UncontestedIn around before (front ++ rest)) :
    UncontestedIn around (before ++ front) rest := by
  intro i part found
  have behind : (front ++ rest)[front.length + i]? = some part := by
    rw [List.getElem?_append_right (Nat.le_add_right _ _), Nat.add_sub_cancel_left, found]
  have site := h (front.length + i) part behind
  rwa [List.take_length_add_append, ← List.append_assoc] at site

theorem UncontestedIn.head (h : UncontestedIn around before (part :: rest)) :
    Uncontested ⟨part, before, around⟩ := by
  have first := h 0 part rfl
  rwa [List.take_zero, List.append_nil] at first

theorem UncontestedIn.tail (h : UncontestedIn around before (part :: rest)) :
    UncontestedIn around (before ++ [part]) rest :=
  (show UncontestedIn around before ([part] ++ rest) from h).drop

theorem uncontestedIn_nil : UncontestedIn around before [] := by
  intro i part found
  cases found

theorem UncontestedIn.cons (first : Uncontested ⟨part, before, around⟩)
    (others : UncontestedIn around (before ++ [part]) rest) :
    UncontestedIn around before (part :: rest) := by
  intro i other found
  cases i with
  | zero =>
    cases found
    rwa [List.take_zero, List.append_nil]
  | succ i =>
    have site := others i other found
    rwa [List.append_assoc] at site

theorem Uncontested.intro (here : ¬ s.Contested)
    (parts : UncontestedIn (s.part :: s.around) [] s.part.parts) : s.Uncontested := by
  intro path t reached
  cases path with
  | nil =>
    cases reached
    exact here
  | cons i path =>
    obtain ⟨inner, stands, reached⟩ := Option.bind_eq_some_iff.mp reached
    obtain ⟨part, found, rfl⟩ := Option.map_eq_some_iff.mp stands
    exact parts i part found path t reached

end Site

open Site

/-- A loop of the program is contested. -/
def Program.Contested (program : Program) : Prop :=
  ∃ path t, (Site.whole program).at? path = some t ∧ t.Contested

/-- A verdict that rejects is about a rule that is broken. -/
theorem Judged.exists_breach {s : Site} {v : Except SemanticError Unit} (h : Judged s v)
    (rejected : v ≠ .ok ()) : ∃ path e, s.Breach path e := by
  cases v with
  | ok => exact absurd rfl rejected
  | error e =>
    obtain ⟨path, breach, -⟩ := h
    exact ⟨path, e, breach⟩

/-! ### Two verdicts -/

theorem FunctionDecl.desugar_name (decl : FunctionDecl) : decl.desugar.name = decl.name := by
  cases decl
  rfl

/-- A loop declares nothing, and neither does what replaces it. -/
theorem Stmt.declaredName?_desugar (s : Stmt) : s.desugar.declaredName? = s.declaredName? := by
  cases s with
  | funDecl decl => exact congrArg some decl.desugar_name
  | classDecl decl => cases decl; rfl
  | «for» init _ _ _ => cases init <;> rfl
  | _ => rfl

namespace Check

/-- The verdicts accept the same, and under the condition they are the same. -/
structure Alike (clear : Prop) (v w : Except SemanticError Unit) : Prop where
  accepts : v = .ok () ↔ w = .ok ()
  same : clear → v = w

section

variable {clear clear' : Prop} {v v' w w' x : Except SemanticError Unit}

theorem Alike.refl (v : Except SemanticError Unit) : Alike clear v v := ⟨.rfl, fun _ => rfl⟩

theorem Alike.of (imp : clear' → clear) (h : Alike clear v w) : Alike clear' v w :=
  ⟨h.accepts, fun holds => h.same (imp holds)⟩

theorem Alike.bind (first : Alike clear v w) (next : Alike clear v' w') :
    Alike clear (do v; v') (do w; w') where
  accepts := by rw [bind_eq_ok, bind_eq_ok, first.accepts, next.accepts]
  same holds := by rw [first.same holds, next.same holds]

/-- Two checks may change places if not both of them fail. -/
theorem Alike.swap (h : Alike clear v w) (one : clear → x = .ok () ∨ v = .ok ()) :
    Alike clear (do x; v) (do w; x) where
  accepts := by rw [bind_eq_ok, bind_eq_ok, h.accepts, and_comm]
  same holds := by
    rw [← h.same holds]
    rcases one holds with rfl | rfl
    · cases v <;> rfl
    · cases x <;> rfl

end

/-! ### The parts of a loop -/

theorem bind_ok (v : Except SemanticError Unit) : (do v; Except.ok ()) = v := by
  cases v <;> rfl

/-- What comes first in a block may declare any name. -/
theorem stmt_block_cons (place : Place) (s : Stmt) (rest : List Stmt) :
    stmt place (.block (s :: rest)) = (do
      stmt place s
      block place [] (s.declaredName?.toList ++ []) rest) := by
  rw [stmt, block]
  cases s.declaredName? <;> rfl

/-- What a loop is replaced by is checked in the order in which it is carried out. -/
theorem stmt_ofFor (place : Place) (init : Option Stmt) (cond incr : Option Expr) (body : Stmt) :
    stmt place (.ofFor init cond incr body) = (do
      stmt? place init
      expr? place.cls cond
      stmt place body
      expr? place.cls incr) := by
  have condition : expr place.cls (cond.getD (.bool true)) = expr? place.cls cond := by
    cases cond <;> rfl
  have step : ∀ declared e, block place [] declared [.expr e] = expr place.cls e :=
    fun _ e => bind_ok (expr place.cls e)
  have last : ∀ declared cond body,
      block place [] declared [.while cond body] = stmt place (.while cond body) :=
    fun _ cond body => bind_ok (stmt place (.while cond body))
  have loop : ∀ rest, stmt place (.while (cond.getD (.bool true)) (.block (body :: rest))) = (do
      expr? place.cls cond
      stmt place body
      block place [] (body.declaredName?.toList ++ []) rest) := fun rest => by
    rw [stmt, stmt_block_cons, condition]
  cases init with
  | none => cases incr <;> simp only [Stmt.ofFor, loop, step] <;> rfl
  | some first =>
    cases incr <;> simp only [Stmt.ofFor, stmt_block_cons, last, loop, step] <;> rfl

section

variable {before around : List Part}

/-- If a loop is not contested, its increment or its body is accepted. -/
theorem increment_or_body {init : Option Stmt} {cond incr : Option Expr} {body : Stmt}
    (h : ¬ Contested ⟨.stmt (.for init cond incr body), before, around⟩) :
    expr? (classKind around) incr = .ok () ∨ stmt (placeIn around) body = .ok () := by
  cases incr with
  | none => exact .inl rfl
  | some e =>
    by_cases increment : expr (classKind around) e = .ok ()
    · exact .inl increment
    by_cases inside : stmt (placeIn around) body = .ok ()
    · exact .inr inside
    have first : ∀ before,
        Judged ⟨.expr e, before, .stmt (.for init cond (some e) body) :: around⟩
          (expr (classKind around) e) := fun _ => judged_expr e
    have second : ∀ before,
        Judged ⟨.stmt body, before, .stmt (.for init cond (some e) body) :: around⟩
          (stmt (placeIn around) body) := fun _ => judged_stmt body (settles_elsewhere rfl)
    obtain ⟨_, _, breach⟩ := (first _).exists_breach increment
    obtain ⟨_, _, breach'⟩ := (second _).exists_breach inside
    exact absurd (.loop breach breach') h

end

/-! ### Whole trees -/

mutual

theorem alike_stmt : ∀ (s : Stmt) {before around : List Part},
    Alike (Uncontested ⟨.stmt s, before, around⟩) (stmt (placeIn around) s)
      (stmt (placeIn around) s.desugar)
  | .nop, _, _ | .expr _, _, _ | .print _, _, _ | .varDecl _ _, _, _ | .return _, _, _ => .refl _
  | .funDecl decl, _, _ => (alike_function decl).of fun h => h.parts.head
  | .classDecl decl, _, _ => (alike_classDecl decl).of fun h => h.parts.head
  | .block body, _, _ => (alike_block body).of fun h => h.parts
  | .ite _ yes no, _, _ =>
    .bind (.refl _) (.bind ((alike_stmt yes).of fun h => h.parts.tail.head)
      ((alike_stmt no).of fun h => h.parts.tail.tail.head))
  | .while _ body, _, _ => .bind (.refl _) ((alike_stmt body).of fun h => h.parts.tail.head)
  | .for init cond incr body, _, _ => by
    rw [Stmt.desugar, stmt_ofFor, stmt]
    -- The initialiser is kept as it is, and so are the expressions; the body comes last.
    exact .bind (.refl _) (.bind (.refl _) (.swap
      ((alike_stmt body).of fun h => h.parts.drop.drop.drop.head)
      fun h => increment_or_body h.here))

theorem alike_block : ∀ (body : List Stmt) {before around : List Part}
    {params declared : List Name},
    Alike (UncontestedIn around before (body.map .stmt))
      (block (placeIn around) params declared body)
      (block (placeIn around) params declared (Stmt.desugarAll body))
  | [], _, _, _, _ => .refl _
  | s :: rest, _, _, _, _ => by
    rw [Stmt.desugarAll, block, block, Stmt.declaredName?_desugar]
    exact .bind (.refl _) (.bind ((alike_stmt s).of fun h => h.head)
      ((alike_block rest).of fun h => h.tail))

theorem alike_function : ∀ (decl : FunctionDecl) {before around : List Part},
    Alike (Uncontested ⟨.function decl, before, around⟩)
      (function (classKind around) .function decl)
      (function (classKind around) .function decl.desugar)
  | ⟨_, _, body⟩, _, _ =>
    .bind (.refl _) (.bind (.refl _) ((alike_block body).of fun h => h.parts.tail.drop))

theorem alike_method : ∀ (decl : FunctionDecl) {before around : List Part},
    Alike (Uncontested ⟨.method decl, before, around⟩)
      (function (classKind around) (.ofMethod decl.name) decl)
      (function (classKind around) (.ofMethod decl.name) decl.desugar)
  | ⟨_, _, body⟩, _, _ =>
    .bind (.refl _) (.bind (.refl _) ((alike_block body).of fun h => h.parts.tail.drop))

theorem alike_methods : ∀ (ms : List FunctionDecl) {before around : List Part},
    Alike (UncontestedIn around before (ms.map .method)) (methods (classKind around) ms)
      (methods (classKind around) (FunctionDecl.desugarAll ms))
  | [], _, _ => .refl _
  | m :: ms, _, _ => by
    rw [FunctionDecl.desugarAll, methods, methods, FunctionDecl.desugar_name]
    exact .bind ((alike_method m).of fun h => h.head) ((alike_methods ms).of fun h => h.tail)

theorem alike_classDecl : ∀ (decl : ClassDecl) {before around : List Part},
    Alike (Uncontested ⟨.cls decl, before, around⟩) (classDecl decl) (classDecl decl.desugar)
  | ⟨name, superclass, ms⟩, _, _ => by
    rw [ClassDecl.desugar, classDecl_eq, classDecl_eq]
    exact .bind (.refl _) (.bind (.refl _) ((alike_methods ms).of fun h => h.parts.tail.drop))

end

theorem alike_stmts : ∀ (tree : List Stmt) {whole : List Stmt} {before : List Part},
    Alike (UncontestedIn [.program whole] before (tree.map .stmt)) (stmts tree)
      (stmts (Stmt.desugarAll tree))
  | [], _, _ => .refl _
  | s :: rest, _, _ =>
    .bind ((alike_stmt s).of fun h => h.head) ((alike_stmts rest).of fun h => h.tail)

end Check

/-- Replacing the loops of some statements does not change whether they are accepted, and changes
the rule they are rejected for at most if one of the loops is contested. -/
theorem check_ofStmts (stmts : List Stmt) :
    ((⟨stmts⟩ : Program).check = .ok () ↔ (Program.ofStmts stmts).check = .ok ()) ∧
      (¬ (⟨stmts⟩ : Program).Contested →
        (⟨stmts⟩ : Program).check = (Program.ofStmts stmts).check) := by
  have alike : Alike (UncontestedIn [.program stmts] [] (stmts.map .stmt)) (Check.stmts stmts)
      (Check.stmts (Stmt.desugarAll stmts)) := alike_stmts stmts
  refine ⟨alike.accepts, fun clear => alike.same ?_⟩
  have uncontested : Uncontested (.whole ⟨stmts⟩) := fun path t reached contested =>
    clear ⟨path, t, reached, contested⟩
  exact uncontested.parts

/-- A loop with a misplaced `this` in its increment has another loop for its body, which redeclares
its variable. -/
theorem check_ofStmts_misplacedThis :
    let body : Stmt := .for none none none (.varDecl "a" .nil)
    let stmts : List Stmt := [.for (some (.varDecl "a" .nil)) none (some .this) body]
    ¬ (⟨stmts⟩ : Program).Contested ∧
      (⟨stmts⟩ : Program).check = .error .thisOutsideClass ∧
      (⟨stmts⟩ : Program).check = (Program.ofStmts stmts).check := by
  intro body stmts
  have decl : ∀ before around, Uncontested ⟨.stmt (.varDecl "a" .nil), before, around⟩ :=
    fun _ _ => .intro nofun (.cons (.intro nofun uncontestedIn_nil)
      (.cons (.intro nofun uncontestedIn_nil) uncontestedIn_nil))
  have inner : ∀ before around,
      Uncontested ⟨.stmt (.for none none none (.varDecl "a" .nil)), before, around⟩ :=
    fun _ _ => .intro nofun (.cons (decl _ _) uncontestedIn_nil)
  have outer : ∀ before around, ¬ Contested
      ⟨.stmt (.for (some (.varDecl "a" .nil)) none (some .this) body), before, around⟩ := by
    rintro before around ⟨-, breach⟩
    have accepted : ∀ before, Judged ⟨.stmt body, before,
        .stmt (.for (some (.varDecl "a" .nil)) none (some .this) body) :: around⟩ (.ok ()) :=
      fun _ => judged_stmt body (settles_elsewhere rfl)
    exact accepted _ _ _ breach
  have whole : Uncontested (.whole ⟨stmts⟩) := .intro nofun (.cons (.intro (outer _ _)
    (.cons (decl _ _) (.cons (.intro nofun uncontestedIn_nil)
      (.cons (inner _ _) uncontestedIn_nil)))) uncontestedIn_nil)
  have clear : ¬ (⟨stmts⟩ : Program).Contested := by
    rintro ⟨path, t, reached, contested⟩
    exact whole path t reached contested
  exact ⟨clear, rfl, (check_ofStmts stmts).2 clear⟩

/-- The two orders matter where a loop is contested. -/
example :
    let stmts : List Stmt :=
      [.for none none (some .this) (.block [.varDecl "a" .nil, .varDecl "a" .nil])]
    (⟨stmts⟩ : Program).check = .error .thisOutsideClass ∧
      (Program.ofStmts stmts).check = .error (.duplicateLocal "a") := ⟨rfl, rfl⟩

end Lox
