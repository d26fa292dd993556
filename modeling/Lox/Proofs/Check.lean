import Lox.Check

/-!
What it means for a part of a program to keep the rules, in terms of its own parts.
-/

namespace Lox.Check

/-- A check followed by another succeeds if both do. -/
theorem bind_eq_ok {ε α : Type} {x : Except ε Unit} {y : Except ε α} {a : α} :
    (x >>= fun _ => y) = .ok a ↔ x = .ok () ∧ y = .ok a := by
  cases x with
  | ok u =>
    constructor
    · intro h
      exact ⟨rfl, h⟩
    · intro h
      exact h.2
  | error e =>
    constructor
    · intro h
      cases h
    · intro h
      cases h.1

theorem bindingName_eq_ok {name : Name} :
    bindingName name = .ok () ↔ name.isReserved = false := by
  unfold bindingName
  cases name.isReserved <;> simp

theorem unreserved_of_params {seen ps : List Name} (h : params seen ps = .ok ()) :
    ∀ param ∈ ps, Name.isReserved param = false := by
  induction ps generalizing seen with
  | nil => simp
  | cons param rest ih =>
    unfold params at h
    rw [bind_eq_ok, bindingName_eq_ok] at h
    obtain ⟨unreserved, h⟩ := h
    split at h
    · cases h
    · intro other mem
      rcases List.mem_cons.mp mem with rfl | mem
      · exact unreserved
      · exact ih h other mem

theorem this_eq_ok {cls : ClassKind} : this cls = .ok () ↔ cls ≠ .none := by
  cases cls <;> simp [this]

theorem super_eq_ok {cls : ClassKind} : super cls = .ok () ↔ cls = .derived := by
  cases cls <;> simp [super]

theorem exprs_cons_eq_ok {cls : ClassKind} {e : Expr} {rest : List Expr} :
    exprs cls (e :: rest) = .ok () ↔ expr cls e = .ok () ∧ exprs cls rest = .ok () := by
  rw [exprs, bind_eq_ok]

theorem returned_ne_ok_none {e : Expr} : returned .none e ≠ .ok () := by
  intro h
  cases h

/-- A declared name is neither that of a parameter nor one declared before. -/
theorem declaration_eq_ok {ps declared : List Name} {name? : Option Name} :
    declaration ps declared name? = .ok () ↔
      ∀ name, name? = some name → name ∉ ps ∧ name ∉ declared := by
  cases name? with
  | none => simp [declaration]
  | some name =>
    unfold declaration
    by_cases param : name ∈ ps
    · simp [param]
    · by_cases again : name ∈ declared <;> simp [param, again]

theorem block_cons_eq_ok {place : Place} {ps declared : List Name} {s : Stmt}
    {rest : List Stmt} :
    block place ps declared (s :: rest) = .ok () ↔
      declaration ps declared s.declaredName? = .ok () ∧ stmt place s = .ok () ∧
        block place ps (s.declaredName?.toList ++ declared) rest = .ok () := by
  rw [block, bind_eq_ok, bind_eq_ok]

theorem function_eq_ok {cls : ClassKind} {kind : FunctionKind} {decl : FunctionDecl} :
    function cls kind decl = .ok () ↔
      decl.name.isReserved = false ∧ params [] decl.params = .ok () ∧
        block ⟨kind, cls⟩ decl.params [] decl.body = .ok () := by
  obtain ⟨name, ps, body⟩ := decl
  rw [function, bind_eq_ok, bind_eq_ok, bindingName_eq_ok]

theorem function_of_methods {cls : ClassKind} {ms : List FunctionDecl}
    (h : methods cls ms = .ok ()) :
    ∀ m ∈ ms, function cls (.ofMethod m.name) m = .ok () := by
  induction ms with
  | nil => simp
  | cons first rest ih =>
    rw [methods, bind_eq_ok] at h
    intro m mem
    rcases List.mem_cons.mp mem with rfl | mem
    · exact h.1
    · exact ih h.2 m mem

theorem classDecl_eq_ok {decl : ClassDecl} :
    classDecl decl = .ok () ↔
      decl.name.isReserved = false ∧ decl.superclass ≠ some decl.name ∧
        methods (.ofSuperclass decl.superclass) decl.methods = .ok () := by
  obtain ⟨name, superclass, ms⟩ := decl
  rw [classDecl, bind_eq_ok, bindingName_eq_ok]
  dsimp only
  by_cases same : superclass = some name
  · simp [same]
  · simp [same]

theorem stmts_cons_eq_ok {s : Stmt} {rest : List Stmt} :
    stmts (s :: rest) = .ok () ↔ stmt .topLevel s = .ok () ∧ stmts rest = .ok () := by
  rw [stmts, bind_eq_ok]

theorem stmts_append_eq_ok {tree tree' : List Stmt} :
    stmts (tree ++ tree') = .ok () ↔ stmts tree = .ok () ∧ stmts tree' = .ok () := by
  induction tree with
  | nil => exact ⟨fun h => ⟨rfl, h⟩, fun h => h.2⟩
  | cons s rest ih => rw [List.cons_append, stmts_cons_eq_ok, stmts_cons_eq_ok, ih, and_assoc]

end Lox.Check
