import Lox.Desugar

/-!
The parts of a program.

A program is a tree of parts, whose own parts are listed in the order they are visited: the name of
a declaration first, then parameters, then the body. A part contains whatever stands in it at any
depth (`Part.Contains`). The parts of a part are smaller than it, so that what passes from the parts
to the whole holds of every part (`Part.induction`).
-/

namespace Lox

/-! ### The parts of a part -/

/-- A part of a program. -/
inductive Part where
  | program (stmts : List Stmt)
  | stmt (s : Stmt)
  | expr (e : Expr)
  | function (decl : FunctionDecl)
  | method (decl : FunctionDecl)
  | cls (decl : ClassDecl)
  /-- The name that a declaration gives to a variable, a function, a method or a class. -/
  | binder (name : Name)
  | param (name : Name)
  | superclass (name : Name)

/-- The expressions directly in an expression. -/
def Expr.parts : Expr → List Expr
  | .nil | .number _ | .bool _ | .string _ | .var _ | .this | .super _ => []
  | .unary _ operand => [operand]
  | .binary _ left right => [left, right]
  | .logic _ left right => [left, right]
  | .group e => [e]
  | .assign _ value => [value]
  | .call callee args => callee :: args
  | .get object _ => [object]
  | .set object _ value => [object, value]

/-- The parts directly in a statement. -/
def Stmt.parts : Stmt → List Part
  | .nop => []
  | .expr e => [.expr e]
  | .print e => [.expr e]
  | .varDecl name init => [.binder name, .expr init]
  | .funDecl decl => [.function decl]
  | .classDecl decl => [.cls decl]
  | .block body => body.map .stmt
  | .ite cond thenBranch elseBranch => [.expr cond, .stmt thenBranch, .stmt elseBranch]
  | .while cond body => [.expr cond, .stmt body]
  | .for init cond incr body =>
    init.toList.map .stmt ++ (cond.toList.map .expr ++ (incr.toList.map .expr ++ [.stmt body]))
  | .return value => [.expr value]

/-- The parts directly in a function or method. -/
def FunctionDecl.parts (decl : FunctionDecl) : List Part :=
  .binder decl.name :: (decl.params.map .param ++ decl.body.map .stmt)

/-- The parts directly in a part. -/
def Part.parts : Part → List Part
  | .program stmts => stmts.map .stmt
  | .stmt s => s.parts
  | .expr e => e.parts.map .expr
  | .function decl => decl.parts
  | .method decl => decl.parts
  | .cls decl =>
    .binder decl.name :: (decl.superclass.toList.map .superclass ++ decl.methods.map .method)
  | .binder _ | .param _ | .superclass _ => []

/-! ### What stands in a part -/

/-- A part is another one or stands in it, at any depth. -/
inductive Part.Contains : Part → Part → Prop where
  | self {p} : Contains p p
  | inner {p q r : Part} : q ∈ p.parts → Contains q r → Contains p r

namespace Part

variable {p q r : Part}

theorem contains_iff : p.Contains r ↔ p = r ∨ ∃ q ∈ p.parts, q.Contains r := by
  constructor
  · intro h
    cases h with
    | self => exact .inl rfl
    | inner mem h => exact .inr ⟨_, mem, h⟩
  · rintro (rfl | ⟨q, mem, h⟩)
    · exact .self
    · exact .inner mem h

/-- A part with the property stands in another one. -/
def Somewhere (Q : Part → Prop) (p : Part) : Prop := ∃ r, p.Contains r ∧ Q r

/-- All that stands in a part has the property. -/
def Everywhere (Q : Part → Prop) (p : Part) : Prop := ∀ r, p.Contains r → Q r

theorem somewhere_iff {Q : Part → Prop} :
    p.Somewhere Q ↔ Q p ∨ ∃ q ∈ p.parts, q.Somewhere Q := by
  constructor
  · rintro ⟨r, h, found⟩
    rcases contains_iff.mp h with rfl | ⟨q, mem, h⟩
    · exact .inl found
    · exact .inr ⟨q, mem, r, h, found⟩
  · rintro (found | ⟨q, mem, r, h, found⟩)
    · exact ⟨p, .self, found⟩
    · exact ⟨r, .inner mem h, found⟩

theorem everywhere_iff {Q : Part → Prop} :
    p.Everywhere Q ↔ Q p ∧ ∀ q ∈ p.parts, q.Everywhere Q := by
  constructor
  · intro h
    exact ⟨h p .self, fun q mem r inside => h r (.inner mem inside)⟩
  · rintro ⟨here, inside⟩ r h
    rcases contains_iff.mp h with rfl | ⟨q, mem, h⟩
    · exact here
    · exact inside q mem r h

/-- Only expressions stand in an expression. -/
theorem contains_expr {e : Expr} (h : (Part.expr e).Contains r) : ∃ f, r = .expr f := by
  generalize same : Part.expr e = p at h
  induction h generalizing e with
  | self => exact ⟨e, same.symm⟩
  | inner mem _ ih =>
    subst same
    obtain ⟨f, -, rfl⟩ := List.mem_map.mp mem
    exact ih rfl

/-! ### Induction on parts -/

section

variable {α : Type} [SizeOf α] {mk : α → Part} {n : Nat}

theorem sizeOf_of_mem_list {items : List α} (wraps : ∀ a, sizeOf (mk a) = 1 + sizeOf a)
    (bound : 1 + sizeOf items ≤ n) (mem : q ∈ items.map mk) : sizeOf q < n := by
  obtain ⟨a, item, rfl⟩ := List.mem_map.mp mem
  have inside := List.sizeOf_lt_of_mem item
  rw [wraps]
  omega

theorem sizeOf_of_mem_option {item : Option α} (wraps : ∀ a, sizeOf (mk a) = 1 + sizeOf a)
    (bound : sizeOf item < n) (mem : q ∈ item.toList.map mk) : sizeOf q < n := by
  cases item with
  | none => cases mem
  | some a =>
    obtain rfl := List.mem_singleton.mp mem
    rw [wraps]
    exact bound

end

theorem sizeOf_of_mem_expr {e f : Expr} (mem : f ∈ e.parts) : sizeOf f < sizeOf e := by
  cases e with
  | call callee args =>
    rw [Expr.call.sizeOf_spec]
    rcases List.mem_cons.mp mem with rfl | mem
    · omega
    · have inside := List.sizeOf_lt_of_mem mem
      omega
  | _ => simp only [Expr.parts, List.mem_cons, List.not_mem_nil] at mem <;> grind

theorem sizeOf_of_mem_stmt {s : Stmt} (mem : q ∈ s.parts) : sizeOf q < 1 + sizeOf s := by
  cases s with
  | block body =>
    rw [Stmt.block.sizeOf_spec]
    exact sizeOf_of_mem_list (fun _ => rfl) (by omega) mem
  | «for» init cond incr body =>
    rw [Stmt.for.sizeOf_spec]
    simp only [Stmt.parts, List.mem_append, List.mem_singleton] at mem
    rcases mem with mem | mem | mem | rfl
    · exact sizeOf_of_mem_option (fun _ => rfl) (by omega) mem
    · exact sizeOf_of_mem_option (fun _ => rfl) (by omega) mem
    · exact sizeOf_of_mem_option (fun _ => rfl) (by omega) mem
    · rw [stmt.sizeOf_spec]
      omega
  | _ => simp only [Stmt.parts, List.mem_cons, List.not_mem_nil] at mem <;> grind

theorem sizeOf_of_mem_function {decl : FunctionDecl} (mem : q ∈ decl.parts) :
    sizeOf q < 1 + sizeOf decl := by
  obtain ⟨name, params, body⟩ := decl
  rw [FunctionDecl.mk.sizeOf_spec]
  simp only [FunctionDecl.parts, List.mem_cons, List.mem_append] at mem
  rcases mem with rfl | mem | mem
  · rw [binder.sizeOf_spec]
    omega
  · exact sizeOf_of_mem_list (fun _ => rfl) (by omega) mem
  · exact sizeOf_of_mem_list (fun _ => rfl) (by omega) mem

theorem sizeOf_of_mem_parts (mem : q ∈ p.parts) : sizeOf q < sizeOf p := by
  cases p with
  | program stmts =>
    rw [program.sizeOf_spec]
    exact sizeOf_of_mem_list (fun _ => rfl) (Nat.le_refl _) mem
  | stmt s => exact sizeOf_of_mem_stmt mem
  | expr e =>
    obtain ⟨f, inside, rfl⟩ := List.mem_map.mp mem
    exact Nat.add_lt_add_left (sizeOf_of_mem_expr inside) 1
  | function decl => exact sizeOf_of_mem_function mem
  | method decl => exact sizeOf_of_mem_function mem
  | cls decl =>
    obtain ⟨name, superclass, methods⟩ := decl
    rw [cls.sizeOf_spec, ClassDecl.mk.sizeOf_spec]
    simp only [parts, List.mem_cons, List.mem_append] at mem
    rcases mem with rfl | mem | mem
    · rw [binder.sizeOf_spec]
      omega
    · exact sizeOf_of_mem_option (fun _ => rfl) (by omega) mem
    · exact sizeOf_of_mem_list (fun _ => rfl) (by omega) mem
  | _ => cases mem

/-- What holds of a part whenever it holds of the parts in it holds of every part. -/
theorem induction {motive : Part → Prop} (step : ∀ p, (∀ q ∈ p.parts, motive q) → motive p)
    (p : Part) : motive p :=
  step p fun q _ => induction step q
termination_by sizeOf p
decreasing_by exact sizeOf_of_mem_parts ‹_›

end Part

end Lox
