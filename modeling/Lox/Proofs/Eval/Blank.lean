import Lox.Proofs.Eval.Names

/-!
A frame without names makes no difference to the expressions in it.

An expression binds no name, so that a frame without names stays without them while an expression
in it is evaluated. What is looked up or assigned there is found in the frames around it. The main
statement is `sameOn_evalExpr`.
-/

namespace Lox

theorem Bindings.get?_eq_none {b : Bindings} {name : Name} (h : b.contains name = false) :
    b.get? name = none := by
  unfold Bindings.contains at h
  simpa using h

/-- The frame is there and binds no name. -/
structure Store.Blank (f : FrameId) (s : Store) : Prop where
  has : f < s.frames.size
  names : ∀ name, (s.frame f).contains name = false

namespace Store

variable {f : FrameId} {s s' : Store}

section

variable {name : Name} {front : List FrameId}
  (unbound : ∀ f ∈ front, (s.frame f).contains name = false) (chain : List FrameId)

include unbound

/-- Frames that do not bind a name are passed over. -/
theorem lookup?_append : s.lookup? name (front ++ chain) = s.lookup? name chain := by
  induction front with
  | nil => rfl
  | cons f front ih =>
    obtain ⟨here, others⟩ := List.forall_mem_cons.mp unbound
    rw [List.cons_append, Store.lookup?, Bindings.get?_eq_none here]
    exact ih others

theorem binder?_append : s.binder? name (front ++ chain) = s.binder? name chain := by
  unfold Store.binder?
  rw [List.find?_append, List.find?_eq_none.mpr (by simpa using unbound), Option.none_or]

end

theorem Blank.lookup? (h : s.Blank f) (name : Name) (scope : Scope) :
    s.lookup? name (Scope.mk f scope.chain).chain = s.lookup? name scope.chain := by
  have unbound : ∀ g ∈ [f], (s.frame g).contains name = false := by simpa using h.names name
  exact lookup?_append unbound scope.chain

theorem Blank.binder? (h : s.Blank f) (name : Name) (scope : Scope) :
    s.binder? name (Scope.mk f scope.chain).chain = s.binder? name scope.chain := by
  have unbound : ∀ g ∈ [f], (s.frame g).contains name = false := by simpa using h.names name
  exact binder?_append unbound scope.chain

theorem Blank.of_keeps {added : FrameId → Name → Prop} (h : s.Blank f) (keeps : s.Keeps added s')
    (none : ∀ name, ¬ added f name) : s'.Blank f :=
  ⟨Nat.lt_of_lt_of_le h.has keeps.size, fun name =>
    (keeps.contains_eq h.has (none name)).trans (h.names name)⟩

theorem blank_push (s : Store) (scope : Scope) : (s.push scope []).2.Blank s.frames.size := by
  refine ⟨?_, fun name => ?_⟩
  · rw [size_frames_push]
    exact Nat.lt_succ_self _
  · rw [frame_push, if_pos rfl]
    rfl

end Store

namespace Run

variable {α β : Type} {P : Store → Prop}

/-- The computations do the same on all stores with the property. -/
def SameOn (P : Store → Prop) (x y : Run α) : Prop := ∀ s, P s → x s = y s

theorem SameOn.refl (x : Run α) : SameOn P x x := fun _ _ => rfl

theorem sameOn_bind {x y : Run α} {f g : α → Run β} (first : SameOn P x y) (keeps : Preserves P x)
    (next : ∀ a, SameOn P (f a) (g a)) : SameOn P (x >>= f) (y >>= g) := by
  intro s h
  change andThen x f s = andThen y g s
  unfold andThen
  rw [← first s h]
  cases result : x s with
  | ok a s' => exact next a s' ((keeps s h).of_ok result)
  | error e s' => rfl
  | outOfFuel => rfl

/-- What comes next need not be looked at if it is the same. -/
theorem SameOn.bind {x y : Run α} (first : SameOn P x y) (f : α → Run β) :
    SameOn P (x >>= f) (y >>= f) := by
  intro s h
  change andThen x f s = andThen y f s
  unfold andThen
  rw [first s h]

theorem sameOn_ite {C : Prop} [Decidable C] {x y x' y' : Run α} (yes : SameOn P x y)
    (no : SameOn P x' y') : SameOn P (if C then x else x') (if C then y else y') := by
  split
  · exact yes
  · exact no

theorem sameOn_values {eval eval' : Expr → Run Value} (h : ∀ e, SameOn P (eval e) (eval' e))
    (keeps : ∀ e, Preserves P (eval e)) (es : List Expr) :
    SameOn P (values eval es) (values eval' es) := by
  induction es with
  | nil => exact .refl _
  | cons e es ih =>
    exact sameOn_bind (h e) (keeps e) fun v => ih.bind _

/-! ### In a frame without names -/

variable {f : FrameId} {scope : Scope}

theorem sameOn_get (name : Name) :
    SameOn (Store.Blank f) (get ⟨f, scope.chain⟩ name) (get scope name) := by
  intro s blank
  unfold get Store.get
  rw [blank.lookup? name scope]

theorem preserves_get (scope : Scope) (name : Name) : Preserves P (get scope name) := by
  intro s h
  unfold Ensures get Store.get
  cases s.lookup? name scope.chain <;> exact h

theorem sameOn_assign (name : Name) (value : Value) :
    SameOn (Store.Blank f) (assign ⟨f, scope.chain⟩ name value) (assign scope name value) := by
  intro s blank
  unfold assign Store.assign
  rw [blank.binder? name scope]

theorem preserves_blank_evalExpr (host : Host) (fuel : Nat) (scope : Scope) (e : Expr) :
    Preserves (Store.Blank f) (evalExpr host fuel scope e) := by
  intro s blank
  have keeps := ensures_keeps_evalExpr host fuel scope e s
  have still : ∀ s', s.Keeps Store.nothing s' → s'.Blank f :=
    fun s' h => blank.of_keeps h fun _ => id
  exact keeps.mono (fun _ => still) fun _ => still

/-- A statement that binds no name keeps all frames without names as they are. -/
theorem preserves_blank_exec (host : Host) (fuel : Nat) (scope : Scope) {stmt : Stmt}
    (nothing : stmt.boundNames = []) : Preserves (Store.Blank f) (exec host fuel scope stmt) := by
  intro s blank
  have keeps := ensures_keeps_exec host fuel scope stmt s
  rw [nothing] at keeps
  have still : ∀ s', s.Keeps (fun g name => g = scope.frame ∧ name ∈ []) s' → s'.Blank f :=
    fun s' h => blank.of_keeps h fun name added => List.not_mem_nil added.2
  exact keeps.mono (fun _ => still) fun _ => still

theorem sameOn_getSuperMethod (name : Name) :
    SameOn (Store.Blank f) (getSuperMethod ⟨f, scope.chain⟩ name) (getSuperMethod scope name) :=
  sameOn_bind (sameOn_get superName) (preserves_get _ superName) fun _ =>
    (sameOn_get thisName).bind _

/-- In a frame without names an expression is evaluated as in the scope around it. -/
theorem sameOn_evalExpr (host : Host) (fuel : Nat) (e : Expr) :
    SameOn (Store.Blank f) (evalExpr host fuel ⟨f, scope.chain⟩ e)
      (evalExpr host fuel scope e) := by
  induction fuel generalizing e with
  | zero => exact .refl _
  | succ fuel ih =>
    have keeps := preserves_blank_evalExpr (f := f) host fuel ⟨f, scope.chain⟩
    unfold evalExpr
    cases e with
    | var name => exact sameOn_get name
    | unary op operand => exact (ih operand).bind _
    | binary op left right =>
      refine sameOn_bind (ih left) (keeps left) fun _ => ?_
      exact (ih right).bind _
    | logic op left right =>
      exact sameOn_bind (ih left) (keeps left) fun _ => sameOn_ite (.refl _) (ih right)
    | group e => exact ih e
    | assign name value =>
      refine sameOn_bind (ih value) (keeps value) fun v => ?_
      exact (sameOn_assign name v).bind _
    | call callee args =>
      refine sameOn_bind (ih callee) (keeps callee) fun c => ?_
      exact (sameOn_values ih keeps args).bind _
    | get object name => exact (ih object).bind _
    | set object name value =>
      refine sameOn_bind (ih object) (keeps object) fun _ => ?_
      exact (ih value).bind _
    | this => exact sameOn_get thisName
    | super method => exact sameOn_getSuperMethod method
    | _ => exact .refl _

/-- In a frame without names an expression statement is executed as in the scope around it. -/
theorem sameOn_exec_expr (host : Host) (fuel : Nat) (e : Expr) :
    SameOn (Store.Blank f) (exec host fuel ⟨f, scope.chain⟩ (.expr e))
      (exec host fuel scope (.expr e)) := by
  cases fuel with
  | zero => exact .refl _
  | succ fuel =>
    unfold exec
    exact (sameOn_evalExpr host fuel e).bind _

end Run

end Lox
