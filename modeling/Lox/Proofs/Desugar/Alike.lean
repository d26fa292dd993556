import Mathlib.Data.List.Forall2
import Lox.Operator
import Lox.Proofs.Store
import Lox.Desugar

/-!
Values and stores that differ only in the loops of function bodies.

Two statements are alike if they are the same, or if one is the other with its loops replaced. What
is alike is then carried over to declarations, closures, classes, values and stores. Identities,
addresses and scopes are the same on both sides, so that everything a program can find out about a
value is the same too: its kind, its text, whether it counts as true, what it equals.
-/

namespace Lox

open List (Forall₂)

/-! ### Trees -/

/-- Two statements that are the same, or of which one is the other with its loops replaced. -/
inductive Stmt.Alike : Stmt → Stmt → Prop where
  | refl (stmt : Stmt) : Alike stmt stmt
  | desugared (stmt : Stmt) : Alike stmt stmt.desugar
  | sugared (stmt : Stmt) : Alike stmt.desugar stmt

/-- Two functions with the same head and alike bodies. -/
structure FunctionDecl.Alike (d d' : FunctionDecl) : Prop where
  name : d.name = d'.name
  params : d.params = d'.params
  body : Forall₂ Stmt.Alike d.body d'.body

/-- Two classes with the same head and alike methods. -/
structure ClassDecl.Alike (d d' : ClassDecl) : Prop where
  name : d.name = d'.name
  superclass : d.superclass = d'.superclass
  methods : Forall₂ FunctionDecl.Alike d.methods d'.methods

theorem Stmt.Alike.symm {s s' : Stmt} (h : s.Alike s') : s'.Alike s := by
  cases h with
  | refl => exact .refl _
  | desugared => exact .sugared _
  | sugared => exact .desugared _

theorem Stmt.alikeAll_refl (stmts : List Stmt) : Forall₂ Stmt.Alike stmts stmts :=
  List.forall₂_same.mpr fun stmt _ => .refl stmt

theorem Stmt.alike_desugarAll (stmts : List Stmt) :
    Forall₂ Stmt.Alike stmts (Stmt.desugarAll stmts) := by
  rw [desugarAll_eq_map, List.forall₂_map_right_iff, List.forall₂_same]
  exact fun stmt _ => .desugared stmt

theorem Stmt.alikeAll_symm {stmts stmts' : List Stmt} (h : Forall₂ Stmt.Alike stmts stmts') :
    Forall₂ Stmt.Alike stmts' stmts :=
  (h.imp fun _ _ alike => alike.symm).flip

theorem FunctionDecl.Alike.refl (d : FunctionDecl) : d.Alike d :=
  ⟨rfl, rfl, Stmt.alikeAll_refl _⟩

theorem FunctionDecl.Alike.symm {d d' : FunctionDecl} (h : d.Alike d') : d'.Alike d :=
  ⟨h.name.symm, h.params.symm, Stmt.alikeAll_symm h.body⟩

theorem FunctionDecl.alike_desugar (d : FunctionDecl) : d.Alike d.desugar := by
  obtain ⟨name, params, body⟩ := d
  exact ⟨rfl, rfl, Stmt.alike_desugarAll body⟩

theorem ClassDecl.Alike.refl (d : ClassDecl) : d.Alike d :=
  ⟨rfl, rfl, List.forall₂_same.mpr fun m _ => .refl m⟩

theorem ClassDecl.alike_desugar (d : ClassDecl) : d.Alike d.desugar := by
  obtain ⟨name, superclass, methods⟩ := d
  refine ⟨rfl, rfl, ?_⟩
  change Forall₂ FunctionDecl.Alike methods (FunctionDecl.desugarAll methods)
  rw [FunctionDecl.desugarAll_eq_map, List.forall₂_map_right_iff, List.forall₂_same]
  exact fun m _ => m.alike_desugar

theorem ClassDecl.Alike.symm {d d' : ClassDecl} (h : d.Alike d') : d'.Alike d :=
  ⟨h.name.symm, h.superclass.symm, (h.methods.imp fun _ _ alike => alike.symm).flip⟩

/-! ### Values -/

/-- Two closures over the same scope with alike declarations. -/
structure Closure.Alike (f f' : Closure) : Prop where
  decl : f.decl.Alike f'.decl
  scope : f.scope = f'.scope
  isInitializer : f.isInitializer = f'.isInitializer

/-- Two class bodies of the same identity and name with alike methods. -/
structure ClassBody.Alike (c c' : ClassBody) : Prop where
  id : c.id = c'.id
  name : c.name = c'.name
  methods : Forall₂ Closure.Alike c.methods c'.methods

/-- Two classes that are alike all the way up. -/
structure Class.Alike (c c' : Class) : Prop where
  body : c.body.Alike c'.body
  ancestors : Forall₂ ClassBody.Alike c.ancestors c'.ancestors

/-- Two instances at the same address. -/
structure Object.Alike (o o' : Object) : Prop where
  cls : o.cls.Alike o'.cls
  address : o.address = o'.address

/-- Two values that are the same up to what is alike. -/
inductive Value.Alike : Value → Value → Prop where
  | nil : Alike .nil .nil
  | bool (b : Bool) : Alike (.bool b) (.bool b)
  | number (x : Float) : Alike (.number x) (.number x)
  | string (s : String) : Alike (.string s) (.string s)
  | function (id : Nat) {f f' : Closure} : f.Alike f' → Alike (.function id f) (.function id f')
  | native (f : Native) : Alike (.native f) (.native f)
  | cls {c c' : Class} : c.Alike c' → Alike (.cls c) (.cls c')
  | object {o o' : Object} : o.Alike o' → Alike (.object o) (.object o')

theorem Closure.Alike.refl (f : Closure) : f.Alike f := ⟨.refl _, rfl, rfl⟩

theorem Closure.Alike.symm {f f' : Closure} (h : f.Alike f') : f'.Alike f :=
  ⟨h.decl.symm, h.scope.symm, h.isInitializer.symm⟩

theorem Closure.Alike.arity {f f' : Closure} (h : f.Alike f') : f.arity = f'.arity := by
  unfold Closure.arity
  rw [h.decl.params]

theorem ClassBody.Alike.refl (c : ClassBody) : c.Alike c :=
  ⟨rfl, rfl, List.forall₂_same.mpr fun m _ => .refl m⟩

theorem ClassBody.Alike.symm {c c' : ClassBody} (h : c.Alike c') : c'.Alike c :=
  ⟨h.id.symm, h.name.symm, (h.methods.imp fun _ _ alike => alike.symm).flip⟩

theorem Class.Alike.refl (c : Class) : c.Alike c :=
  ⟨.refl _, List.forall₂_same.mpr fun b _ => .refl b⟩

theorem Class.Alike.symm {c c' : Class} (h : c.Alike c') : c'.Alike c :=
  ⟨h.body.symm, (h.ancestors.imp fun _ _ alike => alike.symm).flip⟩

theorem Class.Alike.lineage {c c' : Class} (h : c.Alike c') :
    Forall₂ ClassBody.Alike c.lineage c'.lineage :=
  .cons h.body h.ancestors

theorem Class.Alike.name {c c' : Class} (h : c.Alike c') : c.name = c'.name := h.body.name

/-! The methods of alike classes are found under the same names. -/

theorem rel_cases {α : Type} {R : α → α → Prop} {o o' : Option α} (h : Option.Rel R o o') :
    o = none ∧ o' = none ∨ ∃ a a', o = some a ∧ o' = some a' ∧ R a a' := by
  cases h with
  | none => exact .inl ⟨rfl, rfl⟩
  | some related => exact .inr ⟨_, _, rfl, rfl, related⟩

theorem head?_alike {α : Type} {R : α → α → Prop} {l l' : List α} (h : Forall₂ R l l') :
    Option.Rel R l.head? l'.head? := by
  cases h with
  | nil => exact .none
  | cons first _ => exact .some first

theorem ClassBody.Alike.method? {c c' : ClassBody} (h : c.Alike c') (name : Name) :
    Option.Rel Closure.Alike (c.method? name) (c'.method? name) := by
  unfold ClassBody.method?
  rw [List.getLast?_eq_head?_reverse, List.getLast?_eq_head?_reverse]
  refine head?_alike (List.rel_reverse (List.rel_filter ?_ h.methods))
  intro f f' alike
  simp only [alike.decl.name]

theorem Class.Alike.method? {c c' : Class} (h : c.Alike c') (name : Name) :
    Option.Rel Closure.Alike (c.method? name) (c'.method? name) := by
  unfold Class.method?
  rw [← List.head?_filterMap, ← List.head?_filterMap]
  exact head?_alike (List.rel_filterMap (fun _ _ alike => alike.method? name) h.lineage)

theorem Class.Alike.arity {c c' : Class} (h : c.Alike c') (name : Name) :
    c.arity name = c'.arity name := by
  unfold Class.arity
  rcases rel_cases (h.method? name) with ⟨found, found'⟩ | ⟨m, m', found, found', alike⟩
  · rw [found, found']
  · rw [found, found']
    exact alike.arity

/-! What a program can find out about a value. -/

namespace Value

theorem Alike.refl (v : Value) : v.Alike v := by
  cases v with
  | function id f => exact .function id (.refl f)
  | cls c => exact .cls (.refl c)
  | object o => exact .object ⟨.refl _, rfl⟩
  | _ => constructor

theorem Alike.symm {v v' : Value} (h : v.Alike v') : v'.Alike v := by
  cases h with
  | function id alike => exact .function id alike.symm
  | cls alike => exact .cls alike.symm
  | object alike => exact .object ⟨alike.cls.symm, alike.address.symm⟩
  | _ => constructor

variable {v v' w w' : Value}

theorem Alike.kind (h : v.Alike v') : v.kind = v'.kind := by
  cases h <;> rfl

theorem Alike.isTruthy (h : v.Alike v') : v.isTruthy = v'.isTruthy := by
  cases h <;> rfl

/-- Values that are alike show the same. -/
theorem Alike.text (h : v.Alike v') : v.text = v'.text := by
  cases h with
  | function id alike => simp only [Value.text, alike.decl.name]
  | cls alike => exact alike.name
  | object alike => simp only [Value.text, alike.cls.name]
  | _ => rfl

theorem Alike.equals (h : v.Alike v') (h' : w.Alike w') : v.equals w = v'.equals w' := by
  cases h <;> cases h' <;> try rfl
  case cls.cls alike _ _ alike' => simp only [Value.equals, alike.body.id, alike'.body.id]
  case object.object alike _ _ alike' => simp only [Value.equals, alike.address, alike'.address]

theorem Alike.onNumbers (h : v.Alike v') (h' : w.Alike w') (f : Float → Float → Value) :
    onNumbers f v w = onNumbers f v' w' := by
  cases h <;> cases h' <;> rfl

theorem Alike.add (h : v.Alike v') (h' : w.Alike w') : Value.add v w = Value.add v' w' := by
  cases h <;> cases h' <;> rfl

theorem Alike.div (h : v.Alike v') (h' : w.Alike w') : Value.div v w = Value.div v' w' := by
  cases h <;> cases h' <;> rfl

end Value

theorem BinaryOp.apply_alike {v v' w w' : Value} (op : BinaryOp) (h : v.Alike v')
    (h' : w.Alike w') : op.apply v w = op.apply v' w' := by
  cases op with
  | equal | notEqual => simp only [BinaryOp.apply, h.equals h']
  | add => exact h.add h'
  | div => exact h.div h'
  | _ => exact h.onNumbers h' _

theorem UnaryOp.apply_alike {v v' : Value} (op : UnaryOp) (h : v.Alike v') :
    op.apply v = op.apply v' := by
  cases op with
  | not => simp only [UnaryOp.apply, h.isTruthy]
  | minus => cases h <;> rfl

theorem LogicOp.stopsAt_alike {v v' : Value} (op : LogicOp) (h : v.Alike v') :
    op.stopsAt v = op.stopsAt v' := by
  cases op <;> simp only [LogicOp.stopsAt, h.isTruthy]

theorem Builtin.numbers?_alike {args args' : List Value} (h : Forall₂ Value.Alike args args') :
    numbers? args = numbers? args' := by
  induction h with
  | nil => rfl
  | cons first _ ih => cases first <;> simp only [numbers?, ih]

theorem Builtin.apply_alike {args args' : List Value} (time : Float) (b : Builtin)
    (h : Forall₂ Value.Alike args args') : b.apply time args = b.apply time args' := by
  have kinds : args.map Value.kind = args'.map Value.kind := by
    rw [← List.forall₂_eq_eq_eq, List.forall₂_map_left_iff, List.forall₂_map_right_iff]
    exact h.imp fun _ _ alike => alike.kind
  unfold Builtin.apply mismatch
  rw [numbers?_alike h, kinds]

/-! ### Stores -/

/-- Bindings of the same names to alike values. -/
def Bindings.Alike (b b' : Bindings) : Prop :=
  Forall₂ (fun e e' => e.1 = e'.1 ∧ e.2.Alike e'.2) b b'

/-- Two stores with the same frames and instances, in which alike values are bound. -/
structure Store.Alike (s s' : Store) : Prop where
  frameCount : s.frames.size = s'.frames.size
  frame : ∀ f, (s.frame f).Alike (s'.frame f)
  fieldCount : s.fields.size = s'.fields.size
  fields : ∀ o, (s.fieldsOf o).Alike (s'.fieldsOf o)
  nextId : s.nextId = s'.nextId
  moment : s.moment = s'.moment
  output : s.output = s'.output

namespace Bindings

theorem Alike.refl (b : Bindings) : b.Alike b :=
  List.forall₂_same.mpr fun e _ => ⟨rfl, .refl e.2⟩

variable {b b' : Bindings} {v v' : Value}

theorem Alike.symm (h : b.Alike b') : b'.Alike b :=
  (h.imp fun _ _ alike => ⟨alike.1.symm, alike.2.symm⟩).flip

theorem Alike.names (h : b.Alike b') : b.names = b'.names := by
  unfold Bindings.names
  rw [← List.forall₂_eq_eq_eq, List.forall₂_map_left_iff, List.forall₂_map_right_iff]
  exact h.imp fun _ _ alike => alike.1

theorem Alike.get? (h : b.Alike b') (name : Name) :
    Option.Rel Value.Alike (b.get? name) (b'.get? name) := by
  induction h with
  | nil => exact .none
  | cons first _ ih =>
    unfold Bindings.get?
    rw [first.1]
    split
    · exact .some first.2
    · exact ih

theorem Alike.contains (h : b.Alike b') (name : Name) : b.contains name = b'.contains name := by
  unfold Bindings.contains
  rcases rel_cases (h.get? name) with ⟨found, found'⟩ | ⟨v, v', found, found', -⟩ <;>
    simp [found, found']

theorem Alike.insert (h : b.Alike b') (alike : v.Alike v') (name : Name) :
    (b.insert name v).Alike (b'.insert name v') := by
  induction h with
  | nil => exact .cons ⟨rfl, alike⟩ .nil
  | cons first rest ih =>
    unfold Bindings.insert
    rw [first.1]
    split
    · exact .cons ⟨rfl, alike⟩ rest
    · exact .cons ⟨rfl, first.2⟩ ih

theorem alike_ofList_zip (names : List Name) {vs vs' : List Value}
    (h : Forall₂ Value.Alike vs vs') :
    (Bindings.ofList (names.zip vs)).Alike (Bindings.ofList (names.zip vs')) := by
  unfold Bindings.ofList
  suffices ∀ b b' : Bindings, b.Alike b' →
      ((names.zip vs).foldl (fun b e => b.insert e.1 e.2) b).Alike
        ((names.zip vs').foldl (fun b e => b.insert e.1 e.2) b') from this [] [] .nil
  induction h generalizing names with
  | nil => intro b b' alike; simpa using alike
  | cons first _ ih =>
    intro b b' alike
    cases names with
    | nil => simpa using alike
    | cons name names => exact ih names _ _ (alike.insert first name)

end Bindings

namespace Store

theorem Alike.refl (s : Store) : s.Alike s :=
  ⟨rfl, fun _ => .refl _, rfl, fun _ => .refl _, rfl, rfl, rfl⟩

variable {s s' : Store} {v v' : Value}

theorem Alike.symm (h : s.Alike s') : s'.Alike s :=
  ⟨h.frameCount.symm, fun f => (h.frame f).symm, h.fieldCount.symm, fun o => (h.fields o).symm,
    h.nextId.symm, h.moment.symm, h.output.symm⟩

theorem Alike.lookup? (h : s.Alike s') (name : Name) (chain : List FrameId) :
    Option.Rel Value.Alike (s.lookup? name chain) (s'.lookup? name chain) := by
  induction chain with
  | nil => exact .none
  | cons f rest ih =>
    unfold Store.lookup?
    rcases rel_cases ((h.frame f).get? name) with ⟨found, found'⟩ | ⟨v, v', found, found', alike⟩
    · rw [found, found']
      exact ih
    · rw [found, found']
      exact .some alike

theorem Alike.binder? (h : s.Alike s') (name : Name) (chain : List FrameId) :
    s.binder? name chain = s'.binder? name chain := by
  unfold Store.binder?
  congr 1
  funext f
  exact (h.frame f).contains name

theorem Alike.bind (h : s.Alike s') (alike : v.Alike v') (f : FrameId) (name : Name) :
    (s.bind f name v).Alike (s'.bind f name v') where
  frameCount := by rw [size_frames_bind, size_frames_bind, h.frameCount]
  frame g := by
    rw [frame_bind, frame_bind, h.frameCount]
    split
    · exact (h.frame g).insert alike name
    · exact h.frame g
  fieldCount := h.fieldCount
  fields := h.fields
  nextId := h.nextId
  moment := h.moment
  output := h.output

theorem Alike.push {b b' : Bindings} (h : s.Alike s') (alike : b.Alike b') (scope : Scope) :
    (s.push scope b).1 = (s'.push scope b').1 ∧ (s.push scope b).2.Alike (s'.push scope b').2 := by
  refine ⟨by rw [push_fst, push_fst, h.frameCount], ?_⟩
  constructor
  case frameCount => rw [size_frames_push, size_frames_push, h.frameCount]
  case frame =>
    intro f
    rw [frame_push, frame_push, h.frameCount]
    split
    · exact alike
    · exact h.frame f
  case fieldCount => exact h.fieldCount
  case fields => exact h.fields
  case nextId => exact h.nextId
  case moment => exact h.moment
  case output => exact h.output

theorem Alike.newObject {c c' : Class} (h : s.Alike s') (alike : c.Alike c') :
    (s.newObject c).1.Alike (s'.newObject c').1 ∧ (s.newObject c).2.Alike (s'.newObject c').2 := by
  refine ⟨⟨alike, h.fieldCount⟩, ?_⟩
  constructor
  case frameCount => exact h.frameCount
  case frame => exact h.frame
  case fieldCount => simp only [Store.newObject, Array.size_push, h.fieldCount]
  case fields =>
    intro o
    rw [fieldsOf_newObject, fieldsOf_newObject]
    exact h.fields o
  case nextId => exact h.nextId
  case moment => exact h.moment
  case output => exact h.output

theorem Alike.setField {o o' : Object} (h : s.Alike s') (same : o.Alike o') (name : Name)
    (alike : v.Alike v') : (s.setField o name v).Alike (s'.setField o' name v') := by
  constructor
  case frameCount => exact h.frameCount
  case frame => exact h.frame
  case fieldCount => simp only [Store.setField, Array.size_modify, h.fieldCount]
  case fields =>
    intro p
    rw [fieldsOf_setField, fieldsOf_setField, same.address, h.fieldCount]
    split
    · exact (h.fields p).insert alike name
    · exact h.fields p
  case nextId => exact h.nextId
  case moment => exact h.moment
  case output => exact h.output

end Store

end Lox
