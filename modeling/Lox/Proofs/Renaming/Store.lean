import Mathlib.Logic.Function.Basic
import Lox.Eval
import Lox.Proofs.Operator
import Lox.Proofs.Renaming.Tree
import Lox.Proofs.Soundness.State

/-!
Renaming values and stores.

A value is renamed by renaming the code in it: that of a function, of the methods of a class, of the
class of an instance. Identities, addresses and scopes stay. A `Renaming` says which names the code
of a program uses and where they go; `Value.Fit` says of a value that its code keeps to them, and
that it shows the same after renaming, since the names that it shows are kept.

`Store.Image` relates two stores: what the first binds to a name in use, the second binds, renamed,
to the image of that name. What they bind to other names does not matter, and stays as it was given
for each of them.
-/

namespace Lox

/-! ### Renaming values -/

/-- Rename the code of a function. -/
def Closure.rename (r : Name → Name) (f : Closure) : Closure :=
  ⟨f.decl.rename r, f.scope, f.isInitializer⟩

/-- Rename a class declaration that has been run, and the code of its methods. -/
def ClassBody.rename (r : Name → Name) (c : ClassBody) : ClassBody :=
  ⟨c.id, r c.name, c.methods.map (Closure.rename r)⟩

/-- Rename a class and its ancestors. -/
def Class.rename (r : Name → Name) (c : Class) : Class :=
  ⟨c.body.rename r, c.ancestors.map (ClassBody.rename r)⟩

/-- Rename the class of an instance. -/
def Object.rename (r : Name → Name) (o : Object) : Object := ⟨o.cls.rename r, o.address⟩

/-- Rename the code in a value. -/
def Value.rename (r : Name → Name) : Value → Value
  | .function id f => .function id (f.rename r)
  | .cls c => .cls (c.rename r)
  | .object o => .object (o.rename r)
  | v => v

/-- Rename what is bound, and the names it is bound to. -/
def Bindings.rename (r : Name → Name) (b : Bindings) : Bindings :=
  b.map fun e => (r e.1, e.2.rename r)

/-- Rename the identifiers that an error mentions. -/
def RuntimeError.rename (r : Name → Name) : RuntimeError → RuntimeError
  | .undefinedName name => .undefinedName (r name)
  | .undefinedProperty cls name => .undefinedProperty (r cls) (r name)
  | .arity callee expected got => .arity (r callee) expected got
  | .duplicateDefinition name => .duplicateDefinition (r name)
  | e => e

theorem Closure.rename_id (f : Closure) : f.rename id = f := by
  rw [Closure.rename, FunctionDecl.rename_id]

theorem Class.rename_id_body (c : ClassBody) : c.rename id = c := by
  have methods : Closure.rename id = id := funext Closure.rename_id
  rw [ClassBody.rename, methods, List.map_id]
  rfl

theorem Class.rename_id (c : Class) : c.rename id = c := by
  have bodies : ClassBody.rename id = id := funext Class.rename_id_body
  rw [Class.rename, bodies, List.map_id]
  rfl

theorem Value.rename_id (v : Value) : v.rename id = v := by
  cases v with
  | function n f => exact congrArg (Value.function n) f.rename_id
  | cls c => exact congrArg Value.cls c.rename_id
  | object o =>
    change Value.object ⟨o.cls.rename id, o.address⟩ = _
    rw [Class.rename_id]
  | _ => rfl

theorem RuntimeError.rename_id (e : RuntimeError) : e.rename id = e := by
  cases e <;> rfl

/-! What a program can find out about a value, its text apart. -/

section

variable (r : Name → Name)

theorem Closure.arity_rename (f : Closure) : (f.rename r).arity = f.arity := by
  simp only [Closure.arity, Closure.rename, FunctionDecl.rename_params, List.length_map]

theorem Class.lineage_rename (c : Class) :
    (c.rename r).lineage = c.lineage.map (ClassBody.rename r) := rfl

namespace Value

variable (v w : Value)

theorem kind_rename : (v.rename r).kind = v.kind := by
  cases v <;> rfl

theorem isTruthy_rename : (v.rename r).isTruthy = v.isTruthy := by
  cases v <;> rfl

theorem equals_rename : (v.rename r).equals (w.rename r) = v.equals w := by
  cases v <;> cases w <;> rfl

theorem onNumbers_rename (f : Float → Float → Value) :
    onNumbers f (v.rename r) (w.rename r) = onNumbers f v w := by
  cases v <;> cases w <;> rfl

theorem add_rename : Value.add (v.rename r) (w.rename r) = Value.add v w := by
  cases v <;> cases w <;> rfl

theorem div_rename : Value.div (v.rename r) (w.rename r) = Value.div v w := by
  cases v <;> cases w <;> rfl

/-- A value that is all there is to it has no code to rename. -/
theorem rename_of_isScalar {v : Value} (h : v.IsScalar) : v.rename r = v := by
  cases v with
  | function _ _ | native _ | cls _ | object _ => cases h
  | _ => rfl

end Value

theorem RuntimeError.rename_of_isNameless {e : RuntimeError} (h : e.IsNameless) :
    e.rename r = e := by
  cases e with
  | typeMismatch _ _ | divisionByZero => rfl
  | _ => cases h

theorem BinaryOp.apply_rename (op : BinaryOp) (v w : Value) :
    op.apply (v.rename r) (w.rename r) = op.apply v w := by
  cases op with
  | equal | notEqual => simp only [BinaryOp.apply, Value.equals_rename]
  | add => exact Value.add_rename r v w
  | div => exact Value.div_rename r v w
  | _ => exact Value.onNumbers_rename r v w _

theorem UnaryOp.apply_rename (op : UnaryOp) (v : Value) :
    op.apply (v.rename r) = op.apply v := by
  cases op with
  | not => simp only [UnaryOp.apply, Value.isTruthy_rename]
  | minus => cases v <;> rfl

theorem LogicOp.stopsAt_rename (op : LogicOp) (v : Value) :
    op.stopsAt (v.rename r) = op.stopsAt v := by
  cases op <;> simp only [LogicOp.stopsAt, Value.isTruthy_rename]

theorem Builtin.numbers?_rename (args : List Value) :
    numbers? (args.map (Value.rename r)) = numbers? args := by
  induction args with
  | nil => rfl
  | cons v rest ih => cases v <;> simp only [List.map_cons, Value.rename, numbers?, ih]

theorem Builtin.apply_rename (time : Float) (b : Builtin) (args : List Value) :
    b.apply time (args.map (Value.rename r)) = b.apply time args := by
  have kinds : (args.map (Value.rename r)).map Value.kind = args.map Value.kind := by
    rw [List.map_map]
    exact List.map_congr_left fun v _ => v.kind_rename r
  unfold Builtin.apply mismatch
  rw [numbers?_rename, kinds]

end

/-! ### What a renaming is about -/

/-- A renaming of the names that the code of a program uses. The code may call some of the functions
supplied to it. The names that the evaluator uses by itself are kept. What frames say about other
names is given for either side. -/
structure Renaming where
  name : Name → Name
  uses : Name → Prop
  calls : Nat → Prop
  /-- What the frames of the program bind to names that are not in use. -/
  left : FrameId → Name → Option Value
  /-- What the frames of the renamed program bind to names that are not the image of one in use. -/
  right : FrameId → Name → Option Value
  injective : Function.Injective name
  uses_this : uses thisName
  uses_super : uses superName
  fixed_this : Fixed name thisName
  fixed_super : Fixed name superName
  fixed_init : Fixed name initializerName

variable {P : Renaming}

/-- The code of a tree keeps to the names in use, and declares functions, methods and classes only
under names that are kept. -/
def Renaming.Covers (P : Renaming) (decl : FunctionDecl) : Prop :=
  decl.Over P.uses (Fixed P.name)

/-- A class that is shown under a name that is kept, and whose methods are covered. -/
structure Class.Fit (P : Renaming) (c : Class) : Prop where
  name : Fixed P.name c.name
  methods : ∀ body ∈ c.lineage, ∀ m ∈ body.methods, P.Covers m.decl

/-- The code in a value is covered, and the name that it is shown under is kept. -/
def Value.Fit (P : Renaming) : Value → Prop
  | .function _ f => P.Covers f.decl
  | .native f => Fixed P.name f.name ∧ ∀ index, f.body = .supplied index → P.calls index
  | .cls c => c.Fit P
  | .object o => o.cls.Fit P
  | _ => True

/-- The second value is the first one renamed. -/
structure Value.Image (P : Renaming) (v v' : Value) : Prop where
  eq : v' = v.rename P.name
  fit : v.Fit P

theorem Value.fit_of_isScalar {v : Value} (h : v.IsScalar) : v.Fit P := by
  cases v with
  | function _ _ | native _ | cls _ | object _ => cases h
  | _ => trivial

theorem Value.text_rename {v : Value} (fit : v.Fit P) : (v.rename P.name).text = v.text := by
  cases v with
  | function id f =>
    have kept : Fixed P.name f.decl.name := (FunctionDecl.over_iff.mp fit).1.2
    simp only [Value.rename, Value.text, Closure.rename, FunctionDecl.rename_name]
    rw [kept]
  | cls c => exact fit.name
  | object o =>
    have kept : P.name o.cls.name = o.cls.name := fit.name
    change P.name o.cls.name ++ " instance" = o.cls.name ++ " instance"
    rw [kept]
  | _ => rfl

/-! The methods of a renamed class. -/

theorem ClassBody.method?_rename (c : ClassBody) (name : Name) :
    (c.rename P.name).method? (P.name name) = (c.method? name).map (Closure.rename P.name) := by
  have same : ∀ m : Closure, (decide ((m.rename P.name).decl.name = P.name name)) =
      decide (m.decl.name = name) := by
    intro m
    simp only [Closure.rename, FunctionDecl.rename_name, P.injective.eq_iff]
  unfold ClassBody.method?
  rw [ClassBody.rename, List.filter_map, List.getLast?_map]
  simp only [Function.comp_def, same]

theorem Class.method?_rename (c : Class) (name : Name) :
    (c.rename P.name).method? (P.name name) = (c.method? name).map (Closure.rename P.name) := by
  unfold Class.method?
  rw [Class.lineage_rename, List.findSome?_map, List.map_findSome?]
  refine congrArg (List.findSome? · c.lineage) (funext fun body => ?_)
  exact body.method?_rename name

theorem Class.init_rename (c : Class) :
    (c.rename P.name).method? initializerName =
      (c.method? initializerName).map (Closure.rename P.name) := by
  have found := c.method?_rename (P := P) initializerName
  rwa [P.fixed_init] at found

theorem Class.Fit.method? {c : Class} (fit : c.Fit P) {name : Name} {m : Closure}
    (found : c.method? name = some m) : P.Covers m.decl := by
  obtain ⟨body, mem, found⟩ := List.exists_of_findSome?_eq_some found
  exact fit.methods body mem m (List.mem_filter.mp (List.mem_of_getLast? found)).1

theorem Class.arity_rename (c : Class) :
    (c.rename P.name).arity initializerName = c.arity initializerName := by
  unfold Class.arity
  rw [c.init_rename]
  cases c.method? initializerName with
  | none => rfl
  | some m => exact m.arity_rename P.name

/-! ### Bindings -/

/-- Bindings of names in use to values that fit. -/
def Bindings.Fit (P : Renaming) (b : Bindings) : Prop :=
  ∀ name v, b.get? name = some v → P.uses name ∧ v.Fit P

/-- What the first bindings say about a name in use, the second ones say about its image. -/
structure Bindings.Image (P : Renaming) (b b' : Bindings) : Prop where
  get? : ∀ name, P.uses name → b'.get? (P.name name) = (b.get? name).map (Value.rename P.name)
  fit : ∀ name v, P.uses name → b.get? name = some v → v.Fit P

namespace Bindings

theorem names_rename (r : Name → Name) (b : Bindings) : (b.rename r).names = b.names.map r := by
  simp only [names, Bindings.rename, List.map_map, Function.comp_def]

theorem get?_rename (b : Bindings) (name : Name) :
    (b.rename P.name).get? (P.name name) = (b.get? name).map (Value.rename P.name) := by
  induction b with
  | nil => rfl
  | cons e rest ih =>
    change (if P.name e.1 = P.name name then _ else (Bindings.rename P.name rest).get? _) =
      (if e.1 = name then _ else _ : Option Value).map _
    simp only [P.injective.eq_iff]
    split
    · rfl
    · exact ih

theorem insert_rename (b : Bindings) (name : Name) (v : Value) :
    (b.insert name v).rename P.name = (b.rename P.name).insert (P.name name) (v.rename P.name) := by
  induction b with
  | nil => rfl
  | cons e rest ih =>
    obtain ⟨other, w⟩ := e
    simp only [Bindings.rename, List.map_cons, insert, P.injective.eq_iff] at ih ⊢
    split
    · rfl
    · rw [List.map_cons, ih]

theorem ofList_zip_rename (names : List Name) (values : List Value) :
    (ofList (names.zip values)).rename P.name =
      ofList ((names.map P.name).zip (values.map (Value.rename P.name))) := by
  unfold ofList
  suffices ∀ b : Bindings,
      ((names.zip values).foldl (fun b e => b.insert e.1 e.2) b).rename P.name =
        ((names.map P.name).zip (values.map (Value.rename P.name))).foldl
          (fun b e => b.insert e.1 e.2) (b.rename P.name) from this []
  induction names generalizing values with
  | nil => simp
  | cons name names ih =>
    intro b
    cases values with
    | nil => simp
    | cons v values =>
      simp only [List.map_cons, List.zip_cons_cons, List.foldl_cons, ih, insert_rename]

variable {b b' : Bindings}

theorem image_nil : Bindings.Image P [] [] := ⟨fun _ _ => rfl, fun _ _ _ found => nomatch found⟩

theorem Fit.image (h : b.Fit P) : b.Image P (b.rename P.name) :=
  ⟨fun name _ => b.get?_rename name, fun name v _ found => (h name v found).2⟩

/-- Bindings of names in use bind no other names. -/
theorem Fit.get?_eq_none (h : b.Fit P) {name : Name} (unused : ¬ P.uses name) :
    b.get? name = none := by
  cases found : b.get? name with
  | none => rfl
  | some v => exact absurd (h name v found).1 unused

theorem Fit.get?_rename_eq_none (h : b.Fit P) {name : Name}
    (unused : ∀ other, P.uses other → P.name other ≠ name) :
    (b.rename P.name).get? name = none := by
  rw [get?_eq_none_iff, names_rename]
  intro mem
  obtain ⟨other, bound, rfl⟩ := List.mem_map.mp mem
  cases found : b.get? other with
  | none => exact get?_eq_none_iff.mp found bound
  | some v => exact unused other (h other v found).1 rfl

theorem Image.insert (h : b.Image P b') (name : Name) {v : Value} (fit : v.Fit P) :
    (b.insert name v).Image P (b'.insert (P.name name) (v.rename P.name)) := by
  constructor
  case get? =>
    intro other used
    by_cases same : other = name
    · rw [same, get?_insert_self, get?_insert_self]
      rfl
    · rw [get?_insert_of_ne same, get?_insert_of_ne (P.injective.ne same)]
      exact h.get? other used
  case fit =>
    intro other w used found
    by_cases same : other = name
    · rw [same, get?_insert_self] at found
      cases found
      exact fit
    · rw [get?_insert_of_ne same] at found
      exact h.fit other w used found

theorem Image.contains (h : b.Image P b') {name : Name} (used : P.uses name) :
    b'.contains (P.name name) = b.contains name := by
  unfold Bindings.contains
  rw [h.get? name used, Option.isSome_map]

end Bindings

/-! ### Stores -/

/-- What the second store says about the images of the names in use is what the first says about
the names, renamed. What either says about other names in a frame is as given. -/
structure Store.Image (P : Renaming) (s s' : Store) : Prop where
  frameCount : s'.frames.size = s.frames.size
  frame : ∀ f, (s.frame f).Image P (s'.frame f)
  left : ∀ f name, ¬ P.uses name → (s.frame f).get? name = P.left f name
  right : ∀ f name, (∀ other, P.uses other → P.name other ≠ name) →
    (s'.frame f).get? name = P.right f name
  fieldCount : s'.fields.size = s.fields.size
  fields : ∀ o, (s.fieldsOf o).Image P (s'.fieldsOf o)
  nextId : s'.nextId = s.nextId
  moment : s'.moment = s.moment
  output : s'.output = s.output

namespace Store

variable {s s' : Store}

theorem Image.lookup? (h : s.Image P s') {name : Name} (used : P.uses name)
    (chain : List FrameId) :
    s'.lookup? (P.name name) chain = (s.lookup? name chain).map (Value.rename P.name) := by
  induction chain with
  | nil => rfl
  | cons f rest ih =>
    unfold Store.lookup?
    rw [(h.frame f).get? name used]
    cases (s.frame f).get? name with
    | some v => rfl
    | none => exact ih

theorem Image.fit_of_lookup? (h : s.Image P s') {name : Name} (used : P.uses name)
    {chain : List FrameId} {v : Value} (found : s.lookup? name chain = some v) : v.Fit P := by
  obtain ⟨f, -, found⟩ := exists_of_lookup? found
  exact (h.frame f).fit name v used found

theorem Image.binder? (h : s.Image P s') {name : Name} (used : P.uses name)
    (chain : List FrameId) : s'.binder? (P.name name) chain = s.binder? name chain := by
  unfold Store.binder?
  congr 1
  funext f
  exact (h.frame f).contains used

/-- What is bound in a frame changes for one name in use. -/
theorem Image.bind (h : s.Image P s') (f : FrameId) {name : Name} {v : Value}
    (used : P.uses name) (fit : v.Fit P) :
    (s.bind f name v).Image P (s'.bind f (P.name name) (v.rename P.name)) := by
  refine { h with frameCount := ?frameCount, frame := ?frame, left := ?left, right := ?right }
  case frameCount => rw [size_frames_bind, size_frames_bind, h.frameCount]
  case frame =>
    intro g
    rw [frame_bind, frame_bind, h.frameCount]
    split
    · exact (h.frame g).insert name fit
    · exact h.frame g
  case left =>
    intro g other unused
    rcases s.get?_frame_bind f g name other v with same | ⟨rfl, -⟩
    · exact same.trans (h.left g other unused)
    · exact absurd used unused
  case right =>
    intro g other unused
    rcases s'.get?_frame_bind f g (P.name name) other (v.rename P.name) with same | ⟨rfl, -⟩
    · exact same.trans (h.right g other unused)
    · exact absurd rfl (unused name used)

theorem Image.push (h : s.Image P s') (scope : Scope) {b : Bindings} (fit : b.Fit P) :
    (s.push scope b).2.Image P (s'.push scope (b.rename P.name)).2 := by
  refine { h with frameCount := ?frameCount, frame := ?frame, left := ?left, right := ?right }
  case frameCount => rw [size_frames_push, size_frames_push, h.frameCount]
  case frame =>
    intro f
    rw [frame_push, frame_push, h.frameCount]
    split
    · exact fit.image
    · exact h.frame f
  case left =>
    intro f name unused
    rw [frame_push]
    split
    · rename_i new
      rw [fit.get?_eq_none unused, ← h.left f name unused, frame_of_size_le (Nat.le_of_eq new.symm)]
      rfl
    · exact h.left f name unused
  case right =>
    intro f name unused
    rw [frame_push]
    split
    · rename_i new
      rw [fit.get?_rename_eq_none unused, ← h.right f name unused,
        frame_of_size_le (Nat.le_of_eq new.symm)]
      rfl
    · exact h.right f name unused

theorem Image.newObject (h : s.Image P s') (c : Class) :
    (s.newObject c).2.Image P (s'.newObject (c.rename P.name)).2 := by
  refine { h with fieldCount := ?fieldCount, fields := ?fields }
  case fieldCount => simp only [Store.newObject, Array.size_push, h.fieldCount]
  case fields =>
    intro o
    rw [fieldsOf_newObject, fieldsOf_newObject]
    exact h.fields o

theorem Image.setField (h : s.Image P s') (o : Object) (name : Name) {v : Value}
    (fit : v.Fit P) :
    (s.setField o name v).Image P
      (s'.setField (o.rename P.name) (P.name name) (v.rename P.name)) := by
  refine { h with fieldCount := ?fieldCount, fields := ?fields }
  case fieldCount => simp only [Store.setField, Array.size_modify, h.fieldCount]
  case fields =>
    intro p
    have address : (o.rename P.name).address = o.address := rfl
    rw [fieldsOf_setField, fieldsOf_setField, address, h.fieldCount]
    split
    · exact (h.fields p).insert name fit
    · exact h.fields p

end Store

end Lox
