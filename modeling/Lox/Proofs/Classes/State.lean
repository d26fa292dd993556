import Lox.Proofs.Classes.Method
import Lox.Proofs.Course.Contract
import Lox.Proofs.Desugar
import Lox.Proofs.Eval.Blank
import Lox.Proofs.Nesting.Layout
import Lox.Proofs.Soundness.Safe

/-!
Where the classes of a course come from, and what its functions know about them.

A class of a course was made by a run of its declaration (`Class.Made`), which settled its methods and
its superclass for good. A bound method knows, besides, which instance it is bound to: its scope has a
frame that holds the instance as `this`, right inside the scope that the methods of the class share
(`Scope.Binds`). Functions made in a method, and whatever else runs in it, are inside that frame, too,
with nothing about `this` or `super` in between. `Value.Sound` says of a value that all its functions
and classes are in this order, and `Store.Sound` that all values in the store are. It lasts as the
store goes on (`Value.Sound.later`).
-/

namespace Lox

open Check (ClassKind FunctionKind)
open Run

/-! ### Later stores -/

/-- The store may have come after the other one. -/
structure Store.Later (s s' : Store) : Prop where
  grows : s.Grows s'
  ids : s.nextId ≤ s'.nextId
  instances : s.fields.size ≤ s'.fields.size

namespace Store

theorem Later.refl (s : Store) : s.Later s := ⟨.refl s, Nat.le_refl _, Nat.le_refl _⟩

theorem Later.trans {s s' s'' : Store} (h : s.Later s') (h' : s'.Later s'') : s.Later s'' :=
  ⟨h.grows.trans h'.grows, Nat.le_trans h.ids h'.ids, Nat.le_trans h.instances h'.instances⟩

theorem Later.push (s : Store) (scope : Scope) (b : Bindings) : s.Later (s.push scope b).2 :=
  ⟨.push s scope b, Nat.le_refl _, Nat.le_refl _⟩

/-- A change of counters or of the output. -/
theorem Later.of_eq {s s' : Store} (frames : s'.frames = s.frames) (fields : s'.fields = s.fields)
    (ids : s.nextId ≤ s'.nextId) : s.Later s' := by
  refine ⟨⟨Nat.le_of_eq (congrArg Array.size frames.symm), fun f _ name _ => ?_⟩, ids,
    Nat.le_of_eq (congrArg Array.size fields.symm)⟩
  simp only [frame, frames]

theorem Later.bind (s : Store) (f : FrameId) {name : Name} (value : Value)
    (unreserved : name.isReserved = false) : s.Later (s.bind f name value) := by
  refine ⟨⟨Nat.le_of_eq (size_frames_bind s f name value).symm, fun g _ other reserved => ?_⟩,
    Nat.le_refl _, Nat.le_refl _⟩
  rcases s.get?_frame_bind f g name other value with same | ⟨rfl, -⟩
  · exact same
  · rw [unreserved] at reserved
    cases reserved

theorem Later.newObject (s : Store) (c : Class) : s.Later (s.newObject c).2 := by
  refine ⟨⟨Nat.le_refl _, fun _ _ _ _ => rfl⟩, Nat.le_refl _, ?_⟩
  rw [Store.newObject, Array.size_push]
  exact Nat.le_succ _

theorem Later.setField (s : Store) (o : Object) (name : Name) (value : Value) :
    s.Later (s.setField o name value) := by
  refine ⟨⟨Nat.le_refl _, fun _ _ _ _ => rfl⟩, Nat.le_refl _, ?_⟩
  exact Nat.le_of_eq (Array.size_modify ..).symm

end Store

/-! ### Class declarations -/

/-- The scope of the methods of a class declared in a scope, and the store with it. -/
def Store.methodScope (s : Store) (scope : Scope) : Option Class → Scope × Store
  | none => (scope, s)
  | some c => s.push scope [(superName, .cls c)]

/-- The class that a declaration makes. -/
def ClassDecl.toClass (decl : ClassDecl) (s : Store) (scope : Scope) (parent : Option Class) :
    Class where
  body := ⟨s.nextId, decl.name, decl.methods.map fun m =>
    ⟨m, (s.methodScope scope parent).1, m.name = initializerName⟩⟩
  ancestors := match parent with
    | some c => c.lineage
    | none => []

theorem ClassDecl.superclass?_toClass (decl : ClassDecl) (s : Store) (scope : Scope)
    (parent : Option Class) : (decl.toClass s scope parent).superclass? = parent := by
  cases parent with
  | none => rfl
  | some c => exact Class.superclass?_eq_some.mpr rfl

/-- A declaration finds its superclass and then binds the class it makes. -/
theorem declareClass_eq (scope : Scope) (decl : ClassDecl) :
    declareClass scope decl = (do
      let parent ← superclassOf scope decl.superclass
      fun s => define scope decl.name (.cls (decl.toClass s scope parent))
        (s.methodScope scope parent).2.freshId.2) := by
  refine bind_same fun parent => ?_
  cases parent with
  | none => rfl
  | some c => rfl

/-- The superclass is what its name denotes at the time. -/
theorem ensures_superclassOf (scope : Scope) (name? : Option Name) (s : Store) :
    Ensures s (superclassOf scope name?)
      (fun parent s' => s' = s ∧ (name?.isSome = parent.isSome) ∧ ∀ c, parent = some c →
        ∃ name, name? = some name ∧ s.lookup? name scope.chain = some (.cls c))
      (fun _ s' => s' = s) := by
  cases name? with
  | none => exact ⟨rfl, rfl, nofun⟩
  | some name =>
    have found : Ensures s (Run.get scope name)
        (fun v s' => s' = s ∧ s.lookup? name scope.chain = some v) (fun _ s' => s' = s) := by
      unfold Ensures Run.get Store.get
      cases s.lookup? name scope.chain with
      | none => rfl
      | some v => exact ⟨rfl, rfl⟩
    apply ensures_bind found
    rintro v _ ⟨rfl, found⟩
    cases v with
    | cls c =>
      refine ⟨rfl, rfl, ?_⟩
      rintro _ ⟨⟩
      exact ⟨name, rfl, found⟩
    | _ => rfl

/-- The class is what a run of the declaration makes: the run ends well and binds it. -/
structure Class.MadeBy (c : Class) (scope : Scope) (decl : ClassDecl) (before after : Store) :
    Prop where
  bounded : scope.Bounded before
  runs : declareClass scope decl before = .ok () after
  bound : (after.frame scope.frame).get? decl.name = some (.cls c)

theorem Store.frame_lt_methodScope {s : Store} {scope : Scope} (bounded : scope.Bounded s)
    (parent : Option Class) : scope.frame < (s.methodScope scope parent).2.frames.size := by
  have inside : scope.frame < s.frames.size := bounded scope.frame List.mem_cons_self
  cases parent with
  | none => exact inside
  | some c =>
    rw [Store.methodScope, Store.size_frames_push]
    exact Nat.lt_succ_of_lt inside

/-- A declaration that ends well makes a class, and leaves the store as it was but for that. -/
theorem declareClass_eq_ok {scope : Scope} {decl : ClassDecl} {before after : Store} :
    declareClass scope decl before = .ok () after ↔ ∃ parent,
      superclassOf scope decl.superclass before = .ok parent before ∧
      define scope decl.name (.cls (decl.toClass before scope parent))
        (before.methodScope scope parent).2.freshId.2 = .ok () after := by
  rw [declareClass_eq]
  change andThen (superclassOf scope decl.superclass) _ before = _ ↔ _
  have unchanged := ensures_superclassOf scope decl.superclass before
  unfold andThen
  cases result : superclassOf scope decl.superclass before with
  | ok parent s =>
    obtain rfl := (unchanged.of_ok result).1
    constructor
    · exact fun h => ⟨parent, rfl, h⟩
    · rintro ⟨_, ⟨⟩, h⟩
      exact h
  | error e s =>
    constructor
    · intro h
      cases h
    · rintro ⟨_, ⟨⟩, _⟩
  | outOfFuel =>
    constructor
    · intro h
      cases h
    · rintro ⟨_, ⟨⟩, _⟩

theorem Class.MadeBy.eq {c : Class} {scope : Scope} {decl : ClassDecl} {before after : Store}
    (h : c.MadeBy scope decl before after) : ∃ parent,
      superclassOf scope decl.superclass before = .ok parent before ∧
      c = decl.toClass before scope parent ∧
      after = (before.methodScope scope parent).2.freshId.2.bind scope.frame decl.name (.cls c) := by
  obtain ⟨parent, found, defined⟩ := declareClass_eq_ok.mp h.runs
  refine ⟨parent, found, ?_⟩
  unfold define Store.define at defined
  split at defined
  · cases defined
  · cases defined
    have bound := h.bound
    rw [Store.frame_bind, if_pos ⟨rfl, Store.frame_lt_methodScope h.bounded parent⟩,
      Bindings.get?_insert_self] at bound
    cases bound
    exact ⟨rfl, rfl⟩

theorem Store.Later.methodScope (s : Store) (scope : Scope) (parent : Option Class) :
    s.Later (s.methodScope scope parent).2.freshId.2 := by
  have counted : ∀ t : Store, t.Later t.freshId.2 := fun t =>
    .of_eq rfl rfl (Nat.le_succ t.nextId)
  cases parent with
  | none => exact counted s
  | some c => exact (Later.push s scope _).trans (counted _)

/-- The scope of the methods exists, and leads to the superclass. -/
theorem Store.super_methodScope {s : Store} {scope : Scope} (bounded : scope.Bounded s)
    (parent : Option Class) :
    (s.methodScope scope parent).1.Bounded (s.methodScope scope parent).2.freshId.2 ∧
      ∀ c, parent = some c → (s.methodScope scope parent).2.freshId.2.lookup? superName
        (s.methodScope scope parent).1.chain = some (.cls c) := by
  cases parent with
  | none => exact ⟨bounded, nofun⟩
  | some c =>
    refine ⟨bounded.push _, ?_⟩
    rintro _ ⟨⟩
    apply Store.lookup?_cons_of_some
    change ((s.push scope [(superName, .cls c)]).2.frame s.frames.size).get? superName = _
    rw [frame_push_self]
    rfl

namespace Class.MadeBy

variable {c : Class} {scope : Scope} {decl : ClassDecl} {before after : Store}

theorem superclass (h : c.MadeBy scope decl before after) :
    superclassOf scope decl.superclass before = .ok c.superclass? before := by
  obtain ⟨parent, found, rfl, -⟩ := h.eq
  rw [ClassDecl.superclass?_toClass]
  exact found

theorem id (h : c.MadeBy scope decl before after) : c.body.id = before.nextId := by
  obtain ⟨parent, -, rfl, -⟩ := h.eq
  rfl

theorem nextId (h : c.MadeBy scope decl before after) : before.nextId < after.nextId := by
  obtain ⟨parent, -, -, rfl⟩ := h.eq
  cases parent <;> exact Nat.lt_succ_self _

theorem methods_eq (h : c.MadeBy scope decl before after) :
    c.body.methods.map Closure.decl = decl.methods := by
  obtain ⟨parent, -, rfl, -⟩ := h.eq
  simp [ClassDecl.toClass, Function.comp_def]

theorem name (h : c.MadeBy scope decl before after) : c.name = decl.name := by
  obtain ⟨parent, -, rfl, -⟩ := h.eq
  rfl

theorem later (h : c.MadeBy scope decl before after) (unreserved : decl.name.isReserved = false) :
    before.Later after := by
  obtain ⟨parent, -, -, rfl⟩ := h.eq
  exact (Store.Later.methodScope before scope parent).trans (.bind _ _ _ unreserved)

/-- What the run settles about a method. -/
theorem method (h : c.MadeBy scope decl before after) (unreserved : decl.name.isReserved = false)
    {m : Closure} (mem : m ∈ c.body.methods) :
    m.decl ∈ decl.methods ∧ m.isInitializer = decide (m.decl.name = initializerName) ∧
      m.scope.Bounded after ∧
      ∀ d, c.superclass? = some d → after.lookup? superName m.scope.chain = some (.cls d) := by
  obtain ⟨parent, -, rfl, rfl⟩ := h.eq
  obtain ⟨text, written, rfl⟩ := List.mem_map.mp mem
  obtain ⟨bounded, super⟩ := Store.super_methodScope h.bounded parent
  rw [ClassDecl.superclass?_toClass]
  have grows := (Store.Later.bind (before.methodScope scope parent).2.freshId.2 scope.frame
    (.cls (decl.toClass before scope parent)) unreserved).grows
  refine ⟨written, rfl, bounded.grows grows, fun d same => ?_⟩
  rw [grows.lookup? isReserved_superName bounded]
  exact super d same

end Class.MadeBy

/-! ### Supplied functions -/

/-- What a supplied function may give back: a plain value, which is not a native function of a kind
that it was not given, or one of its arguments, or a class at or above the class of one. -/
inductive Value.Passed (native : Native → Prop) (args : List Value) : Value → Prop where
  | plain {v} : v.isPlain = true → (∀ f, v = .native f → native f) → Passed native args v
  | argument {v} : v ∈ args → Passed native args v
  | cls {a c d} : a ∈ args → c ∈ a.classes → d.lineage <:+ c.lineage → Passed native args (.cls d)

/-- The functions supplied to programs pass on what they are given. -/
def Host.Passes (native : Native → Prop) (host : Host) : Prop :=
  ∀ index args v, host.supplied index args = .ok v → v.Passed native args

/-- A function that gives its first argument passes it on. -/
theorem Host.passes_first (native : Native → Prop) : Host.first.Passes native := by
  rintro index args v ⟨⟩
  cases args with
  | nil => exact .plain rfl nofun
  | cons a rest => exact .argument List.mem_cons_self

/-- A course, with what is known of the native functions that occur in it. -/
structure Setting extends Course where
  native : Native → Prop
  passes : host.Passes native

/-! ### Classes and their methods -/

/-- A run of the declaration made the class, in the course and before the store. -/
def Class.Made (k : Setting) (decl : ClassDecl) (s : Store) (c : Class) : Prop :=
  ∃ fuel scope before after, k.moments (.exec (fuel + 1) scope (.classDecl decl)) before ∧
    c.MadeBy scope decl before after ∧ after.Later s

/-- The class was made by a declaration that keeps the rules. -/
structure Class.Settled (k : Setting) (decl : ClassDecl) (s : Store) (c : Class) : Prop where
  made : c.Made k decl s
  checked : Check.classDecl decl = .ok ()
  regular : decl.Regular

/-- The class and the classes above it are settled. -/
def Class.Sound (k : Setting) (s : Store) (c : Class) : Prop :=
  ∀ d : Class, d.lineage <:+ c.lineage → ∃ decl, d.Settled k decl s

/-- The class of the instance is sound, and there is a place for its fields. -/
structure Object.Sound (k : Setting) (s : Store) (o : Object) : Prop where
  cls : o.cls.Sound k s
  address : o.address < s.fields.size

/-! ### Bound methods -/

/-- The frame that holds the instance as `this` is around the scope, right inside the given frames;
between it and the scope, nothing is said about `this` or `super`. -/
def Scope.Binds (s : Store) (scope : Scope) (outer : List FrameId) (o : Object) : Prop :=
  ∃ inner f, scope.chain = inner ++ f :: outer ∧
    (∀ g ∈ inner, ∀ name, Name.isReserved name = true → (s.frame g).contains name = false) ∧
    (s.frame f).get? thisName = some (.object o) ∧ (s.frame f).contains superName = false

namespace Scope.Binds

variable {s : Store} {scope : Scope} {outer : List FrameId} {o : Object}

theorem this (h : scope.Binds s outer o) :
    s.lookup? thisName scope.chain = some (.object o) := by
  obtain ⟨inner, f, split, free, this, -⟩ := h
  rw [split, Store.lookup?_append fun g mem => free g mem _ isReserved_thisName]
  exact Store.lookup?_cons_of_some this

theorem super (h : scope.Binds s outer o) :
    s.lookup? superName scope.chain = s.lookup? superName outer := by
  obtain ⟨inner, f, split, free, -, super⟩ := h
  rw [split, Store.lookup?_append fun g mem => free g mem _ isReserved_superName]
  exact Store.lookup?_cons_of_none (Bindings.get?_eq_none super)

theorem later {s' : Store} (h : scope.Binds s outer o) (bounded : scope.Bounded s)
    (later : s.Later s') : scope.Binds s' outer o := by
  obtain ⟨inner, f, split, free, this, super⟩ := h
  unfold Scope.Bounded at bounded
  rw [split] at bounded
  have here : f < s.frames.size := bounded f (List.mem_append_right _ List.mem_cons_self)
  have kept := later.grows.reserved
  refine ⟨inner, f, split, fun g mem name reserved => ?_, ?_, ?_⟩
  · unfold Bindings.contains
    rw [kept g (bounded g (List.mem_append_left _ mem)) name reserved]
    exact free g mem name reserved
  · rw [kept f here _ isReserved_thisName]
    exact this
  · unfold Bindings.contains
    rw [kept f here _ isReserved_superName]
    exact super

end Scope.Binds

/-- Where code runs on an instance: the class around the code, with its declaration, and the method
in which it stands. -/
structure Inside where
  decl : ClassDecl
  cls : Class
  method : Closure
  object : Object

/-- The kind of class around code that runs on an instance, or on none. -/
def Inside.kindOf : Option Inside → ClassKind
  | some i => .ofSuperclass i.decl.superclass
  | none => .none

/-- The code runs in a method bound to the instance: one that the class of the instance, or a class
above it, was made with. -/
structure Inside.Holds (k : Setting) (s : Store) (scope : Scope) (i : Inside) : Prop where
  settled : i.cls.Settled k i.decl s
  method : i.method ∈ i.cls.body.methods
  object : i.object.Sound k s
  above : i.cls.lineage <:+ i.object.cls.lineage
  binds : scope.Binds s i.method.scope.chain i.object

/-- The part of the program may be run in the scope. -/
structure Part.Placed (k : Setting) (s : Store) (scope : Scope) (around : Option Inside) (p : Part) :
    Prop where
  bounded : scope.Bounded s
  holds : ∀ i ∈ around, i.Holds k s scope
  inside : ∀ i ∈ around, p.InMethod i.decl i.method.decl

/-! ### Values -/

/-- The function was checked where it stands, and its scope is one in which it may run. An
initializer is bound to an instance. -/
def Closure.Sound (k : Setting) (s : Store) (f : Closure) : Prop :=
  ∃ around kind p, Part.Placed k s f.scope around p ∧ p.cls? = none ∧
    (∀ stmt ∈ f.decl.body, .stmt stmt ∈ p.parts) ∧
    Check.function (Inside.kindOf around) kind f.decl = .ok () ∧ f.decl.Regular ∧
    (f.isInitializer = true → kind = .initializer ∧ around.isSome = true)

/-- The functions and classes of a value are sound. -/
def Value.Sound (k : Setting) (s : Store) : Value → Prop
  | .function _ f => f.Sound k s
  | .native f => k.native f
  | .cls c => c.Sound k s
  | .object o => o.Sound k s
  | _ => True

/-- All values in the store are sound. -/
def Store.Sound (k : Setting) (s : Store) : Prop :=
  ∀ c name v, (s.contents c).get? name = some v → v.Sound k s

/-! ### What lasts -/

section

variable {k : Setting} {s s' : Store}

theorem Class.Made.later {decl : ClassDecl} {c : Class} (h : c.Made k decl s) (later : s.Later s') :
    c.Made k decl s' := by
  obtain ⟨fuel, scope, before, after, moment, made, since⟩ := h
  exact ⟨fuel, scope, before, after, moment, made, since.trans later⟩

theorem Class.Settled.later {decl : ClassDecl} {c : Class} (h : c.Settled k decl s)
    (later : s.Later s') : c.Settled k decl s' :=
  ⟨h.made.later later, h.checked, h.regular⟩

theorem Class.Sound.later {c : Class} (h : c.Sound k s) (later : s.Later s') : c.Sound k s' := by
  intro d above
  obtain ⟨decl, settled⟩ := h d above
  exact ⟨decl, settled.later later⟩

theorem Class.Sound.suffix {c d : Class} (h : c.Sound k s) (above : d.lineage <:+ c.lineage) :
    d.Sound k s :=
  fun e above' => h e (above'.trans above)

theorem Object.Sound.later {o : Object} (h : o.Sound k s) (later : s.Later s') : o.Sound k s' :=
  ⟨h.cls.later later, Nat.lt_of_lt_of_le h.address later.instances⟩

theorem Inside.Holds.later {scope : Scope} {i : Inside} (h : i.Holds k s scope)
    (bounded : scope.Bounded s) (later : s.Later s') : i.Holds k s' scope :=
  ⟨h.settled.later later, h.method, h.object.later later, h.above, h.binds.later bounded later⟩

theorem Part.Placed.later {scope : Scope} {around : Option Inside} {p : Part}
    (h : p.Placed k s scope around) (later : s.Later s') : p.Placed k s' scope around :=
  ⟨h.bounded.grows later.grows, fun i mem => (h.holds i mem).later h.bounded later, h.inside⟩

theorem Closure.Sound.later {f : Closure} (h : f.Sound k s) (later : s.Later s') :
    f.Sound k s' := by
  obtain ⟨around, kind, p, placed, rest⟩ := h
  exact ⟨around, kind, p, placed.later later, rest⟩

theorem Value.Sound.later {v : Value} (h : v.Sound k s) (later : s.Later s') : v.Sound k s' := by
  cases v with
  | function id f => exact Closure.Sound.later h later
  | native f => exact h
  | cls c => exact Class.Sound.later h later
  | object o => exact Object.Sound.later h later
  | _ => trivial

theorem Value.Sound.of_isPlain {v : Value} (plain : v.isPlain = true)
    (known : ∀ f, v = .native f → k.native f) : v.Sound k s := by
  cases v with
  | native f => exact known f rfl
  | function | cls | object => cases plain
  | _ => trivial

theorem Value.Sound.classes {v : Value} (h : v.Sound k s) : ∀ c ∈ v.classes, c.Sound k s := by
  cases v with
  | cls c =>
    rintro _ (_ | ⟨_, ⟨⟩⟩)
    exact h
  | object o =>
    rintro _ (_ | ⟨_, ⟨⟩⟩)
    exact Object.Sound.cls h
  | _ => rintro _ ⟨⟩

theorem Value.Passed.sound {args : List Value} {v : Value} (h : v.Passed k.native args)
    (args : ∀ a ∈ args, a.Sound k s) : v.Sound k s := by
  cases h with
  | plain plain known => exact .of_isPlain plain known
  | argument mem => exact args v mem
  | cls mem inside above => exact ((args _ mem).classes _ inside).suffix above

/-- What the declaration of a class settled about its methods. -/
theorem Class.Settled.of_mem {decl : ClassDecl} {c : Class} (h : c.Settled k decl s) {m : Closure}
    (mem : m ∈ c.body.methods) :
    m.decl ∈ decl.methods ∧ m.isInitializer = decide (m.decl.name = initializerName) ∧
      m.scope.Bounded s ∧
      ∀ d, c.superclass? = some d → s.lookup? superName m.scope.chain = some (.cls d) := by
  obtain ⟨fuel, scope, before, after, -, made, later⟩ := h.made
  obtain ⟨written, initializer, bounded, super⟩ :=
    made.method (Check.classDecl_eq_ok.mp h.checked).1 mem
  refine ⟨written, initializer, bounded.grows later.grows, fun d same => ?_⟩
  rw [later.grows.lookup? isReserved_superName bounded]
  exact super d same

/-! ### Code in a scope -/

theorem Scope.Binds.push {scope : Scope} {outer : List FrameId} {o : Object}
    (h : scope.Binds s outer o) (bounded : scope.Bounded s) {b : Bindings}
    (unreserved : ∀ name, Name.isReserved name = true → b.contains name = false) :
    Scope.Binds (s.push scope b).2 ⟨s.frames.size, scope.chain⟩ outer o := by
  obtain ⟨inner, f, split, free, binds⟩ := h.later bounded (.push s scope b)
  refine ⟨s.frames.size :: inner, f, by simp [Scope.chain, ← split], ?_, binds⟩
  rintro g (_ | ⟨_, mem⟩) name reserved
  · rw [Store.frame_push_self]
    exact unreserved name reserved
  · exact free g mem name reserved

namespace Part.Placed

variable {scope : Scope} {around : Option Inside} {p : Part}

/-- What stands directly in a part may run where the part may. -/
theorem inner (h : p.Placed k s scope around) (notClass : p.cls? = none) {q : Part}
    (mem : q ∈ p.parts) : q.Placed k s scope around :=
  ⟨h.bounded, h.holds, fun i here => (h.inside i here).inner notClass mem⟩

/-- A new frame that says nothing about reserved words makes no difference. -/
theorem push (h : p.Placed k s scope around) {b : Bindings}
    (unreserved : ∀ name, Name.isReserved name = true → b.contains name = false) :
    p.Placed k (s.push scope b).2 ⟨s.frames.size, scope.chain⟩ around := by
  refine ⟨h.bounded.push b, fun i mem => ?_, h.inside⟩
  have holds := (h.holds i mem).later h.bounded (.push s scope b)
  exact ⟨holds.settled, holds.method, holds.object, holds.above,
    (h.holds i mem).binds.push h.bounded unreserved⟩

/-- Code outside all classes may run anywhere. -/
theorem outside (bounded : scope.Bounded s) : p.Placed k s scope none :=
  ⟨bounded, nofun, nofun⟩

end Part.Placed

/-- A method of a class at or above that of an instance is sound when it is bound to it. -/
theorem Closure.Sound.bind {o : Object} {c : Class} {m : Closure} (object : o.Sound k s)
    (above : c.lineage <:+ o.cls.lineage) (mem : m ∈ c.body.methods) :
    Closure.Sound k (s.push m.scope [(thisName, .object o)]).2
      { m with scope := ⟨s.frames.size, m.scope.chain⟩ } := by
  obtain ⟨decl, settled⟩ := object.cls c above
  obtain ⟨written, initializer, bounded, -⟩ := settled.of_mem mem
  have later : s.Later (s.push m.scope [(thisName, .object o)]).2 := .push s m.scope _
  have binds : Scope.Binds (s.push m.scope [(thisName, .object o)]).2
      ⟨s.frames.size, m.scope.chain⟩ m.scope.chain o := by
    refine ⟨[], s.frames.size, rfl, nofun, ?_⟩
    rw [Store.frame_push_self]
    exact ⟨rfl, rfl⟩
  have checked := (Check.classDecl_eq_ok.mp settled.checked).2.2
  refine ⟨some ⟨decl, c, m, o⟩, .ofMethod m.decl.name, .method m.decl, ⟨bounded.push _, ?_, ?_⟩, rfl,
    ?_, Check.function_of_methods checked _ written, settled.regular.methods _ written, ?_⟩
  · rintro _ ⟨⟩
    exact ⟨settled.later later, mem, object.later later, above, binds⟩
  · rintro _ ⟨⟩
    exact .whole written
  · intro stmt inside
    exact List.mem_cons_of_mem _ (List.mem_append_right _ (List.mem_map_of_mem inside))
  · intro flagged
    have named := of_decide_eq_true (initializer.symm.trans flagged)
    exact ⟨if_pos named, rfl⟩

/-! ### Changes of the store -/

namespace Store

section

variable {P : Store → Value → Prop} {s s' : Store}

/-- All values in the store have the property. -/
def Every (P : Store → Value → Prop) (s : Store) : Prop :=
  ∀ c name v, (s.contents c).get? name = some v → P s v

theorem Every.lookup? (h : s.Every P) {name : Name} {chain : List FrameId} {v : Value}
    (found : s.lookup? name chain = some v) : P s v := by
  obtain ⟨f, -, found⟩ := exists_of_lookup? found
  exact h (.frame f) name v found

variable (lasts : ∀ {s s' v}, P s v → s.Later s' → P s' v) (h : s.Every P)
include lasts h

/-- If the property lasts, only the values that are new in a store need to have it. -/
theorem Every.of_contents (later : s.Later s') (changes : ∀ c name v,
    (s'.contents c).get? name = some v → (s.contents c).get? name = some v ∨ P s' v) :
    s'.Every P := by
  intro c name v found
  rcases changes c name v found with old | new
  · exact lasts (h c name v old) later
  · exact new

theorem Every.of_eq (frames : s'.frames = s.frames) (fields : s'.fields = s.fields)
    (ids : s.nextId ≤ s'.nextId) : s'.Every P := by
  refine Every.of_contents lasts h (.of_eq frames fields ids) fun c name v found => .inl ?_
  cases c with
  | frame f => simpa only [contents, frame, frames] using found
  | fields address => simpa only [contents, fields] using found

theorem Every.push (scope : Scope) {b : Bindings}
    (values : ∀ name v, b.get? name = some v → P s v) : (s.push scope b).2.Every P := by
  refine Every.of_contents lasts h (.push s scope b) fun c name v found => ?_
  cases c with
  | frame f =>
    rw [contents, frame_push] at found
    split at found
    · exact .inr (lasts (values name v found) (.push s scope b))
    · exact .inl found
  | fields address => exact .inl found

/-- The value that is bound has to have the property in the store that binds it. -/
theorem Every.bind {f : FrameId} {name : Name} {value : Value}
    (later : s.Later (s.bind f name value)) (new : P (s.bind f name value) value) :
    (s.bind f name value).Every P := by
  refine Every.of_contents lasts h later fun c other v found => ?_
  cases c with
  | frame g =>
    rcases s.get?_frame_bind f g name other value with same | ⟨-, bound⟩
    · exact .inl (same.symm.trans found)
    · cases bound.symm.trans found
      exact .inr new
  | fields address => exact .inl found

theorem Every.newObject (c : Class) : (s.newObject c).2.Every P := by
  refine Every.of_contents lasts h (.newObject s c) fun d name v found => .inl ?_
  cases d with
  | frame f => exact found
  | fields address =>
    have same := fieldsOf_newObject s c ⟨c, address⟩
    unfold fieldsOf at same
    rw [contents, same] at found
    exact found

theorem Every.setField (o : Object) (name : Name) {value : Value} (new : P s value) :
    (s.setField o name value).Every P := by
  refine Every.of_contents lasts h (.setField s o name value) fun c other v found => ?_
  cases c with
  | frame f => exact .inl found
  | fields address =>
    rcases s.get?_fieldsOf_setField o ⟨o.cls, address⟩ name other value with same | written
    · exact .inl (same.symm.trans found)
    · cases written.symm.trans found
      exact .inr (lasts new (.setField s o name value))

end

variable (h : s.Sound k)
include h

theorem Sound.lookup? {name : Name} {chain : List FrameId} {v : Value}
    (found : s.lookup? name chain = some v) : v.Sound k s :=
  Every.lookup? (P := Value.Sound k) h found

theorem Sound.of_eq (frames : s'.frames = s.frames) (fields : s'.fields = s.fields)
    (ids : s.nextId ≤ s'.nextId) : s'.Sound k :=
  Every.of_eq .later h frames fields ids

theorem Sound.push (scope : Scope) {b : Bindings}
    (values : ∀ name v, b.get? name = some v → v.Sound k s) : (s.push scope b).2.Sound k :=
  Every.push .later h scope values

theorem Sound.bind (f : FrameId) {name : Name} {value : Value}
    (unreserved : name.isReserved = false) (sound : value.Sound k (s.bind f name value)) :
    (s.bind f name value).Sound k :=
  Every.bind .later h (.bind s f value unreserved) sound

theorem Sound.newObject (c : Class) : (s.newObject c).2.Sound k :=
  Every.newObject .later h c

theorem Sound.setField (o : Object) (name : Name) {value : Value} (sound : value.Sound k s) :
    (s.setField o name value).Sound k :=
  Every.setField .later h o name sound

end Store

end

end Lox
