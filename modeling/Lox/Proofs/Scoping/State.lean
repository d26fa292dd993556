import Lox.Proofs.Classes.Bound

/-!
Which text stands behind the frames of a scope.

The frames of a scope come from the blocks and functions around the part of the program that runs in
it: a run of a block makes one, a call of a function makes one inside those that the function has
captured, and the frames of `this` and `super` stand in between (`Setting.Surrounds`). A frame gets
its names from the parameters of the call that makes it and from the declarations executed in it
(`Setting.Binds`). `Store.Scoped` says of a store that its values and names are in this order, and
`Store.Onward` that frames keep their names on the way to a later store and gain only those declared
in between.
-/

namespace Lox

open Run

/-! ### What a function declares -/

theorem Part.Contains.trans {p q r : Part} (h : p.Contains q) (h' : q.Contains r) :
    p.Contains r := by
  induction h with
  | self => exact h'
  | inner mem _ ih => exact .inner mem (ih h')

/-- The name of the variable that a part declares. -/
def Part.declared? : Part → Option Name
  | .stmt s => s.declaredName?
  | .param name => some name
  | _ => none

namespace FunctionDecl

variable {decl : FunctionDecl} {p q : Part} {name : Name}

/-- The function declares the name, as a parameter or anywhere in its body. -/
def Declares (decl : FunctionDecl) (name : Name) : Prop :=
  ∃ p ∈ decl.parts, p.Somewhere fun q => q.declared? = some name

/-- The part is the function or stands in it. -/
def Spans (decl : FunctionDecl) (p : Part) : Prop :=
  (Part.function decl).Contains p ∨ (Part.method decl).Contains p

theorem Spans.contains (h : decl.Spans p) (inside : p.Contains q) : decl.Spans q :=
  h.imp (·.trans inside) (·.trans inside)

theorem Spans.inner (h : decl.Spans p) (mem : q ∈ p.parts) : decl.Spans q :=
  h.contains (.inner mem .self)

theorem Spans.declares (h : decl.Spans p) (declared : p.declared? = some name) :
    decl.Declares name := by
  rcases h with h | h
  all_goals
    rcases Part.contains_iff.mp h with rfl | ⟨q, mem, inside⟩
    · cases declared
    · exact ⟨q, mem, p, inside, declared⟩

end FunctionDecl

/-! ### Frames and the text -/

/-- The frame is neither the root nor a global one, and binds a reserved word: it is one of those
that hold `this` or `super`. -/
structure Store.HoldsWord (s : Store) (f : FrameId) : Prop where
  inner : 2 ≤ f
  word : ∃ name, Name.isReserved name = true ∧ (s.frame f).contains name = true

theorem Store.lt_of_contains {s : Store} {f : FrameId} {name : Name}
    (bound : (s.frame f).contains name = true) : f < s.frames.size := by
  by_contra outside
  rw [frame_of_size_le (Nat.le_of_not_lt outside)] at bound
  cases bound

theorem Store.HoldsWord.later {s s' : Store} {f : FrameId} (h : s.HoldsWord f)
    (later : s.Later s') : s'.HoldsWord f := by
  obtain ⟨name, reserved, bound⟩ := h.word
  refine ⟨h.inner, name, reserved, ?_⟩
  unfold Bindings.contains
  rw [later.grows.reserved f (lt_of_contains bound) name reserved]
  exact bound

/-- The function was made from the text in the scope; right inside the scope there may be frames of
`this` and `super`. -/
structure Closure.MadeFrom (f : Closure) (s : Store) (scope : Scope) (p : Part) : Prop where
  text : p = .function f.decl ∨ p = .method f.decl
  chain : ∃ words, f.scope.chain = words ++ scope.chain ∧ ∀ g ∈ words, s.HoldsWord g

/-- The frames of the scope come from what is around the part: everything may run in the global
scope; a run of a block and a call of a function make a frame for what is in them. -/
inductive Setting.Surrounds (k : Setting) : Scope → Part → Prop where
  | global {p} : Surrounds k .global p
  | inner {scope p q} : Surrounds k scope p → q ∈ p.parts → Surrounds k scope q
  | block {fuel scope body s} : k.moments (.exec (fuel + 1) scope (.block body)) s →
      Surrounds k scope (.stmt (.block body)) →
      Surrounds k ⟨s.frames.size, scope.chain⟩ (.stmt (.block body))
  | call {fuel f args s scope p} : k.moments (.closure (fuel + 1) f args) s →
      f.MadeFrom s scope p → Surrounds k scope p → Surrounds k (f.frameOf args s).1 p

/-- The function was made where it stands in the text. -/
def Closure.Surrounded (k : Setting) (s : Store) (f : Closure) : Prop :=
  ∃ scope p, f.MadeFrom s scope p ∧ k.Surrounds scope p

/-- The functions that the value holds were made where they stand in the text. -/
def Value.Surrounded (k : Setting) (s : Store) (v : Value) : Prop :=
  ∀ f ∈ v.functions, f.Surrounded k s

/-- The same of the value of a `return`. -/
def Flow.Surrounded (k : Setting) (s : Store) : Flow → Prop
  | .normal => True
  | .return v => v.Surrounded k s

/-- The frame gets the name as a parameter of the call that makes it, or by a declaration executed
in it. -/
inductive Setting.Binds (k : Setting) : FrameId → Name → Prop where
  | param {fuel f args s name} : k.moments (.closure (fuel + 1) f args) s → name ∈ f.decl.params →
      Binds k s.frames.size name
  | declared {fuel scope stmt s name} : k.moments (.exec (fuel + 1) scope stmt) s →
      stmt.declaredName? = some name → Binds k scope.frame name

/-- The values and names in the store come from the text. -/
structure Store.Scoped (k : Setting) (s : Store) : Prop where
  size : 2 ≤ s.frames.size
  values : s.Every (Value.Surrounded k)
  names : ∀ f, 2 ≤ f → ∀ name, (s.frame f).contains name = true →
    name.isReserved = true ∨ k.Binds f name

section

variable {k : Setting} {s s' : Store} {scope : Scope}

/-! ### What lasts -/

theorem Closure.MadeFrom.later {f : Closure} {p : Part} (h : f.MadeFrom s scope p)
    (later : s.Later s') : f.MadeFrom s' scope p := by
  obtain ⟨words, split, hold⟩ := h.chain
  exact ⟨h.text, words, split, fun g mem => (hold g mem).later later⟩

theorem Closure.Surrounded.later {f : Closure} (h : f.Surrounded k s) (later : s.Later s') :
    f.Surrounded k s' := by
  obtain ⟨scope, p, made, surrounds⟩ := h
  exact ⟨scope, p, made.later later, surrounds⟩

theorem Value.Surrounded.later {v : Value} (h : v.Surrounded k s) (later : s.Later s') :
    v.Surrounded k s' :=
  fun f mem => (h f mem).later later

/-! ### Functions -/

theorem Value.Surrounded.of_isScalar {v : Value} (scalar : v.IsScalar) : v.Surrounded k s := by
  cases v with
  | function | native | cls | object => cases scalar
  | _ => exact fun f mem => nomatch mem

theorem Value.Surrounded.of_isPlain {v : Value} (plain : v.isPlain = true) :
    v.Surrounded k s := by
  cases v with
  | function | cls | object => cases plain
  | _ => exact fun f mem => nomatch mem

/-- What is made right in the scope. -/
theorem Closure.surrounded_of_scope {f : Closure} {p : Part} (surrounds : k.Surrounds f.scope p)
    (text : p = .function f.decl ∨ p = .method f.decl) : f.Surrounded k s :=
  ⟨f.scope, p, ⟨text, [], rfl, nofun⟩, surrounds⟩

/-- A frame with a reserved word may be put around a function. -/
theorem Closure.Surrounded.bind {m : Closure} {g : FrameId} (h : m.Surrounded k s)
    (holds : s.HoldsWord g) :
    Closure.Surrounded k s { m with scope := ⟨g, m.scope.chain⟩ } := by
  obtain ⟨scope, p, ⟨text, words, split, hold⟩, surrounds⟩ := h
  refine ⟨scope, p, ⟨text, g :: words, congrArg (g :: ·) split, ?_⟩, surrounds⟩
  exact List.forall_mem_cons.mpr ⟨holds, hold⟩

/-- The methods of a class are among the functions of the class and of its instances. -/
theorem Class.surrounded_of_method? {c : Class} (h : (Value.cls c).Surrounded k s) {name : Name}
    {m : Closure} (found : c.method? name = some m) : m.Surrounded k s := by
  obtain ⟨body, mem, found⟩ := List.exists_of_findSome?_eq_some found
  have inside := List.mem_of_getLast? found
  exact h m (List.mem_flatMap.mpr ⟨body, mem, (List.mem_filter.mp inside).1⟩)

theorem Value.Passed.surrounded {args : List Value} {v : Value} (h : v.Passed k.native args)
    (args : ∀ a ∈ args, a.Surrounded k s) : v.Surrounded k s := by
  cases h with
  | plain plain _ => exact .of_isPlain plain
  | argument mem => exact args v mem
  | @cls a c d mem inside above =>
    intro f held
    obtain ⟨body, mem', held⟩ := List.mem_flatMap.mp held
    have held : f ∈ c.lineage.flatMap (·.methods) :=
      List.mem_flatMap.mpr ⟨body, above.mem mem', held⟩
    cases a with
    | cls e =>
      cases List.mem_singleton.mp inside
      exact args _ mem f held
    | object o =>
      cases List.mem_singleton.mp inside
      exact args _ mem f held
    | _ => cases inside

/-! ### Changes of the store -/

namespace Store.Scoped

variable (h : s.Scoped k)
include h

theorem of_eq (frames : s'.frames = s.frames) (fields : s'.fields = s.fields)
    (ids : s.nextId ≤ s'.nextId) : s'.Scoped k := by
  have frame : ∀ f, s'.frame f = s.frame f := fun f => by simp only [Store.frame, frames]
  refine ⟨frames ▸ h.size, Store.Every.of_eq .later h.values frames fields ids, fun f inner => ?_⟩
  rw [frame]
  exact h.names f inner

theorem push (scope : Scope) {b : Bindings}
    (values : ∀ name v, b.get? name = some v → v.Surrounded k s)
    (names : ∀ name, b.contains name = true → name.isReserved = true ∨ k.Binds s.frames.size name) :
    (s.push scope b).2.Scoped k := by
  refine ⟨?_, Store.Every.push .later h.values scope values, fun f inner name bound => ?_⟩
  · rw [Store.size_frames_push]
    exact Nat.le_succ_of_le h.size
  · rw [Store.frame_push] at bound
    split at bound
    · rename_i same
      exact same ▸ names name bound
    · exact h.names f inner name bound

theorem bind {f : FrameId} {name : Name} {value : Value} (later : s.Later (s.bind f name value))
    (surrounded : value.Surrounded k s)
    (known : (s.frame f).contains name = true ∨ k.Binds f name) :
    (s.bind f name value).Scoped k := by
  refine ⟨?_, Store.Every.bind .later h.values later (surrounded.later later),
    fun g inner other bound => ?_⟩
  · rw [Store.size_frames_bind]
    exact h.size
  · rw [Store.frame_bind] at bound
    split at bound
    · rename_i here
      obtain ⟨rfl, -⟩ := here
      rcases (Bindings.contains_insert _ _ _ _).mp bound with rfl | old
      · exact known.elim (h.names g inner other) .inr
      · exact h.names g inner other old
    · exact h.names g inner other bound

theorem newObject (c : Class) : (s.newObject c).2.Scoped k :=
  ⟨h.size, Store.Every.newObject .later h.values c, h.names⟩

theorem setField (o : Object) (name : Name) {value : Value} (surrounded : value.Surrounded k s) :
    (s.setField o name value).Scoped k :=
  ⟨h.size, Store.Every.setField .later h.values o name surrounded, h.names⟩

/-- A frame that is made for `this` or `super`. -/
theorem pushWord (scope : Scope) {word : Name} (reserved : word.isReserved = true) {v : Value}
    (surrounded : v.Surrounded k s) :
    (s.push scope [(word, v)]).2.Scoped k ∧
      (s.push scope [(word, v)]).2.HoldsWord s.frames.size := by
  have one : ∀ name, Bindings.contains [(word, v)] name = true ↔ word = name := by
    intro name
    unfold Bindings.contains Bindings.get?
    split <;> simp_all
  constructor
  · refine h.push scope (fun name w found => ?_) fun name bound => .inl ?_
    · obtain rfl := Bindings.eq_of_get?_singleton found
      exact surrounded
    · exact (one name).mp bound ▸ reserved
  · refine ⟨h.size, word, reserved, ?_⟩
    rw [Store.frame_push_self]
    exact (one word).mpr rfl

end Store.Scoped

/-! ### Declarations in between -/

/-- Between the two stores a declaration of the name was executed in the frame. -/
def Store.DeclaredBetween (host : Host) (moments : Work → Store → Prop) (s s' : Store)
    (f : FrameId) (name : Name) : Prop :=
  ∃ fuel scope stmt u t, moments (.exec (fuel + 1) scope stmt) u ∧
    stmt.declaredName? = some name ∧ scope.frame = f ∧
    exec host (fuel + 1) scope stmt u = .ok .normal t ∧ s.Later t ∧ t.Later s'

/-- From one store to a later one: the frames keep their names, and gain those declared in
between. -/
structure Store.Onward (k : Setting) (s s' : Store) : Prop where
  later : s.Later s'
  keeps : s.Keeps (s.DeclaredBetween k.host k.moments s') s'

namespace Store

variable {added added' : FrameId → Name → Prop} {s'' : Store}

theorem Keeps.mono (h : s.Keeps added s') (more : ∀ f name, added f name → added' f name) :
    s.Keeps added' s' :=
  ⟨h.size, h.kept, fun f lt name bound => (h.only f lt name bound).imp_right (more f name)⟩

theorem Onward.refl (s : Store) : s.Onward k s := ⟨.refl s, .refl s⟩

theorem Onward.trans (h : s.Onward k s') (h' : s'.Onward k s'') : s.Onward k s'' := by
  refine ⟨h.later.trans h'.later, Nat.le_trans h.keeps.size h'.keeps.size, ?_, ?_⟩
  · intro f lt name bound
    exact h'.keeps.kept f (Nat.lt_of_lt_of_le lt h.keeps.size) name (h.keeps.kept f lt name bound)
  · intro f lt name bound
    rcases h'.keeps.only f (Nat.lt_of_lt_of_le lt h.keeps.size) name bound with bound | gained
    · refine (h.keeps.only f lt name bound).imp_right ?_
      rintro ⟨fuel, scope, stmt, u, t, moment, declares, here, result, after, before⟩
      exact ⟨fuel, scope, stmt, u, t, moment, declares, here, result, after,
        before.trans h'.later⟩
    · obtain ⟨fuel, scope, stmt, u, t, moment, declares, here, result, after, before⟩ := gained
      exact .inr ⟨fuel, scope, stmt, u, t, moment, declares, here, result,
        h.later.trans after, before⟩

/-- A step that binds nothing in the frames that were there before. -/
theorem Onward.of_nothing (later : s.Later s') (keeps : s.Keeps nothing s') : s.Onward k s' :=
  ⟨later, keeps.mono fun _ _ none => none.elim⟩

end Store

end

end Lox
