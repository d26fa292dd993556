import Lox.Eval
import Lox.Proofs.Check
import Lox.Proofs.Parse.Regular
import Lox.Proofs.Store

/-!
What holds of the store while checked programs run.

A scope suits a kind of class if `this` is an instance and `super` a class wherever the checks let
them be used. Every function in the store was checked, and its scope suits the class around it; a
method is only bound to an instance later, so its scope need not know `this` yet. Since no frame
ever changes what it says about a reserved word, all this lasts as the store grows. The main
statements are that growth preserves what holds of values (`Value.Ok.grows`) and that every change of
the store is growth (`Store.Becomes`).
-/

namespace Lox

open Check (ClassKind FunctionKind)

/-! ### Growing stores -/

/-- The later store has the frames of the earlier one, and they bind reserved words to the same
values. -/
structure Store.Grows (s s' : Store) : Prop where
  size : s.frames.size ≤ s'.frames.size
  reserved : ∀ f < s.frames.size, ∀ name, Name.isReserved name = true →
    (s'.frame f).get? name = (s.frame f).get? name

namespace Store

theorem Grows.refl (s : Store) : s.Grows s := ⟨Nat.le_refl _, fun _ _ _ _ => rfl⟩

theorem Grows.trans {s s' s'' : Store} (h : s.Grows s') (h' : s'.Grows s'') : s.Grows s'' := by
  constructor
  · exact Nat.le_trans h.size h'.size
  · intro f lt name reserved
    rw [h'.reserved f (Nat.lt_of_lt_of_le lt h.size) name reserved, h.reserved f lt name reserved]

theorem Grows.lookup? {s s' : Store} (h : s.Grows s') {name : Name}
    (reserved : Name.isReserved name = true) {chain : List FrameId}
    (bounded : ∀ f ∈ chain, f < s.frames.size) : s'.lookup? name chain = s.lookup? name chain :=
  lookup?_congr fun f mem => h.reserved f (bounded f mem) name reserved

/-- What is found along a chain is bound in one of its frames. -/
theorem exists_of_lookup? {s : Store} {name : Name} {chain : List FrameId} {v : Value}
    (h : s.lookup? name chain = some v) : ∃ f ∈ chain, (s.frame f).get? name = some v := by
  induction chain with
  | nil => cases h
  | cons f rest ih =>
    unfold Store.lookup? at h
    cases found : (s.frame f).get? name with
    | some w =>
      rw [found] at h
      cases h
      exact ⟨f, by simp, found⟩
    | none =>
      rw [found] at h
      obtain ⟨g, mem, found⟩ := ih h
      exact ⟨g, by simp [mem], found⟩

theorem lookup?_cons_of_none {s : Store} {name : Name} {f : FrameId} {rest : List FrameId}
    (h : (s.frame f).get? name = none) : s.lookup? name (f :: rest) = s.lookup? name rest := by
  rw [lookup?, h]

theorem lookup?_cons_of_some {s : Store} {name : Name} {f : FrameId} {rest : List FrameId}
    {v : Value} (h : (s.frame f).get? name = some v) : s.lookup? name (f :: rest) = some v := by
  rw [lookup?, h]

end Store

theorem isReserved_thisName : Name.isReserved thisName = true := rfl

theorem isReserved_superName : Name.isReserved superName = true := rfl

/-! ### Scopes -/

/-- All frames of a scope are in the store. -/
def Scope.Bounded (s : Store) (scope : Scope) : Prop := ∀ f ∈ scope.chain, f < s.frames.size

/-- A scope in which code inside a class of the given kind may run. -/
structure Scope.Suits (s : Store) (cls : ClassKind) (scope : Scope) : Prop where
  bounded : scope.Bounded s
  this : cls ≠ .none → ∃ o, s.lookup? thisName scope.chain = some (.object o)
  super : cls = .derived → ∃ c, s.lookup? superName scope.chain = some (.cls c)

namespace Scope

variable {s s' : Store} {scope : Scope} {cls : ClassKind}

theorem Bounded.grows (h : scope.Bounded s) (grows : s.Grows s') : scope.Bounded s' :=
  fun f mem => Nat.lt_of_lt_of_le (h f mem) grows.size

theorem Suits.grows (h : scope.Suits s cls) (grows : s.Grows s') : scope.Suits s' cls := by
  have this := grows.lookup? isReserved_thisName h.bounded
  have super := grows.lookup? isReserved_superName h.bounded
  constructor
  · exact h.bounded.grows grows
  · intro inside
    rw [this]
    exact h.this inside
  · intro derived
    rw [super]
    exact h.super derived

theorem Bounded.push (h : scope.Bounded s) (b : Bindings) :
    Bounded (s.push scope b).2 ⟨s.frames.size, scope.chain⟩ := by
  intro f mem
  rw [Store.size_frames_push]
  rcases List.mem_cons.mp mem with rfl | mem
  · exact Nat.lt_succ_self _
  · exact Nat.lt_succ_of_lt (h f mem)

end Scope

theorem Store.Grows.push (s : Store) (scope : Scope) (b : Bindings) :
    s.Grows (s.push scope b).2 := by
  constructor
  · rw [size_frames_push]
    exact Nat.le_succ _
  · intro f lt name _
    rw [frame_push, if_neg (Nat.ne_of_lt lt)]

/-- The new frame of a scope holds what it was given. -/
theorem Store.frame_push_self (s : Store) (scope : Scope) (b : Bindings) :
    (s.push scope b).2.frame s.frames.size = b := by
  rw [frame_push, if_pos rfl]

/-- A new frame without reserved words changes nothing for the code in it. -/
theorem Scope.Suits.push {s : Store} {scope : Scope} {cls : ClassKind} (h : scope.Suits s cls)
    {b : Bindings} (unreserved : ∀ name, Name.isReserved name = true → b.get? name = none) :
    Scope.Suits (s.push scope b).2 cls ⟨s.frames.size, scope.chain⟩ := by
  have outer := h.grows (.push s scope b)
  have skip : ∀ name, Name.isReserved name = true →
      (s.push scope b).2.lookup? name (s.frames.size :: scope.chain) =
        (s.push scope b).2.lookup? name scope.chain := by
    intro name reserved
    apply Store.lookup?_cons_of_none
    rw [Store.frame_push_self]
    exact unreserved name reserved
  constructor
  · exact h.bounded.push b
  · intro inside
    obtain ⟨o, found⟩ := outer.this inside
    exact ⟨o, (skip _ isReserved_thisName).trans found⟩
  · intro derived
    obtain ⟨c, found⟩ := outer.super derived
    exact ⟨c, (skip _ isReserved_superName).trans found⟩

/-! ### Values -/

/-- A checked function whose scope suits the class around it. -/
def Closure.Ok (s : Store) (f : Closure) : Prop :=
  ∃ cls kind, Check.function cls kind f.decl = .ok () ∧ f.decl.Regular ∧ f.scope.Suits s cls ∧
    (f.isInitializer = true → cls ≠ .none)

/-- A checked method, not bound to an instance yet. -/
def Closure.MethodOk (s : Store) (m : Closure) : Prop :=
  ∃ cls kind, cls ≠ .none ∧ Check.function cls kind m.decl = .ok () ∧ m.decl.Regular ∧
    m.scope.Bounded s ∧
    (cls = .derived → ∃ c, s.lookup? superName m.scope.chain = some (.cls c))

/-- All methods of a class are checked, those of its superclasses included. -/
def Class.Ok (s : Store) (c : Class) : Prop := ∀ body ∈ c.lineage, ∀ m ∈ body.methods, m.MethodOk s

/-- The functions in a value are checked. -/
def Value.Ok (s : Store) : Value → Prop
  | .function _ f => f.Ok s
  | .cls c => c.Ok s
  | .object o => o.cls.Ok s
  | _ => True

/-- All values in the store are in order. -/
structure Store.Ok (s : Store) : Prop where
  frames : ∀ f name v, (s.frame f).get? name = some v → v.Ok s
  fields : ∀ o name v, (s.fieldsOf o).get? name = some v → v.Ok s

section

variable {s s' : Store}

theorem Closure.Ok.grows {f : Closure} (h : f.Ok s) (grows : s.Grows s') : f.Ok s' := by
  obtain ⟨cls, kind, checked, regular, suits, initializer⟩ := h
  exact ⟨cls, kind, checked, regular, suits.grows grows, initializer⟩

theorem Closure.MethodOk.grows {m : Closure} (h : m.MethodOk s) (grows : s.Grows s') :
    m.MethodOk s' := by
  obtain ⟨cls, kind, inside, checked, regular, bounded, super⟩ := h
  refine ⟨cls, kind, inside, checked, regular, bounded.grows grows, fun derived => ?_⟩
  rw [grows.lookup? isReserved_superName bounded]
  exact super derived

theorem Class.Ok.grows {c : Class} (h : c.Ok s) (grows : s.Grows s') : c.Ok s' :=
  fun body mem m mem' => (h body mem m mem').grows grows

theorem Value.Ok.grows {v : Value} (h : v.Ok s) (grows : s.Grows s') : v.Ok s' := by
  cases v with
  | function id f => exact Closure.Ok.grows h grows
  | cls c => exact Class.Ok.grows h grows
  | object o => exact Class.Ok.grows h grows
  | _ => trivial

/-- A method found in a class is one of its methods, or of its superclasses. -/
theorem Class.Ok.method? {c : Class} (h : c.Ok s) {name : Name} {m : Closure}
    (found : c.method? name = some m) : m.MethodOk s := by
  unfold Class.method? at found
  obtain ⟨body, mem, found⟩ := List.exists_of_findSome?_eq_some found
  have inside := (List.mem_filter.mp (List.mem_of_getLast? found)).1
  exact h body mem m inside

theorem Store.Ok.lookup? (h : s.Ok) {name : Name} {chain : List FrameId} {v : Value}
    (found : s.lookup? name chain = some v) : v.Ok s := by
  obtain ⟨f, -, found⟩ := exists_of_lookup? found
  exact h.frames f name v found

end

/-! ### Changes of the store -/

/-- The later store is in order and has grown from the earlier one. -/
structure Store.Becomes (s s' : Store) : Prop where
  ok : s'.Ok
  grows : s.Grows s'

namespace Store

variable {s s' : Store}

theorem Becomes.refl (h : s.Ok) : s.Becomes s := ⟨h, .refl s⟩

theorem Becomes.trans {s'' : Store} (h : s.Becomes s') (h' : s'.Becomes s'') : s.Becomes s'' :=
  ⟨h'.ok, h.grows.trans h'.grows⟩

/-- A change of counters or of the output. -/
theorem Ok.becomes_of_eq (h : s.Ok) (frames : s'.frames = s.frames)
    (fields : s'.fields = s.fields) : s.Becomes s' := by
  have frame : ∀ f, s'.frame f = s.frame f := fun f => by simp only [frame, frames]
  have fieldsOf : ∀ o, s'.fieldsOf o = s.fieldsOf o := fun o => by simp only [fieldsOf, fields]
  have grows : s.Grows s' := by
    constructor
    · exact Nat.le_of_eq (congrArg Array.size frames.symm)
    · intro f _ name _
      rw [frame]
  refine ⟨⟨?_, ?_⟩, grows⟩
  · intro f name v found
    rw [frame] at found
    exact (h.frames f name v found).grows grows
  · intro o name v found
    rw [fieldsOf] at found
    exact (h.fields o name v found).grows grows

theorem Ok.becomes_push (h : s.Ok) (scope : Scope) {b : Bindings}
    (ok : ∀ name v, b.get? name = some v → v.Ok s) : s.Becomes (s.push scope b).2 := by
  have grows := Grows.push s scope b
  refine ⟨⟨?_, ?_⟩, grows⟩
  · intro f name v found
    rw [frame_push] at found
    split at found
    · exact (ok name v found).grows grows
    · exact (h.frames f name v found).grows grows
  · intro o name v found
    exact (h.fields o name v found).grows grows

theorem Ok.becomes_bind (h : s.Ok) (f : FrameId) {name : Name} {value : Value}
    (unreserved : name.isReserved = false) (ok : value.Ok s) : s.Becomes (s.bind f name value) := by
  have grows : s.Grows (s.bind f name value) := by
    constructor
    · exact Nat.le_of_eq (size_frames_bind s f name value).symm
    · intro g _ other reserved
      rcases s.get?_frame_bind f g name other value with same | ⟨rfl, -⟩
      · exact same
      · rw [unreserved] at reserved
        cases reserved
  refine ⟨⟨?_, ?_⟩, grows⟩
  · intro g other v found
    rcases s.get?_frame_bind f g name other value with same | ⟨-, bound⟩
    · rw [same] at found
      exact (h.frames g other v found).grows grows
    · rw [bound] at found
      cases found
      exact ok.grows grows
  · intro o other v found
    exact (h.fields o other v found).grows grows

theorem Ok.becomes_newObject (h : s.Ok) (c : Class) : s.Becomes (s.newObject c).2 := by
  have grows : s.Grows (s.newObject c).2 := ⟨Nat.le_refl _, fun _ _ _ _ => rfl⟩
  refine ⟨⟨?_, ?_⟩, grows⟩
  · intro f name v found
    exact (h.frames f name v found).grows grows
  · intro o name v found
    rw [fieldsOf_newObject] at found
    exact (h.fields o name v found).grows grows

theorem Ok.becomes_setField (h : s.Ok) (o : Object) (name : Name) {value : Value}
    (ok : value.Ok s) : s.Becomes (s.setField o name value) := by
  have grows : s.Grows (s.setField o name value) := ⟨Nat.le_refl _, fun _ _ _ _ => rfl⟩
  refine ⟨⟨?_, ?_⟩, grows⟩
  · intro f name v found
    exact (h.frames f name v found).grows grows
  · intro p other v found
    rcases s.get?_fieldsOf_setField o p name other value with same | written
    · rw [same] at found
      exact (h.fields p other v found).grows grows
    · rw [written] at found
      cases found
      exact ok.grows grows

end Store

/-! ### Parameters -/

/-- What is bound by a list of entries is one of them. -/
theorem Bindings.mem_of_get?_ofList {entries : List (Name × Value)} {name : Name} {v : Value}
    (h : (Bindings.ofList entries).get? name = some v) : (name, v) ∈ entries := by
  suffices ∀ b : Bindings, (entries.foldl (fun b e => b.insert e.1 e.2) b).get? name = some v →
      (name, v) ∈ entries ∨ b.get? name = some v by
    rcases this [] h with mem | absent
    · exact mem
    · cases absent
  clear h
  induction entries with
  | nil =>
    intro b h
    exact .inr h
  | cons e rest ih =>
    intro b h
    rcases ih _ h with mem | bound
    · exact .inl (List.mem_cons_of_mem e mem)
    · by_cases same : name = e.1
      · rw [same, get?_insert_self] at bound
        cases bound
        exact .inl (by simp [same])
      · rw [get?_insert_of_ne same] at bound
        exact .inr bound

/-- The parameters of a call are bound to its arguments. -/
theorem Bindings.mem_of_get?_params {ps : List Name} {args : List Value} {name : Name} {v : Value}
    (h : (Bindings.ofList (ps.zip args)).get? name = some v) : name ∈ ps ∧ v ∈ args :=
  List.of_mem_zip (mem_of_get?_ofList h)

end Lox
