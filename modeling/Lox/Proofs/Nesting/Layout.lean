import Lox.Proofs.Eval.Reach

/-!
How the scopes and classes of a session are laid out.

A scope lists the frames around its own, and a class the declarations of its superclasses, so that
one frame or one declaration is mentioned in many places. A layout is the set of scopes and classes
that have been made, and says that these mentions agree: every frame has its one place below the
global frame, every class its one line of superclasses. A layout only grows, by a frame inside a
scope that is there (`Layout.addScope`) or by a class whose superclass and methods are
(`Layout.addClass`). A store is laid out (`Store.LaidOut`) if all values in it, reachable or not,
are made from the scopes and classes of a layout.
-/

namespace Lox

/-- The scope of the builtins: the root frame alone. -/
def Scope.root : Scope := ⟨0, []⟩

/-- The global scope of a session. -/
def Scope.global : Scope := ⟨1, [0]⟩

theorem Scope.chain_injective {a b : Scope} (h : a.chain = b.chain) : a = b := by
  cases a
  cases b
  cases h
  rfl

theorem Class.lineage_injective {c d : Class} (h : c.lineage = d.lineage) : c = d := by
  cases c
  cases d
  cases h
  rfl

theorem Class.superclass?_eq_none {c : Class} : c.superclass? = none ↔ c.ancestors = [] := by
  unfold Class.superclass?
  cases c.ancestors <;> simp

theorem Class.superclass?_eq_some {c d : Class} :
    c.superclass? = some d ↔ c.ancestors = d.lineage := by
  obtain ⟨body, ancestors⟩ := d
  unfold Class.superclass?
  cases c.ancestors <;> simp [Class.lineage]

/-! ### Layouts -/

/-- The scopes and classes that have been made, apart from the root. -/
structure Layout where
  scopes : Scope → Prop
  classes : Class → Prop
  global : scopes .global
  ends : ∀ scope, scopes scope → Scope.global.chain <:+ scope.chain
  descends : ∀ scope, scopes scope → scope.chain.Pairwise (· > ·)
  around : ∀ scope, scopes scope → ∀ outer : Scope, outer.chain <:+ scope.chain →
    outer = .root ∨ scopes outer
  place : ∀ a b, scopes a → scopes b → a.frame = b.frame → a = b
  numbers : ∀ c, classes c → c.lineage.Pairwise (fun body above => body.id > above.id)
  above : ∀ c, classes c → ∀ d : Class, d.lineage <:+ c.lineage → classes d
  identity : ∀ c d, classes c → classes d → c.body.id = d.body.id → c = d
  methods : ∀ c, classes c → ∀ m ∈ c.body.methods, scopes m.scope

namespace Layout

/-- What there is at the start of a session. -/
def start : Layout where
  scopes scope := scope = .global
  classes _ := False
  global := rfl
  ends := by
    rintro _ rfl
    exact List.suffix_refl _
  descends := by
    rintro _ rfl
    decide
  around := by
    rintro _ rfl outer inside
    rcases List.suffix_cons_iff.mp inside with same | inside
    · exact .inr (Scope.chain_injective same)
    · rcases List.suffix_cons_iff.mp inside with same | inside
      · exact .inl (Scope.chain_injective same)
      · cases List.suffix_nil.mp inside
  place := by
    rintro _ _ rfl rfl _
    rfl
  numbers _ none := none.elim
  above _ none := none.elim
  identity _ _ none := none.elim
  methods _ none := none.elim

/-- The declarations of a class and its superclasses are those of classes in the layout. -/
theorem exists_of_mem_lineage (l : Layout) {c : Class} (known : l.classes c) {body : ClassBody}
    (mem : body ∈ c.lineage) : ∃ d, l.classes d ∧ d.body = body := by
  obtain ⟨below, ancestors, split⟩ := List.append_of_mem mem
  refine ⟨⟨body, ancestors⟩, l.above c known _ ?_, rfl⟩
  rw [split]
  exact List.suffix_append below _

theorem inherited (l : Layout) {c : Class} (known : l.classes c) :
    ∀ body ∈ c.lineage, ∀ m ∈ body.methods, l.scopes m.scope := by
  intro body mem
  obtain ⟨d, known, rfl⟩ := l.exists_of_mem_lineage known mem
  exact l.methods d known

theorem method? (l : Layout) {c : Class} (known : l.classes c) {name : Name} {m : Closure}
    (found : c.method? name = some m) : l.scopes m.scope := by
  unfold Class.method? at found
  obtain ⟨body, mem, found⟩ := List.exists_of_findSome?_eq_some found
  exact l.inherited known body mem m (List.mem_filter.mp (List.mem_of_getLast? found)).1

/-- All frames of a scope but its own come before it. -/
theorem lt_of_mem_chain (l : Layout) {scope : Scope} (known : l.scopes scope) {n : Nat}
    (below : scope.frame < n) : ∀ f ∈ scope.chain, f < n := by
  have outer := (List.pairwise_cons.mp (l.descends scope known)).1
  intro f mem
  rcases List.mem_cons.mp mem with rfl | mem
  · exact below
  · exact Nat.lt_trans (outer f mem) below

/-- Only the root comes before the global frame. -/
theorem frame_pos (l : Layout) {scope : Scope} (known : l.scopes scope) : 0 < scope.frame := by
  have mem : 1 ∈ scope.chain := (l.ends scope known).mem List.mem_cons_self
  rcases List.mem_cons.mp mem with same | mem
  · exact same ▸ Nat.one_pos
  · exact Nat.zero_lt_of_lt ((List.pairwise_cons.mp (l.descends scope known)).1 1 mem)

theorem isRoot_eq_false (l : Layout) {scope : Scope} (known : l.scopes scope) :
    scope.isRoot = false := by
  have length := (l.ends scope known).length_le
  unfold Scope.isRoot
  cases outer : scope.outer with
  | nil => simp [Scope.chain, Scope.global, outer] at length
  | cons p rest => rfl

/-- Only around the global frame there is nothing but the root. -/
theorem eq_global (l : Layout) {scope : Scope} (known : l.scopes scope)
    (isGlobal : scope.isGlobal = true) : scope = .global := by
  have length : Scope.global.chain.length = scope.chain.length := by
    simp [Scope.chain, Scope.global, eq_of_beq isGlobal]
  exact (Scope.chain_injective ((l.ends scope known).eq_of_length length)).symm

/-- A layout with one more frame, inside a scope. -/
def addScope (l : Layout) (outer : Scope) (known : l.scopes outer) (f : FrameId)
    (fresh : ∀ scope, l.scopes scope → scope.frame < f) : Layout where
  scopes scope := l.scopes scope ∨ scope = ⟨f, outer.chain⟩
  classes := l.classes
  global := .inl l.global
  ends := by
    rintro scope (old | rfl)
    · exact l.ends scope old
    · exact (l.ends outer known).trans (List.suffix_cons f _)
  descends := by
    rintro scope (old | rfl)
    · exact l.descends scope old
    · exact List.pairwise_cons.mpr
        ⟨l.lt_of_mem_chain known (fresh outer known), l.descends outer known⟩
  around := by
    rintro scope (old | rfl) inner inside
    · exact (l.around scope old inner inside).imp_right .inl
    · rcases List.suffix_cons_iff.mp inside with same | inside
      · exact .inr (.inr (Scope.chain_injective same))
      · exact (l.around outer known inner inside).imp_right .inl
  place := by
    rintro a b (old | rfl) (old' | rfl) same
    · exact l.place a b old old' same
    · exact absurd same (Nat.ne_of_lt (fresh a old))
    · exact absurd same.symm (Nat.ne_of_lt (fresh b old'))
    · rfl
  numbers := l.numbers
  above := l.above
  identity := l.identity
  methods c old m mem := .inl (l.methods c old m mem)

/-- A layout with one more class. -/
def addClass (l : Layout) (c : Class) (known : ∀ d, c.superclass? = some d → l.classes d)
    (methods : ∀ m ∈ c.body.methods, l.scopes m.scope)
    (fresh : ∀ d, l.classes d → d.body.id < c.body.id) : Layout where
  scopes := l.scopes
  classes d := l.classes d ∨ d = c
  global := l.global
  ends := l.ends
  descends := l.descends
  around := l.around
  place := l.place
  numbers := by
    rintro d (old | rfl)
    · exact l.numbers d old
    · cases found : d.superclass? with
      | none =>
        rw [Class.lineage, Class.superclass?_eq_none.mp found]
        exact List.pairwise_singleton _ _
      | some parent =>
        rw [Class.lineage, Class.superclass?_eq_some.mp found]
        refine List.pairwise_cons.mpr ⟨fun body mem => ?_, l.numbers parent (known parent found)⟩
        obtain ⟨e, old, rfl⟩ := l.exists_of_mem_lineage (known parent found) mem
        exact fresh e old
  above := by
    rintro d (old | rfl) e inside
    · exact .inl (l.above d old e inside)
    · rcases List.suffix_cons_iff.mp inside with same | inside
      · exact .inr (Class.lineage_injective same)
      · cases found : d.superclass? with
        | none =>
          rw [Class.superclass?_eq_none.mp found] at inside
          cases List.suffix_nil.mp inside
        | some parent =>
          rw [Class.superclass?_eq_some.mp found] at inside
          exact .inl (l.above parent (known parent found) e inside)
  identity := by
    rintro d e (old | rfl) (old' | rfl) same
    · exact l.identity d e old old' same
    · exact absurd same (Nat.ne_of_lt (fresh d old))
    · exact absurd same.symm (Nat.ne_of_lt (fresh e old'))
    · rfl
  methods := by
    rintro d (old | rfl)
    · exact l.methods d old
    · exact methods

/-- The later layout has everything that the earlier one has. -/
structure Within (l l' : Layout) : Prop where
  scopes : ∀ scope, l.scopes scope → l'.scopes scope
  classes : ∀ c, l.classes c → l'.classes c

theorem Within.refl (l : Layout) : l.Within l := ⟨fun _ h => h, fun _ h => h⟩

theorem Within.trans {l l' l'' : Layout} (h : l.Within l') (h' : l'.Within l'') : l.Within l'' :=
  ⟨fun scope known => h'.scopes scope (h.scopes scope known),
    fun c known => h'.classes c (h.classes c known)⟩

theorem within_addScope (l : Layout) {outer : Scope} (known : l.scopes outer) (f : FrameId)
    (fresh : ∀ scope, l.scopes scope → scope.frame < f) :
    l.Within (l.addScope outer known f fresh) :=
  ⟨fun _ => .inl, fun _ old => old⟩

theorem within_addClass (l : Layout) {c : Class} (known : ∀ d, c.superclass? = some d → l.classes d)
    (methods : ∀ m ∈ c.body.methods, l.scopes m.scope)
    (fresh : ∀ d, l.classes d → d.body.id < c.body.id) :
    l.Within (l.addClass c known methods fresh) :=
  ⟨fun _ old => old, fun _ => .inl⟩

end Layout

/-! ### Values -/

/-- A value that is made from the scopes and classes of a layout. -/
def Value.Fits : Value → Layout → Prop
  | .function _ f, l => l.scopes f.scope
  | .cls c, l => l.classes c
  | .object o, l => l.classes o.cls
  | _, _ => True

/-- The class that a value is, or that it is an instance of. -/
def Value.classes : Value → List Class
  | .cls c => [c]
  | .object o => [o.cls]
  | _ => []

namespace Value

variable {l : Layout} {v : Value}

theorem Fits.within {l' : Layout} (h : v.Fits l) (within : l.Within l') : v.Fits l' := by
  cases v with
  | function id f => exact within.scopes _ h
  | cls c => exact within.classes _ h
  | object o => exact within.classes _ h
  | _ => trivial

theorem Fits.functions (h : v.Fits l) : ∀ f ∈ v.functions, l.scopes f.scope := by
  intro f mem
  cases v with
  | function id g =>
    cases List.mem_singleton.mp mem
    exact h
  | cls c =>
    obtain ⟨body, inside, mem⟩ := List.mem_flatMap.mp mem
    exact l.inherited h body inside f mem
  | object o =>
    obtain ⟨body, inside, mem⟩ := List.mem_flatMap.mp mem
    exact l.inherited h body inside f mem
  | _ => cases mem

theorem Fits.classes (h : v.Fits l) : ∀ c ∈ v.classes, l.classes c := by
  intro c mem
  cases v with
  | cls d =>
    cases List.mem_singleton.mp mem
    exact h
  | object o =>
    cases List.mem_singleton.mp mem
    exact h
  | _ => cases mem

theorem Fits.intro (functions : ∀ f ∈ v.functions, l.scopes f.scope)
    (classes : ∀ c ∈ v.classes, l.classes c) : v.Fits l := by
  cases v with
  | function id f => exact functions f List.mem_cons_self
  | cls c => exact classes c List.mem_cons_self
  | object o => exact classes o.cls List.mem_cons_self
  | _ => trivial

end Value

/-! ### Stores -/

/-- The frames and classes of the layout are in the store, and all values in the store fit it. -/
structure Store.LaidOut (l : Layout) (s : Store) : Prop where
  frames : ∀ scope, l.scopes scope → scope.frame < s.frames.size
  ids : ∀ c, l.classes c → c.body.id < s.nextId
  values : ∀ c name v, (s.contents c).get? name = some v → v.Fits l

namespace Store

variable {l : Layout} {s : Store}

theorem LaidOut.lookup? (h : s.LaidOut l) {name : Name} {chain : List FrameId} {v : Value}
    (found : s.lookup? name chain = some v) : v.Fits l := by
  obtain ⟨f, -, found⟩ := exists_of_lookup? found
  exact h.values (.frame f) name v found

theorem LaidOut.bind (h : s.LaidOut l) (f : FrameId) (name : Name) {value : Value}
    (fits : value.Fits l) : (s.bind f name value).LaidOut l := by
  refine ⟨fun scope known => ?_, h.ids, fun c other v found => ?_⟩
  · rw [size_frames_bind]
    exact h.frames scope known
  · cases c with
    | frame g =>
      rcases s.get?_frame_bind f g name other value with same | ⟨-, bound⟩
      · exact h.values (.frame g) other v (same.symm.trans found)
      · cases bound.symm.trans found
        exact fits
    | fields address => exact h.values (.fields address) other v found

theorem LaidOut.push (h : s.LaidOut l) {scope : Scope} (known : l.scopes scope) {b : Bindings}
    (fit : ∀ name v, b.get? name = some v → v.Fits l) :
    (s.push scope b).2.LaidOut (l.addScope scope known s.frames.size h.frames) := by
  have within := l.within_addScope known s.frames.size h.frames
  refine ⟨?_, h.ids, fun c name v found => ?_⟩
  · rw [size_frames_push]
    rintro inner (old | rfl)
    · exact Nat.lt_succ_of_lt (h.frames inner old)
    · exact Nat.lt_succ_self _
  · cases c with
    | frame f =>
      rw [contents, frame_push] at found
      split at found
      · exact (fit name v found).within within
      · exact (h.values (.frame f) name v found).within within
    | fields address => exact (h.values (.fields address) name v found).within within

theorem LaidOut.newObject (h : s.LaidOut l) (c : Class) : (s.newObject c).2.LaidOut l := by
  refine ⟨h.frames, h.ids, fun d name v found => ?_⟩
  cases d with
  | frame f => exact h.values (.frame f) name v found
  | fields address =>
    have same := s.fieldsOf_newObject c ⟨c, address⟩
    exact h.values (.fields address) name v ((congrArg (·.get? name) same).symm.trans found)

theorem LaidOut.setField (h : s.LaidOut l) (o : Object) (name : Name) {value : Value}
    (fits : value.Fits l) : (s.setField o name value).LaidOut l := by
  refine ⟨h.frames, h.ids, fun c other v found => ?_⟩
  cases c with
  | frame f => exact h.values (.frame f) other v found
  | fields address =>
    rcases s.get?_fieldsOf_setField o ⟨o.cls, address⟩ name other value with same | written
    · exact h.values (.fields address) other v (same.symm.trans found)
    · cases written.symm.trans found
      exact fits

theorem LaidOut.freshId (h : s.LaidOut l) : s.freshId.2.LaidOut l :=
  ⟨h.frames, fun c known => Nat.lt_succ_of_lt (h.ids c known), h.values⟩

/-- A class that takes the next number. -/
theorem LaidOut.newClass (h : s.LaidOut l) {c : Class}
    (known : ∀ d, c.superclass? = some d → l.classes d)
    (methods : ∀ m ∈ c.body.methods, l.scopes m.scope) (next : c.body.id = s.nextId) :
    s.freshId.2.LaidOut (l.addClass c known methods fun d old => next ▸ h.ids d old) := by
  refine ⟨h.frames, ?_, fun cell name v found => ?_⟩
  · rintro d (old | rfl)
    · exact Nat.lt_succ_of_lt (h.ids d old)
    · exact next ▸ Nat.lt_succ_self _
  · exact (h.values cell name v found).within (l.within_addClass known methods _)

end Store

end Lox
