import Lox.Proofs.Eval.Ensures
import Lox.Proofs.Soundness.State

/-!
What a running program can reach.

A scope leads to its frames, a frame and an instance to the values in them, and a value to the
scopes of the functions it holds and to its own fields (`Store.Reaches`). `Store.OnlyTouches` says
that nothing else has changed from one store to a later one.

It is shown through regions: a region contains whatever is new and is not left by following values
(`Store.Confined`). Every change of the store that writes in a region only, and only values that do
not lead out of it, keeps the store confined to that region.
-/

namespace Lox

/-! ### Reachability -/

/-- What a running program can change: the bindings of a frame, or the fields of an instance. -/
inductive Cell where
  | frame (f : FrameId)
  | fields (address : Nat)
  deriving DecidableEq, Repr

/-- The frames of a scope. -/
def Scope.cells (scope : Scope) : List Cell := scope.chain.map .frame

/-- The functions and methods that a value holds: itself, those of a class and its superclasses, or
those of the class of an instance. -/
def Value.functions : Value → List Closure
  | .function _ f => [f]
  | .cls c => c.lineage.flatMap (·.methods)
  | .object o => o.cls.lineage.flatMap (·.methods)
  | _ => []

/-- Where an instance has its fields. -/
def Value.ownCells : Value → List Cell
  | .object o => [.fields o.address]
  | _ => []

/-- What a value leads to: its fields, and the scopes of its functions. -/
def Value.cells (v : Value) : List Cell := v.ownCells ++ v.functions.flatMap (·.scope.cells)

/-- What the value of a `return` leads to. -/
def Flow.cells : Flow → List Cell
  | .normal => []
  | .return v => v.cells

namespace Store

/-- What is in a cell. -/
def contents (s : Store) : Cell → Bindings
  | .frame f => s.frame f
  | .fields address => s.fields[address]?.getD []

/-- The store has the cell. -/
def Has (s : Store) : Cell → Prop
  | .frame f => f < s.frames.size
  | .fields address => address < s.fields.size

/-- Some cells lead to a cell, directly or through the values in the cells on the way. -/
inductive Reaches (s : Store) (roots : List Cell) : Cell → Prop where
  | root {c : Cell} : c ∈ roots → Reaches s roots c
  | step {c d : Cell} {name : Name} {v : Value} : Reaches s roots c →
      (s.contents c).get? name = some v → d ∈ v.cells → Reaches s roots d

/-- Code in the scope can get hold of the function. -/
def Holds (s : Store) (scope : Scope) (g : Closure) : Prop :=
  ∃ c name v, s.Reaches scope.cells c ∧ (s.contents c).get? name = some v ∧ g ∈ v.functions

/-- From one store to a later one: only what can be reached from the scope has changed. In
particular the frames that functions have captured are as they were, unless code in the scope runs
inside them or can get hold of a function that has captured them, too. -/
structure OnlyTouches (scope : Scope) (s s' : Store) : Prop where
  has : ∀ c, s.Has c → s'.Has c
  unreached : ∀ c, s.Has c → ¬ s.Reaches scope.cells c → s'.contents c = s.contents c
  captured : ∀ f < s.frames.size, f ∉ scope.chain →
    (∀ g, s.Holds scope g → f ∉ g.scope.chain) → s'.frame f = s.frame f

theorem contents_of_not_has {s : Store} {c : Cell} (h : ¬ s.Has c) : s.contents c = [] := by
  cases c with
  | frame f => exact frame_of_size_le (Nat.le_of_not_lt h)
  | fields address => simp [contents, Array.getElem?_eq_none (Nat.le_of_not_lt h)]

/-- A frame that can be reached is around the code or captured by a function it can get hold of. -/
theorem Reaches.captured {s : Store} {scope : Scope} {f : FrameId}
    (h : s.Reaches scope.cells (.frame f)) :
    f ∈ scope.chain ∨ ∃ g, s.Holds scope g ∧ f ∈ g.scope.chain := by
  cases h with
  | root mem =>
    left
    simpa [Scope.cells] using mem
  | @step c d name v reached found mem =>
    right
    rcases List.mem_append.mp mem with own | mem
    · cases v <;> simp [Value.ownCells] at own
    · obtain ⟨g, inside, mem⟩ := List.mem_flatMap.mp mem
      exact ⟨g, ⟨c, name, v, reached, found, inside⟩, by simpa [Scope.cells] using mem⟩

end Store

/-! ### Regions -/

/-- Everything in the list lies in the region. -/
def Encloses (region : Cell → Prop) (cells : List Cell) : Prop := ∀ c ∈ cells, region c

/-- From one store to a later one: outside a region, which contains all that is new, nothing has
changed, and the values in the region do not lead out of it. -/
structure Store.Confined (region : Cell → Prop) (s s' : Store) : Prop where
  fresh : ∀ c, ¬ s.Has c → region c
  has : ∀ c, s.Has c → s'.Has c
  outside : ∀ c, ¬ region c → s'.contents c = s.contents c
  inside : ∀ c name v, region c → (s'.contents c).get? name = some v → Encloses region v.cells

theorem Value.encloses_iff {region : Cell → Prop} {v : Value} :
    Encloses region v.cells ↔
      Encloses region v.ownCells ∧ ∀ f ∈ v.functions, Encloses region f.scope.cells := by
  simp only [Encloses, Value.cells, List.forall_mem_append, List.forall_mem_flatMap]

/-- The methods of a class have their scopes in the region. -/
def Class.EnclosedBy (region : Cell → Prop) (c : Class) : Prop :=
  ∀ body ∈ c.lineage, ∀ m ∈ body.methods, Encloses region m.scope.cells

section

variable {region : Cell → Prop}

theorem Class.encloses_iff {c : Class} :
    Encloses region (Value.cls c).cells ↔ c.EnclosedBy region := by
  rw [Value.encloses_iff]
  simp only [Value.ownCells, Value.functions, List.forall_mem_flatMap, Class.EnclosedBy]
  exact and_iff_right (by simp [Encloses])

theorem Object.encloses_iff {o : Object} :
    Encloses region (Value.object o).cells ↔
      region (.fields o.address) ∧ o.cls.EnclosedBy region := by
  rw [Value.encloses_iff]
  simp only [Value.ownCells, Value.functions, List.forall_mem_flatMap, Class.EnclosedBy]
  exact and_congr_left' (by simp [Encloses])

theorem Closure.encloses_iff {id : Nat} {f : Closure} :
    Encloses region (Value.function id f).cells ↔ Encloses region f.scope.cells := by
  rw [Value.encloses_iff]
  simp [Encloses, Value.ownCells, Value.functions]

theorem Class.EnclosedBy.method? {c : Class} (h : c.EnclosedBy region) {name : Name} {m : Closure}
    (found : c.method? name = some m) : Encloses region m.scope.cells := by
  unfold Class.method? at found
  obtain ⟨body, mem, found⟩ := List.exists_of_findSome?_eq_some found
  exact h body mem m (List.mem_filter.mp (List.mem_of_getLast? found)).1

end

namespace Store

variable {region : Cell → Prop} {s₀ s : Store}

/-- What can be reached from inside a region is inside. -/
theorem Confined.reaches (h : s₀.Confined region s) {roots : List Cell}
    (within : Encloses region roots) {c : Cell} (reached : s.Reaches roots c) : region c := by
  induction reached with
  | root mem => exact within _ mem
  | step _ found mem ih => exact h.inside _ _ _ ih found _ mem

theorem Confined.lookup? (h : s₀.Confined region s) {name : Name} {chain : List FrameId}
    {v : Value} (within : Encloses region (chain.map .frame))
    (found : s.lookup? name chain = some v) : Encloses region v.cells := by
  obtain ⟨f, mem, found⟩ := exists_of_lookup? found
  exact h.inside (.frame f) name v (within _ (List.mem_map_of_mem mem)) found

/-! ### Changes in a region -/

/-- A change of counters or of the output. -/
theorem Confined.of_eq (h : s₀.Confined region s) {s' : Store} (frames : s'.frames = s.frames)
    (fields : s'.fields = s.fields) : s₀.Confined region s' := by
  have contents : ∀ c, s'.contents c = s.contents c := by
    rintro (f | address)
    · simp only [contents, frame, frames]
    · simp only [contents, fields]
  refine ⟨h.fresh, fun c old => ?_, fun c out => ?_, fun c name v inside => ?_⟩
  · have has := h.has c old
    cases c with
    | frame f => simpa only [Has, frames] using has
    | fields address => simpa only [Has, fields] using has
  · rw [contents, h.outside c out]
  · rw [contents]
    exact h.inside c name v inside

theorem Confined.push (h : s₀.Confined region s) (scope : Scope) {b : Bindings}
    (within : ∀ name v, b.get? name = some v → Encloses region v.cells) :
    s₀.Confined region (s.push scope b).2 := by
  refine ⟨h.fresh, fun c old => ?_, fun c out => ?_, fun c name v inside found => ?_⟩
  · have has := h.has c old
    cases c with
    | frame f =>
      rw [Has, size_frames_push]
      exact Nat.lt_succ_of_lt has
    | fields address => exact has
  · cases c with
    | frame f =>
      have ne : f ≠ s.frames.size := by
        rintro rfl
        exact out (h.fresh _ fun old => Nat.lt_irrefl _ (h.has (.frame s.frames.size) old))
      rw [contents, frame_push, if_neg ne]
      exact h.outside (.frame f) out
    | fields address => exact h.outside (.fields address) out
  · cases c with
    | frame f =>
      rw [contents, frame_push] at found
      split at found
      · exact within name v found
      · exact h.inside (.frame f) name v inside found
    | fields address => exact h.inside (.fields address) name v inside found

theorem Confined.bind (h : s₀.Confined region s) {f : FrameId} (inside : region (.frame f))
    (name : Name) {value : Value} (within : Encloses region value.cells) :
    s₀.Confined region (s.bind f name value) := by
  refine ⟨h.fresh, fun c old => ?_, fun c out => ?_, fun c other v inside' found => ?_⟩
  · have has := h.has c old
    cases c with
    | frame g => simpa only [Has, size_frames_bind] using has
    | fields address => exact has
  · cases c with
    | frame g =>
      have ne : g ≠ f := by
        rintro rfl
        exact out inside
      rw [contents, frame_bind_of_ne ne]
      exact h.outside (.frame g) out
    | fields address => exact h.outside (.fields address) out
  · cases c with
    | frame g =>
      rw [contents] at found
      rcases s.get?_frame_bind f g name other value with same | ⟨-, bound⟩
      · exact h.inside (.frame g) other v inside' (same.symm.trans found)
      · cases bound.symm.trans found
        exact within
    | fields address => exact h.inside (.fields address) other v inside' found

theorem Confined.newObject (h : s₀.Confined region s) (c : Class) :
    s₀.Confined region (s.newObject c).2 := by
  have contents : ∀ d, (s.newObject c).2.contents d = s.contents d := by
    rintro (f | address)
    · rfl
    · exact fieldsOf_newObject s c ⟨c, address⟩
  refine ⟨h.fresh, fun d old => ?_, fun d out => ?_, fun d name v inside => ?_⟩
  · have has := h.has d old
    cases d with
    | frame f => exact has
    | fields address =>
      rw [Has, Store.newObject, Array.size_push]
      exact Nat.lt_succ_of_lt has
  · rw [contents, h.outside d out]
  · rw [contents]
    exact h.inside d name v inside

theorem Confined.setField (h : s₀.Confined region s) {o : Object}
    (inside : region (.fields o.address)) (name : Name) {value : Value}
    (within : Encloses region value.cells) : s₀.Confined region (s.setField o name value) := by
  refine ⟨h.fresh, fun c old => ?_, fun c out => ?_, fun c other v inside' found => ?_⟩
  · have has := h.has c old
    cases c with
    | frame f => exact has
    | fields address => simpa only [Has, Store.setField, Array.size_modify] using has
  · cases c with
    | frame f => exact h.outside (.frame f) out
    | fields address =>
      have ne : address ≠ o.address := by
        rintro rfl
        exact out inside
      have same := s.fieldsOf_setField_of_ne (o := o) (p := ⟨o.cls, address⟩) ne name value
      exact same.trans (h.outside (.fields address) out)
  · cases c with
    | frame f => exact h.inside (.frame f) other v inside' found
    | fields address =>
      rcases s.get?_fieldsOf_setField o ⟨o.cls, address⟩ name other value with same | written
      · exact h.inside (.fields address) other v inside' (same.symm.trans found)
      · cases written.symm.trans found
        exact within

end Store

end Lox
