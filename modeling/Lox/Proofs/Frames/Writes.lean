import Lox.Proofs.Frames

/-!
The writers of a frame change one binding and hide none.

A definition binds a name in one frame, and an assignment replaces the value of a name in the
nearest frame that binds it; either changes nothing else, and one that fails changes nothing at all.
Frames and names are never taken away. So a name that can be seen from a frame can be seen from it
ever after, where it was found before, or in a nearer frame if a definition has bound it there
(`Step.nearest`). The main statement is `writes_confined`.
-/

namespace Lox

/-- No frame is around the frame of a scope, or one root only. -/
def Scope.IsOutermost (scope : Scope) : Prop := scope.outer = [] ∨ ∃ root, scope.outer = [root]

namespace Store

variable {s : Store} {scope inner : Scope} {name : Name} {v : Value}

/-! ### One binding -/

/-- Two stores differ in one binding: in the frame the name has the value, and all else is as it
was. -/
structure SetsOnly (s : Store) (f : FrameId) (name : Name) (value : Value) (after : Store) :
    Prop where
  here : (after.frame f).get? name = some value
  elsewhere : ∀ g other, g ≠ f ∨ other ≠ name →
    (after.frame g).get? other = (s.frame g).get? other
  size : after.frames.size = s.frames.size
  rest : { after with frames := s.frames } = s

theorem setsOnly_bind {f : FrameId} (inside : f < s.frames.size) (name : Name) (value : Value) :
    s.SetsOnly f name value (s.bind f name value) where
  here := by rw [frame_bind, if_pos ⟨rfl, inside⟩, Bindings.get?_insert_self]
  elsewhere g other apart := by
    rcases s.get?_frame_bind f g name other value with same | ⟨rfl, -⟩
    · exact same
    · rw [frame_bind_of_ne (apart.resolve_right fun ne => ne rfl)]
  size := size_frames_bind s f name value
  rest := rfl

theorem SetsOnly.contains_eq {f : FrameId} {after : Store} (h : s.SetsOnly f name v after)
    {g : FrameId} {other : Name} (apart : g ≠ f ∨ other ≠ name) :
    (after.frame g).contains other = (s.frame g).contains other := by
  rw [Bindings.contains, Bindings.contains, h.elsewhere g other apart]

theorem SetsOnly.contains {f : FrameId} {after : Store} (h : s.SetsOnly f name v after) :
    (after.frame f).contains name = true := by
  rw [Bindings.contains, h.here]
  rfl

/-! ### Definitions -/

theorem define_of_bound (bound : (s.own scope).contains name = true)
    (inside : ¬ scope.IsOutermost) (value : Value) :
    s.define scope name value = .error (.duplicateDefinition name) s := by
  have kept : (!(scope.isRoot || scope.isGlobal)) = true := by
    obtain ⟨f, outer⟩ := scope
    cases outer with
    | nil => exact absurd (.inl rfl) inside
    | cons g outer =>
      cases outer with
      | nil => exact absurd (.inr ⟨g, rfl⟩) inside
      | cons => rfl
  rw [define, kept]
  exact if_pos bound

theorem define_of_free (free : (s.own scope).contains name = false ∨ scope.IsOutermost)
    (value : Value) : s.define scope name value = .ok () (s.bind scope.frame name value) := by
  rw [define, if_neg]
  rcases free with unbound | none | ⟨root, one⟩
  · rw [show (s.frame scope.frame).contains name = false from unbound, Bool.and_false]
    exact Bool.false_ne_true
  · simp [Scope.isRoot, none]
  · simp [Scope.isGlobal, one]

/-! ### Where a name is found -/

/-- Frames that bind the name as before have it nearest where it was. -/
theorem Nearest.of_contains_eq {s' : Store} (h : s.Nearest scope inner name v)
    (same : ∀ f ∈ scope.chain, (s'.frame f).contains name = (s.frame f).contains name) :
    ∃ v', s'.Nearest scope inner name v' := by
  obtain ⟨nearer, path, unbound⟩ := h.path
  have here : inner.frame ∈ scope.chain := path ▸ List.mem_append_right _ List.mem_cons_self
  have bound := same inner.frame here
  rw [h.contains_frame] at bound
  obtain ⟨v', binds⟩ := Option.isSome_iff_exists.mp bound
  refine ⟨v', ⟨nearer, path, fun f mem => ?_⟩, binds⟩
  rw [same f (path ▸ List.mem_append_left _ mem)]
  exact unbound f mem

/-- The name is found where it was before, or in a frame in front of that in which it has just been
bound. -/
theorem Nearest.of_setsOnly {f : FrameId} {value : Value} {after : Store}
    (h : s.Nearest scope inner name v) (written : s.SetsOnly f name value after) :
    (∃ v', after.Nearest scope inner name v') ∨
      ∃ nearer : Scope, nearer.frame = f ∧ after.Nearest scope nearer name value ∧
        inner.chain <:+ nearer.outer ∧ nearer.chain <:+ scope.chain := by
  obtain ⟨front, path, unbound⟩ := h.path
  by_cases mem : f ∈ front
  · obtain ⟨first, last, split, notMem⟩ := List.eq_append_cons_of_mem mem
    rw [split, List.append_assoc, List.cons_append] at path
    refine .inr ⟨⟨f, last ++ inner.chain⟩, rfl, ⟨⟨first, path, fun g memG => ?_⟩, written.here⟩,
      List.suffix_append _ _, path ▸ List.suffix_append _ _⟩
    have apart : g ≠ f := fun same => notMem (same ▸ memG)
    rw [written.contains_eq (.inl apart)]
    exact unbound g (split ▸ List.mem_append_left _ memG)
  · refine .inl ?_
    have behind : ∀ g ∈ front, (after.frame g).contains name = false := fun g memG => by
      rw [written.contains_eq (.inl fun same => mem (same ▸ memG))]
      exact unbound g memG
    by_cases here : inner.frame = f
    · subst here
      exact ⟨value, ⟨front, path, behind⟩, written.here⟩
    · exact ⟨v, ⟨front, path, behind⟩, (written.elsewhere _ _ (.inl here)).trans h.binds⟩

end Store

/-! ### What one operation does -/

namespace Frames

/-- The operation is a definition of a name in a frame of the tree, and it succeeds. -/
def Defines (t : Frames) (scope : Scope) (name : Name) (t' : Frames) : Prop :=
  scope ∈ t.made ∧ t'.made = t.made ∧ ∃ value, t.store.define scope name value = .ok () t'.store

/-- What an operation may do to a tree: add a frame, bind a name by a definition, change the value
of a name that is bound, or nothing. -/
inductive Changes (t : Frames) : Frames → Prop where
  | grows (outer : List FrameId) (bindings : Bindings) :
      Changes t ⟨⟨t.store.frames.size, outer⟩ :: t.made,
        { t.store with frames := t.store.frames.push bindings }⟩
  | defines {scope name value} : scope ∈ t.made →
      t.Defines scope name ⟨t.made, t.store.bind scope.frame name value⟩ →
      Changes t ⟨t.made, t.store.bind scope.frame name value⟩
  | assigns {f name} (value : Value) : (t.store.frame f).contains name = true →
      Changes t ⟨t.made, t.store.bind f name value⟩
  | nothing : Changes t t

variable {t t' : Frames}

theorem Step.changes (step : t.Step t') : t.Changes t' := by
  cases step with
  | root bindings => exact .grows [] _
  | global mem => exact .grows _ _
  | push bindings mem => exact .grows _ _
  | define mem defined =>
    have whole := defined
    unfold Store.define at defined
    split at defined <;> cases defined
    exact .defines mem ⟨mem, rfl, _, whole⟩
  | defineFails mem failed =>
    unfold Store.define at failed
    split at failed <;> cases failed
    exact .nothing
  | assign mem assigned =>
    unfold Store.assign at assigned
    split at assigned
    · rename_i f found
      cases assigned
      unfold Store.binder? at found
      have bound := List.find?_some found
      exact .assigns _ bound
    · cases assigned
  | assignFails mem failed =>
    unfold Store.assign at failed
    split at failed <;> cases failed
    exact .nothing

/-- The frames of a tree are in its store, and no two of them have the same number. -/
structure Distinct (t : Frames) : Prop where
  inside : ∀ scope ∈ t.made, scope.frame < t.store.frames.size
  unique : ∀ scope ∈ t.made, ∀ other ∈ t.made, scope.frame = other.frame → scope = other

theorem Distinct.bind (h : t.Distinct) (f : FrameId) (name : Name) (value : Value) :
    Distinct ⟨t.made, t.store.bind f name value⟩ where
  inside scope mem := by
    rw [Store.size_frames_bind]
    exact h.inside scope mem
  unique := h.unique

theorem Distinct.step (h : t.Distinct) (step : t.Step t') : t'.Distinct := by
  cases step.changes with
  | grows outer bindings =>
    refine ⟨fun scope mem => ?_, fun scope mem other mem' same => ?_⟩
    · rw [Array.size_push]
      rcases List.mem_cons.mp mem with rfl | mem
      · exact Nat.lt_succ_self _
      · exact Nat.lt_succ_of_lt (h.inside scope mem)
    · -- The number of the new frame is that of no frame made before.
      rcases List.mem_cons.mp mem with rfl | mem <;> rcases List.mem_cons.mp mem' with rfl | mem'
      · rfl
      · exact absurd same.symm (Nat.ne_of_lt (h.inside other mem'))
      · exact absurd same (Nat.ne_of_lt (h.inside scope mem))
      · exact h.unique scope mem other mem' same
  | defines => exact h.bind _ _ _
  | assigns => exact h.bind _ _ _
  | nothing => exact h

theorem Built.distinct (h : t.Built) : t.Distinct := by
  induction h with
  | empty => exact ⟨by simp, by simp⟩
  | step _ step ih => exact ih.step step

theorem Step.made_subset (step : t.Step t') : t.made ⊆ t'.made := by
  cases step.changes with
  | grows => exact List.subset_cons_self _ _
  | _ => exact List.Subset.refl _

/-- The frames around a frame of a tree are in the store. -/
theorem Built.chain_inside (h : t.Built) {scope : Scope} (mem : scope ∈ t.made) :
    ∀ f ∈ scope.chain, f < t.store.frames.size := by
  intro f memF
  obtain ⟨before, outer, split⟩ := List.append_of_mem memF
  have made := h.sound.around scope mem ⟨f, outer⟩ (split ▸ List.suffix_append before _)
  exact h.distinct.inside ⟨f, outer⟩ made

/-- An operation leaves a visible name visible. The name is found where it was before, or else in a
nearer frame in which the operation has defined it. -/
theorem Step.nearest (built : t.Built) (step : t.Step t') {scope inner : Scope} {name : Name}
    {v : Value} (mem : scope ∈ t.made) (h : t.store.Nearest scope inner name v) :
    (∃ v', t'.store.Nearest scope inner name v') ∨
      ∃ nearer v', t'.store.Nearest scope nearer name v' ∧ inner.chain <:+ nearer.outer ∧
        t.Defines nearer name t' := by
  have inside := built.chain_inside mem
  cases step.changes with
  | grows outer bindings =>
    refine .inl (h.of_contains_eq fun f memF => ?_)
    have pushed := Store.frame_push t.store ⟨0, outer⟩ bindings f
    rw [if_neg (Nat.ne_of_lt (inside f memF))] at pushed
    exact congrArg (Bindings.contains · name) pushed
  | @defines place other value memPlace defined =>
    have written := Store.setsOnly_bind (built.distinct.inside place memPlace) other value
    by_cases same : other = name
    · subst same
      rcases h.of_setsOnly written with here | ⟨nearer, frame, found, behind, around⟩
      · exact .inl here
      · have made := built.sound.around scope mem nearer around
        have eq := built.distinct.unique nearer made place memPlace frame
        exact .inr ⟨nearer, value, found, behind, eq ▸ defined⟩
    · exact .inl (h.of_contains_eq fun f _ => written.contains_eq (.inr (Ne.symm same)))
  | @assigns f other value bound =>
    refine .inl (h.of_contains_eq fun g _ => ?_)
    have exists' : f < t.store.frames.size := by
      refine Nat.lt_of_not_le fun outside => ?_
      rw [Store.frame_of_size_le outside] at bound
      cases bound
    have written := Store.setsOnly_bind exists' other value
    by_cases here : g = f ∧ name = other
    · obtain ⟨rfl, rfl⟩ := here
      rw [written.contains, bound]
    · exact written.contains_eq (Decidable.not_and_iff_not_or_not.mp here)
  | nothing => exact .inl ⟨v, h⟩

/-! ### What the writers do -/

/-- What it comes to when a name is defined in a frame: an error that leaves all as it was, if the
frame binds the name and is not one of the two outermost, and otherwise a change of that binding
alone. -/
structure Definition (t : Frames) (scope : Scope) (name : Name) (value : Value) : Prop where
  refused : (t.store.own scope).contains name = true → ¬ scope.IsOutermost →
    t.store.define scope name value = .error (.duplicateDefinition name) t.store
  done : (t.store.own scope).contains name = false ∨ scope.IsOutermost →
    ∃ after, t.store.define scope name value = .ok () after ∧
      t.store.SetsOnly scope.frame name value after

/-- What it comes to when a value is assigned to a name that is found in the frame of `inner`: that
binding alone changes, every frame of the tree that finds the name there reads the new value, and
every other name, and the name in every other frame, reads as before. -/
structure Assignment (t : Frames) (scope inner : Scope) (name : Name) (value : Value)
    (after : Store) : Prop where
  done : t.store.assign scope name value = .ok () after
  writes : t.store.SetsOnly inner.frame name value after
  seen : ∀ other ∈ t.made, ∀ w, t.store.Nearest other inner name w →
    after.get other name = .ok value after
  unseen : ∀ other ∈ t.made, ∀ name', (name' = name → ∀ w, ¬ t.store.Nearest other inner name w) →
    after.lookup? name' other.chain = t.store.lookup? name' other.chain

variable {scope inner : Scope} {name : Name} {v : Value}

theorem Built.definition (h : t.Built) (mem : scope ∈ t.made) (name : Name) (value : Value) :
    t.Definition scope name value where
  refused bound local' := Store.define_of_bound bound local' value
  done free := ⟨_, Store.define_of_free free value,
    Store.setsOnly_bind (h.distinct.inside scope mem) name value⟩

/-- What is written where a name is bound is not seen from where the name is found elsewhere. -/
theorem Built.lookup?_of_setsOnly (h : t.Built) {value : Value} {after : Store}
    (made : inner ∈ t.made) (bound : (t.store.frame inner.frame).contains name = true)
    (written : t.store.SetsOnly inner.frame name value after) (mem : scope ∈ t.made)
    (unseen : ∀ w, ¬ t.store.Nearest scope inner name w) :
    after.lookup? name scope.chain = t.store.lookup? name scope.chain := by
  have passed : ∀ f, (t.store.frame f).contains name = false → f ≠ inner.frame := by
    rintro f unbound rfl
    exact Bool.false_ne_true (unbound.symm.trans bound)
  rcases t.store.exists_nearest scope name with ⟨found, w, nearest⟩ | unbound
  · obtain ⟨front, path, skipped⟩ := nearest.path
    have apart : found.frame ≠ inner.frame := by
      intro same
      have around := h.sound.around scope mem found ⟨front, path.symm⟩
      obtain rfl := h.distinct.unique found around inner made same
      exact unseen w nearest
    have still : after.Nearest scope found name w := by
      refine ⟨⟨front, path, fun f memF => ?_⟩, ?_⟩
      · rw [written.contains_eq (.inl (passed f (skipped f memF)))]
        exact skipped f memF
      · exact (written.elsewhere _ _ (.inl apart)).trans nearest.binds
    rw [still.lookup?, nearest.lookup?]
  · exact Store.lookup?_congr fun f memF =>
      written.elsewhere f name (.inl (passed f (unbound f memF)))

theorem Built.assignment (h : t.Built) (mem : scope ∈ t.made)
    (nearest : t.store.Nearest scope inner name v) (value : Value) :
    ∃ after, t.Assignment scope inner name value after := by
  obtain ⟨front, path, -⟩ := nearest.path
  have made := h.sound.around scope mem inner ⟨front, path.symm⟩
  have written := Store.setsOnly_bind (h.distinct.inside inner made) name value
  refine ⟨_, nearest.assign value, written, fun other memOther w found => ?_,
    fun other memOther name' apart => ?_⟩
  · obtain ⟨front, path, skipped⟩ := found.path
    have seen : (t.store.bind inner.frame name value).Nearest other inner name value := by
      refine ⟨⟨front, path, fun f memF => ?_⟩, written.here⟩
      have ne : f ≠ inner.frame := by
        rintro rfl
        exact Bool.false_ne_true ((skipped _ memF).symm.trans found.contains_frame)
      rw [written.contains_eq (.inl ne)]
      exact skipped f memF
    exact seen.get
  · by_cases same : name' = name
    · subst same
      exact h.lookup?_of_setsOnly made nearest.contains_frame written memOther (apart rfl)
    · exact Store.lookup?_congr fun f _ => written.elsewhere f name' (.inr same)

/-! ### Runs -/

section

variable {run : Nat → Frames} {n : Nat} (start : (run 0).Built)
  (steps : ∀ i < n, (run i).Step (run (i + 1)))

include start steps

theorem built_of_steps {i : Nat} (le : i ≤ n) : (run i).Built := by
  induction i with
  | zero => exact start
  | succ i ih => exact (ih (Nat.le_of_succ_le le)).step (steps i le)

/-- Over any part of a run: a name that is visible from a frame stays so, and where it is found
changes at most to a nearer frame, in which one of the operations defines it. -/
theorem nearest_of_steps {i j : Nat} (le : i ≤ j) (inRun : j ≤ n) (mem : scope ∈ (run i).made)
    (h : (run i).store.Nearest scope inner name v) :
    scope ∈ (run j).made ∧ ∃ inner' v', (run j).store.Nearest scope inner' name v' ∧
      inner.chain <:+ inner'.chain ∧
      (inner' ≠ inner → ∃ k, i ≤ k ∧ k < j ∧ (run k).Defines inner' name (run (k + 1))) := by
  induction le with
  | refl => exact ⟨mem, inner, v, h, List.suffix_rfl, fun ne => absurd rfl ne⟩
  | @step j le ih =>
    obtain ⟨memJ, found, w, nearest, inward, defined⟩ := ih (Nat.le_of_succ_le inRun)
    have step := steps j inRun
    refine ⟨step.made_subset memJ, ?_⟩
    rcases step.nearest (built_of_steps start steps (Nat.le_of_succ_le inRun)) memJ nearest with
      ⟨w', still⟩ | ⟨nearer, w', moved, behind, definition⟩
    · refine ⟨found, w', still, inward, fun ne => ?_⟩
      obtain ⟨k, le, lt, definition⟩ := defined ne
      exact ⟨k, le, Nat.lt_succ_of_lt lt, definition⟩
    · exact ⟨nearer, w', moved, (inward.trans behind).trans (List.suffix_cons _ _),
        fun _ => ⟨j, le, Nat.lt_succ_self j, definition⟩⟩

end

end Frames

/-- In every tree of frames, at every point of every run of operations: a definition and an
assignment change one binding each, the assignment for exactly those readers that find the name
there, or they fail and change nothing. Over the run, a name that is visible from a frame stays
visible from it; where it is found changes at most inwards, and only by a definition of the name in
the nearer frame. -/
theorem writes_confined {run : Nat → Frames} {n : Nat} (start : (run 0).Built)
    (steps : ∀ i < n, (run i).Step (run (i + 1))) :
    (∀ i ≤ n, ∀ scope ∈ (run i).made, ∀ name value,
      (run i).Definition scope name value ∧
      (∀ inner v, (run i).store.Nearest scope inner name v →
        ∃ after, (run i).Assignment scope inner name value after) ∧
      ((∀ inner v, ¬ (run i).store.Nearest scope inner name v) →
        (run i).store.assign scope name value = .error (.undefinedName name) (run i).store)) ∧
    ∀ i j, i ≤ j → j ≤ n → ∀ scope ∈ (run i).made, ∀ name inner v,
      (run i).store.Nearest scope inner name v →
      ∃ inner' v', (run j).store.Nearest scope inner' name v' ∧ inner.chain <:+ inner'.chain ∧
        (inner' ≠ inner → ∃ k, i ≤ k ∧ k < j ∧ (run k).Defines inner' name (run (k + 1))) := by
  refine ⟨fun i le scope mem name value => ?_, fun i j le inRun scope mem name inner v nearest =>
    (Frames.nearest_of_steps start steps le inRun mem nearest).2⟩
  have built := Frames.built_of_steps start steps le
  refine ⟨built.definition mem name value,
    fun inner v nearest => built.assignment mem nearest value, fun hidden => ?_⟩
  have unbound := Store.unbound_of_not_nearest fun ⟨inner, v, nearest⟩ => hidden inner v nearest
  exact Store.assign_of_unbound unbound value

/-- A name of the root is defined in the global frame, and then assigned to from a frame inside. -/
theorem writes_confined_shadowed :
    let made : List Scope := [⟨2, [1, 0]⟩, ⟨1, [0]⟩, ⟨0, []⟩]
    let root := ((Store.empty none).newRoot (.ofList [("a", .nil)])).2
    let store := ((root.push ⟨0, []⟩ []).2.push ⟨1, [0]⟩ (.ofList [])).2
    let shadowed := store.bind 1 "a" (.bool true)
    let run : Nat → Frames := fun i =>
      [⟨made, store⟩, ⟨made, shadowed⟩].getD i ⟨made, shadowed.bind 1 "a" (.bool false)⟩
    ((run 0).Built ∧ ∀ i < 2, (run i).Step (run (i + 1))) ∧
      (∃ after, (run 1).Assignment ⟨2, [1, 0]⟩ ⟨1, [0]⟩ "a" (.bool false) after) ∧
      ∃ inner v, (run 2).store.Nearest ⟨2, [1, 0]⟩ inner "a" v ∧ [0] <:+ inner.chain ∧
        (inner ≠ ⟨0, []⟩ → ∃ k, 0 ≤ k ∧ k < 2 ∧ (run k).Defines inner "a" (run (k + 1))) := by
  intro made root store shadowed run
  have innermost : ⟨2, [1, 0]⟩ ∈ made := List.mem_cons_self
  have global : ⟨1, [0]⟩ ∈ made := List.mem_cons_of_mem _ List.mem_cons_self
  have built : (run 0).Built :=
    .step (.step (.step .empty (.root [("a", .nil)])) (.global List.mem_cons_self))
      (.push [] List.mem_cons_self)
  have before : (run 0).store.Nearest ⟨2, [1, 0]⟩ ⟨0, []⟩ "a" .nil :=
    ⟨⟨[2, 1], rfl, by decide⟩, rfl⟩
  have after : (run 1).store.Nearest ⟨2, [1, 0]⟩ ⟨1, [0]⟩ "a" (.bool true) :=
    ⟨⟨[2], rfl, by decide⟩, rfl⟩
  have steps : ∀ i < 2, (run i).Step (run (i + 1)) := by
    intro i lt
    obtain rfl | rfl : i = 0 ∨ i = 1 := by omega
    · exact .define global rfl
    · exact .assign innermost (after.assign (.bool false))
  obtain ⟨writers, visible⟩ := writes_confined built steps
  exact ⟨⟨built, steps⟩, (writers 1 (by decide) _ innermost "a" (.bool false)).2.1 _ _ after,
    visible 0 2 (by decide) (by decide) _ innermost "a" _ _ before⟩

end Lox
