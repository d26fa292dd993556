import Lox.Proofs.Nesting.Layout
import Lox.Store.Listing

/-!
Climbing from frame to frame, and from class to class.

What can be reached from the global scope are frames, and each is seen as a scope with the frames
around it. One frame may be seen from many places, so that a search which goes from a frame to the
one around it, as the operations on scopes do, could take different ways, run in a circle or miss
the global frame. In a store that is laid out it does none of this: the frames that are reached form
a tree (`Store.FrameTree`), the classes a forest (`Store.ClassForest`), and each operation ends,
with the answer that the list of a scope's frames gives (`Store.ClimbsEnd`).
-/

namespace Lox

/-! ### Recursion along a relation -/

/-- The recursion that goes on along `next`, and stops where that leads no further, has the
value. -/
inductive Climbs {α β : Type} (next : α → α → Prop) (top : α → β) (up : α → β → β) :
    α → β → Prop where
  | top {a : α} : (∀ b, ¬ next a b) → Climbs next top up a (top a)
  | up {a b : α} {r : β} : next a b → Climbs next top up b r → Climbs next top up a (up a r)

section

variable {α β : Type} {next : α → α → Prop} {top : α → β} {up : α → β → β}

theorem Climbs.unique (functional : ∀ a b c, next a b → next a c → b = c) {a : α} {r r' : β}
    (h : Climbs next top up a r) (h' : Climbs next top up a r') : r = r' := by
  induction h generalizing r' with
  | top stop =>
    cases h' with
    | top _ => rfl
    | up step _ => exact absurd step (stop _)
  | up step _ ih =>
    cases h' with
    | top stop => exact absurd step (stop _)
    | up step' rest =>
      cases functional _ _ _ step step'
      rw [ih rest]

theorem climbs_iff (functional : ∀ a b c, next a b → next a c → b = c) {a : α} {result : β}
    (h : Climbs next top up a result) (r : β) : Climbs next top up a r ↔ r = result := by
  constructor
  · exact fun h' => h'.unique functional h
  · rintro rfl
    exact h

end

/-- The scope of some frames, the innermost of which comes first. -/
def Scope.ofChain (chain : List FrameId) : Scope := ⟨chain.headD 0, chain.tail⟩

/-- Each frame of a scope has a scope of its own within it. -/
theorem Scope.exists_suffix_of_mem {scope : Scope} {f : FrameId} (mem : f ∈ scope.chain) :
    ∃ inner : Scope, inner.chain <:+ scope.chain ∧ inner.frame = f := by
  obtain ⟨before, after, split⟩ := List.append_of_mem mem
  refine ⟨⟨f, after⟩, ?_, rfl⟩
  rw [split]
  exact List.suffix_append before _

/-- The method of a class under a name is found by going from superclass to superclass. -/
theorem Class.climbs_method? (c : Class) (name : Name) :
    ∀ r, Climbs (fun c d => c.superclass? = some d) (fun c => c.body.method? name)
      (fun c r => (c.body.method? name).or r) c r ↔ r = c.method? name := by
  apply climbs_iff
  · intro a b d step step'
    exact Option.some.inj (step.symm.trans step')
  · obtain ⟨body, ancestors⟩ := c
    induction ancestors generalizing body with
    | nil =>
      have single : Class.method? ⟨body, []⟩ name = body.method? name := by
        simp [Class.method?, Class.lineage]
      rw [single]
      exact .top (by rintro d ⟨⟩)
    | cons parent ancestors ih =>
      have more : Class.method? ⟨body, parent :: ancestors⟩ name =
          (body.method? name).or (Class.method? ⟨parent, ancestors⟩ name) := by
        unfold Class.method? Class.lineage
        rw [List.findSome?_cons]
        cases body.method? name <;> rfl
      rw [more]
      exact .up rfl (ih parent)

namespace Store

/-! ### What is seen from a scope -/

/-- From the scope the inner scope is seen: it or a scope inside it is that of the code or of a
function that the code can get hold of. -/
def Sees (s : Store) (scope inner : Scope) : Prop :=
  inner.chain <:+ scope.chain ∨ ∃ g, s.Holds scope g ∧ inner.chain <:+ g.scope.chain

/-- As it is seen from the scope, the second frame is right around the first one. -/
def Parent (s : Store) (scope : Scope) (f p : FrameId) : Prop :=
  ∃ inner, s.Sees scope inner ∧ inner.frame = f ∧ inner.outer.head? = some p

/-- Code in the scope can get hold of the class, of an instance of it or of a class below it. -/
def HoldsClass (s : Store) (scope : Scope) (c : Class) : Prop :=
  ∃ cell name v, s.Reaches scope.cells cell ∧ (s.contents cell).get? name = some v ∧
    ∃ d ∈ v.classes, c.lineage <:+ d.lineage

section

variable {s : Store} {scope inner : Scope}

theorem Sees.around (h : s.Sees scope inner) {outer : Scope}
    (inside : outer.chain <:+ inner.chain) : s.Sees scope outer := by
  rcases h with own | ⟨g, holds, captured⟩
  · exact .inl (inside.trans own)
  · exact .inr ⟨g, holds, inside.trans captured⟩

/-- The frames that can be reached are those of the scopes that are seen. -/
theorem reaches_frame_iff {f : FrameId} :
    s.Reaches scope.cells (.frame f) ↔ ∃ inner, s.Sees scope inner ∧ inner.frame = f := by
  constructor
  · intro reached
    rcases reached.captured with mem | ⟨g, holds, mem⟩
    · obtain ⟨inner, inside, same⟩ := Scope.exists_suffix_of_mem mem
      exact ⟨inner, .inl inside, same⟩
    · obtain ⟨inner, inside, same⟩ := Scope.exists_suffix_of_mem mem
      exact ⟨inner, .inr ⟨g, holds, inside⟩, same⟩
  · rintro ⟨inner, own | ⟨g, ⟨cell, name, v, reached, found, mem⟩, captured⟩, rfl⟩
    · exact .root (List.mem_map_of_mem (own.mem List.mem_cons_self))
    · refine .step reached found (List.mem_append_right _ (List.mem_flatMap.mpr ⟨g, mem, ?_⟩))
      exact List.mem_map_of_mem (captured.mem List.mem_cons_self)

end

/-! ### The shape of what is reached -/

/-- The frames that can be reached from the global scope form a tree: above each there is one chain
of frames. -/
structure FrameTree (s : Store) (global : Scope) : Prop where
  reached : ∀ f, s.Reaches global.cells (.frame f) ↔ ∃ inner, s.Sees global inner ∧ inner.frame = f
  /-- Going from parent to parent ends, and passes the frames of the scope in their order. -/
  chain : ∀ inner, s.Sees global inner → ∀ path,
    Climbs (s.Parent global) (fun f => [f]) List.cons inner.frame path ↔ path = inner.chain
  /-- No frame comes twice, since each is newer than all around it. -/
  acyclic : ∀ inner, s.Sees global inner → inner.chain.Pairwise (· > ·)
  length : ∀ inner, s.Sees global inner → inner.chain.length ≤ s.frames.size
  /-- The chain ends in the global frame and the root, or is the root. -/
  ends : ∃ root, global.chain = [global.frame, root] ∧ ∀ inner, s.Sees global inner →
    inner.chain = [root] ∨ global.chain <:+ inner.chain
  isGlobal : ∀ inner, s.Sees global inner →
    (inner.isGlobal = true ↔ inner.frame = global.frame)
  /-- A definition in the global frame takes the place of an earlier one. -/
  defines : ∀ name value, s.define global name value = .ok () (s.bind global.frame name value) ∧
    ((s.bind global.frame name value).own global).get? name = some value
  /-- A second definition of a name in one of the other frames fails, and changes nothing. -/
  rejects : ∀ inner, s.Sees global inner → inner.frame ∉ global.chain → ∀ name value,
    s.define inner name value =
      if (s.own inner).contains name then .error (.duplicateDefinition name) s
      else .ok () (s.bind inner.frame name value)

/-- The classes that can be reached from the global scope form a forest: each is newer than those
above it, and its number tells what is above it. -/
structure ClassForest (s : Store) (global : Scope) : Prop where
  acyclic : ∀ c, s.HoldsClass global c →
    c.lineage.Pairwise (fun body above => body.id > above.id)
  length : ∀ c, s.HoldsClass global c → c.lineage.length ≤ s.nextId
  identity : ∀ c d, s.HoldsClass global c → s.HoldsClass global d → c.body.id = d.body.id → c = d

/-- The recursion from the frame of a scope to its parent, and on from there, ends with just this
result. -/
def ClimbGives {β : Type} (s : Store) (global : Scope) (top : FrameId → β) (up : FrameId → β → β)
    (inner : Scope) (result : β) : Prop :=
  ∀ r, Climbs (s.Parent global) top up inner.frame r ↔ r = result

/-- The operations on the scopes that are seen end, carried out frame by frame along parents, with
the result that the scope's own list of frames gives; and so does the search for a method, carried
out class by class. -/
structure ClimbsEnd (s : Store) (global : Scope) : Prop where
  get : ∀ inner name, s.Sees global inner → s.ClimbGives global
    (fun f => match (s.frame f).get? name with
      | some v => .ok v s
      | none => .error (.undefinedName name) s)
    (fun f r => match (s.frame f).get? name with
      | some v => .ok v s
      | none => r)
    inner (s.get inner name)
  assign : ∀ inner name value, s.Sees global inner → s.ClimbGives global
    (fun f => if (s.frame f).contains name then .ok () (s.bind f name value)
      else .error (.undefinedName name) s)
    (fun f r => if (s.frame f).contains name then .ok () (s.bind f name value) else r)
    inner (s.assign inner name value)
  contains : ∀ inner name, s.Sees global inner → s.ClimbGives global
    (fun f => (s.frame f).contains name) (fun f r => (s.frame f).contains name || r)
    inner (s.contains inner name)
  visible : ∀ inner, s.Sees global inner → s.ClimbGives global
    (fun f => (s.frame f).foldl (fun b e => Bindings.insert e.1 e.2 b) [])
    (fun f outer => (s.frame f).foldl (fun b e => Bindings.insert e.1 e.2 b) outer)
    inner (s.visible inner)
  listing : ∀ inner, s.Sees global inner → s.ClimbGives global
    (fun _ => [frameLabel 0 ++ "BUILTINS"])
    (fun f lines => (frameLabel lines.length ++ bindingsText (s.frame f)) :: lines)
    inner (s.frameLines inner.chain)
  method? : ∀ (c : Class) name r, Climbs (fun c d => c.superclass? = some d)
    (fun c => c.body.method? name) (fun c r => (c.body.method? name).or r) c r ↔ r = c.method? name

/-! ### Stores that are laid out -/

/-- Numbers that get smaller and stay below a bound are not more than the bound. -/
theorem length_le_of_pairwise {numbers : List Nat} {n : Nat} (below : ∀ i ∈ numbers, i < n)
    (descends : numbers.Pairwise (· > ·)) : numbers.length ≤ n := by
  induction numbers generalizing n with
  | nil => exact Nat.zero_le n
  | cons i rest ih =>
    obtain ⟨smaller, descends⟩ := List.pairwise_cons.mp descends
    exact Nat.lt_of_le_of_lt (ih smaller descends) (below i List.mem_cons_self)

theorem length_frameLines (s : Store) (chain : List FrameId) :
    (s.frameLines chain).length = chain.length := by
  induction chain with
  | nil => rfl
  | cons f rest ih =>
    cases rest with
    | nil => rfl
    | cons g rest => simp only [frameLines, List.length_cons, ih]

theorem LaidOut.size_pos {s : Store} {l : Layout} (h : s.LaidOut l) : 0 < s.frames.size :=
  Nat.zero_lt_of_lt (h.frames _ l.global)

section

variable {s : Store} {l : Layout} {inner : Scope} (h : s.LaidOut l)

include h

theorem LaidOut.sees (sees : s.Sees .global inner) : inner = .root ∨ l.scopes inner := by
  rcases sees with own | ⟨g, ⟨cell, name, v, -, found, mem⟩, captured⟩
  · exact l.around _ l.global inner own
  · exact l.around _ ((h.values cell name v found).functions g mem) inner captured

theorem LaidOut.holdsClass {scope : Scope} {c : Class} (holds : s.HoldsClass scope c) :
    l.classes c := by
  obtain ⟨cell, name, v, -, found, d, mem, above⟩ := holds
  exact l.above d ((h.values cell name v found).classes d mem) c above

/-- One frame is seen as one scope. -/
theorem LaidOut.eq_of_sees {other : Scope} (sees : s.Sees .global inner)
    (sees' : s.Sees .global other) (same : inner.frame = other.frame) : inner = other := by
  rcases h.sees sees with rfl | known
  · rcases h.sees sees' with rfl | known'
    · rfl
    · exact absurd same (Nat.ne_of_lt (l.frame_pos known'))
  · rcases h.sees sees' with rfl | known'
    · exact absurd same.symm (Nat.ne_of_lt (l.frame_pos known))
    · exact l.place inner other known known' same

/-- A recursion along parents ends with what the same recursion along the list of the scope's frames
gives. -/
theorem LaidOut.climbGives {β : Type} {top : FrameId → β} {up : FrameId → β → β}
    (F : List FrameId → β) (single : ∀ f, F [f] = top f)
    (more : ∀ f p rest, F (f :: p :: rest) = up f (F (p :: rest)))
    (sees : s.Sees .global inner) : s.ClimbGives .global top up inner (F inner.chain) := by
  apply climbs_iff
  · rintro f p q ⟨inner, sees, rfl, head⟩ ⟨inner', sees', same, head'⟩
    cases h.eq_of_sees sees' sees same
    exact Option.some.inj (head.symm.trans head')
  · obtain ⟨f, outer⟩ := inner
    induction outer generalizing f with
    | nil =>
      rw [Scope.chain, single]
      refine .top ?_
      rintro p ⟨other, sees', same, head⟩
      cases h.eq_of_sees sees' sees same
      cases head
    | cons p rest ih =>
      rw [Scope.chain, more]
      exact .up ⟨_, sees, rfl, rfl⟩ (ih p (sees.around (List.suffix_cons f _)))

theorem LaidOut.climbsEnd : s.ClimbsEnd .global := by
  constructor
  case get =>
    intro inner name sees
    refine h.climbGives (fun chain => s.get (.ofChain chain) name) ?_ ?_ sees
    · intro f
      unfold Store.get Scope.ofChain Scope.chain Store.lookup?
      dsimp only [List.headD]
      cases (s.frame f).get? name <;> rfl
    · intro f p rest
      unfold Store.get Scope.ofChain Scope.chain
      dsimp only [List.headD, List.tail]
      rw [Store.lookup?]
      cases (s.frame f).get? name <;> rfl
  case assign =>
    intro inner name value sees
    refine h.climbGives (fun chain => s.assign (.ofChain chain) name value) ?_ ?_ sees
    · intro f
      unfold Store.assign Scope.ofChain Scope.chain binder?
      dsimp only [List.headD, List.tail, List.find?]
      cases (s.frame f).contains name <;> rfl
    · intro f p rest
      unfold Store.assign Scope.ofChain Scope.chain binder?
      dsimp only [List.headD, List.tail]
      rw [List.find?_cons]
      cases (s.frame f).contains name <;> rfl
  case contains =>
    intro inner name sees
    refine h.climbGives (fun chain => chain.any fun f => (s.frame f).contains name) ?_ ?_ sees
    · simp
    · simp
  case visible =>
    intro inner sees
    refine h.climbGives (fun chain => chain.foldr
      (fun f outer => (s.frame f).foldl (fun b e => Bindings.insert e.1 e.2 b) outer) []) ?_ ?_ sees
    · exact fun _ => rfl
    · exact fun _ _ _ => rfl
  case listing =>
    intro inner sees
    refine h.climbGives s.frameLines (fun _ => rfl) (fun f p rest => ?_) sees
    rw [length_frameLines]
    rfl
  case method? => exact Class.climbs_method?

theorem LaidOut.isGlobal_iff (sees : s.Sees .global inner) :
    inner.isGlobal = true ↔ inner.frame = Scope.global.frame := by
  rcases h.sees sees with rfl | known
  · decide
  · constructor
    · intro isGlobal
      rw [l.eq_global known isGlobal]
    · intro same
      rw [l.place inner _ known l.global same]
      rfl

/-- In a frame that is neither the global frame nor the root a name is defined once. -/
theorem LaidOut.define_eq (sees : s.Sees .global inner) (other : inner.frame ∉ Scope.global.chain)
    (name : Name) (value : Value) :
    s.define inner name value =
      if (s.own inner).contains name then .error (.duplicateDefinition name) s
      else .ok () (s.bind inner.frame name value) := by
  have notGlobal : inner.isGlobal = false := by
    rw [Bool.eq_false_iff]
    intro isGlobal
    rw [(h.isGlobal_iff sees).mp isGlobal] at other
    exact other List.mem_cons_self
  rcases h.sees sees with rfl | known
  · exact absurd (by decide) other
  · unfold define
    rw [l.isRoot_eq_false known, notGlobal]
    rfl

theorem LaidOut.frameTree : s.FrameTree .global := by
  constructor
  case reached => exact fun f => reaches_frame_iff
  case chain =>
    exact fun inner sees => h.climbGives id (fun _ => rfl) (fun _ _ _ => rfl) sees
  case acyclic =>
    intro inner sees
    rcases h.sees sees with rfl | known
    · exact List.pairwise_singleton _ _
    · exact l.descends inner known
  case length =>
    intro inner sees
    rcases h.sees sees with rfl | known
    · exact h.size_pos
    · exact length_le_of_pairwise (l.lt_of_mem_chain known (h.frames inner known))
        (l.descends inner known)
  case ends =>
    refine ⟨0, rfl, fun inner sees => ?_⟩
    rcases h.sees sees with rfl | known
    · exact .inl rfl
    · exact .inr (l.ends inner known)
  case isGlobal => exact fun inner sees => h.isGlobal_iff sees
  case defines =>
    intro name value
    refine ⟨rfl, ?_⟩
    rw [own, frame_bind, if_pos ⟨rfl, h.frames _ l.global⟩]
    exact Bindings.get?_insert_self _ _ _
  case rejects => exact fun inner sees other => h.define_eq sees other

theorem LaidOut.classForest : s.ClassForest .global := by
  constructor
  case acyclic => exact fun c holds => l.numbers c (h.holdsClass holds)
  case length =>
    intro c holds
    have known := h.holdsClass holds
    have numbers := List.pairwise_map.mpr (l.numbers c known)
    rw [← List.length_map ClassBody.id]
    refine length_le_of_pairwise (fun id mem => ?_) numbers
    obtain ⟨body, inside, rfl⟩ := List.mem_map.mp mem
    obtain ⟨d, known, rfl⟩ := l.exists_of_mem_lineage known inside
    exact h.ids d known
  case identity =>
    exact fun c d holds holds' => l.identity c d (h.holdsClass holds) (h.holdsClass holds')

end

end Store

end Lox
