import Mathlib.Tactic.TFAE
import Lox.Proofs.Eval.Blank
import Lox.Proofs.Frames.Tree

/-!
The readers of a frame agree.

A name is looked up in four ways: for its value, for whether it is there, in the table of all that
is visible, and for the frame that an assignment changes. The first three go through the frames in
their own way; the table is even built from the outermost frame inwards, with nearer frames written
over outer ones. All of them come down to the nearest frame that binds the name (`Store.Nearest`).
The main statement is `readers_agree`.
-/

namespace Lox

/-! ### One frame written over another table -/

theorem Bindings.get?_foldl_insert {entries : Bindings} (distinct : entries.names.Nodup)
    (outer : Bindings) (name : Name) :
    get? name (entries.foldl (fun b e => insert e.1 e.2 b) outer) =
      (entries.get? name).or (outer.get? name) := by
  induction entries generalizing outer with
  | nil => rfl
  | cons e rest ih =>
    obtain ⟨first, others⟩ := List.nodup_cons.mp distinct
    rw [List.foldl_cons, ih others, get?]
    by_cases here : e.1 = name
    · subst here
      rw [if_pos rfl, get?_eq_none_iff.mpr first, get?_insert_self]
      rfl
    · rw [if_neg here, get?_insert_of_ne (Ne.symm here)]

namespace Store

variable {s : Store} {scope inner : Scope} {name : Name} {v : Value}

/-! ### The nearest frame -/

/-- The innermost frame of `inner` is the nearest of a scope's frames that binds the name, and it
has the value there. -/
structure Nearest (s : Store) (scope inner : Scope) (name : Name) (v : Value) : Prop where
  path : ∃ nearer, scope.chain = nearer ++ inner.chain ∧
    ∀ f ∈ nearer, (s.frame f).contains name = false
  binds : (s.own inner).get? name = some v

/-- A name is bound in one of some frames, the nearest of which has those in front of it left out,
or in none. -/
theorem exists_nearest (s : Store) (scope : Scope) (name : Name) :
    (∃ inner v, s.Nearest scope inner name v) ∨
      ∀ f ∈ scope.chain, (s.frame f).contains name = false := by
  obtain ⟨f, outer⟩ := scope
  induction outer generalizing f with
  | nil =>
    cases here : (s.frame f).get? name with
    | some v => exact .inl ⟨⟨f, []⟩, v, ⟨[], rfl, by simp⟩, here⟩
    | none => exact .inr (by simp [Scope.chain, Bindings.contains, here])
  | cons g outer ih =>
    cases here : (s.frame f).get? name with
    | some v => exact .inl ⟨⟨f, g :: outer⟩, v, ⟨[], rfl, by simp⟩, here⟩
    | none =>
      have unbound : (s.frame f).contains name = false := by simp [Bindings.contains, here]
      rcases ih g with ⟨inner, v, ⟨nearer, path, skipped⟩, binds⟩ | none
      · refine .inl ⟨inner, v, ⟨f :: nearer, congrArg (f :: ·) path, ?_⟩, binds⟩
        exact List.forall_mem_cons.mpr ⟨unbound, skipped⟩
      · exact .inr (List.forall_mem_cons.mpr ⟨unbound, none⟩)

/-- The table of what is visible says of a name what looking it up says. -/
theorem get?_visible (distinct : ∀ f, (s.frame f).names.Nodup) (scope : Scope) (name : Name) :
    (s.visible scope).get? name = s.lookup? name scope.chain := by
  unfold visible
  induction scope.chain with
  | nil => rfl
  | cons f rest ih =>
    rw [List.foldr_cons, Bindings.get?_foldl_insert (distinct f), ih, lookup?]
    cases (s.frame f).get? name <;> rfl

/-! ### A name that is bound -/

section

variable (h : s.Nearest scope inner name v)

include h

theorem Nearest.contains_frame : (s.frame inner.frame).contains name = true := by
  rw [Bindings.contains, show (s.frame inner.frame).get? name = some v from h.binds]
  rfl

theorem Nearest.lookup? : s.lookup? name scope.chain = some v := by
  obtain ⟨nearer, path, unbound⟩ := h.path
  rw [path, lookup?_append unbound, Scope.chain, Store.lookup?,
    show (s.frame inner.frame).get? name = some v from h.binds]

theorem Nearest.get : s.get scope name = .ok v s := by
  rw [Store.get, h.lookup?]

theorem Nearest.contains : s.contains scope name = true := by
  obtain ⟨nearer, path, -⟩ := h.path
  have mem : inner.frame ∈ scope.chain := path ▸ List.mem_append_right _ List.mem_cons_self
  exact List.any_eq_true.mpr ⟨inner.frame, mem, h.contains_frame⟩

theorem Nearest.assign (value : Value) :
    s.assign scope name value = .ok () (s.bind inner.frame name value) := by
  obtain ⟨nearer, path, unbound⟩ := h.path
  have found : s.binder? name scope.chain = some inner.frame := by
    rw [path, binder?_append unbound]
    exact List.find?_cons_of_pos h.contains_frame
  rw [Store.assign, found]

/-- The binding that is found is overwritten in its frame. -/
theorem Nearest.own_bind (value : Value) :
    ((s.bind inner.frame name value).own inner).get? name = some value := by
  have inside : inner.frame < s.frames.size := by
    refine Nat.lt_of_not_le fun outside => ?_
    have bound := h.contains_frame
    rw [frame_of_size_le outside] at bound
    cases bound
  rw [own, frame_bind, if_pos ⟨rfl, inside⟩, Bindings.get?_insert_self]

end

/-! ### A name that is not bound -/

section

variable (h : ∀ f ∈ scope.chain, (s.frame f).contains name = false)

include h

theorem lookup?_of_unbound : s.lookup? name scope.chain = none := by
  have nothing := lookup?_append h []
  rwa [List.append_nil] at nothing

theorem get_of_unbound : s.get scope name = .error (.undefinedName name) s := by
  rw [get, lookup?_of_unbound h]

theorem assign_of_unbound (value : Value) :
    s.assign scope name value = .error (.undefinedName name) s := by
  have nothing := binder?_append h []
  rw [List.append_nil] at nothing
  rw [assign, nothing]
  rfl

theorem contains_of_unbound : s.contains scope name = false := by
  rw [contains, List.any_eq_false]
  exact fun f mem => by simp [h f mem]

end

/-! ### Bound or not -/

section

variable {s : Store} {scope : Scope} {name : Name}

theorem unbound_of_not_nearest (none : ¬ ∃ inner v, s.Nearest scope inner name v) :
    ∀ f ∈ scope.chain, (s.frame f).contains name = false :=
  (s.exists_nearest scope name).resolve_left none

theorem contains_iff : s.contains scope name = true ↔ ∃ inner v, s.Nearest scope inner name v := by
  by_cases bound : ∃ inner v, s.Nearest scope inner name v
  · obtain ⟨inner, v, nearest⟩ := bound
    exact iff_of_true nearest.contains ⟨inner, v, nearest⟩
  · simp [bound, contains_of_unbound (unbound_of_not_nearest bound)]

theorem get_eq_ok_iff : (∃ v, s.get scope name = .ok v s) ↔
    ∃ inner v, s.Nearest scope inner name v := by
  by_cases bound : ∃ inner v, s.Nearest scope inner name v
  · obtain ⟨inner, v, nearest⟩ := bound
    exact iff_of_true ⟨v, nearest.get⟩ ⟨inner, v, nearest⟩
  · simp [bound, get_of_unbound (unbound_of_not_nearest bound)]

theorem assign_eq_ok_iff (value : Value) : (∃ after, s.assign scope name value = .ok () after) ↔
    ∃ inner v, s.Nearest scope inner name v := by
  by_cases bound : ∃ inner v, s.Nearest scope inner name v
  · obtain ⟨inner, v, nearest⟩ := bound
    exact iff_of_true ⟨_, nearest.assign value⟩ ⟨inner, v, nearest⟩
  · simp [bound, assign_of_unbound (unbound_of_not_nearest bound)]

theorem mem_names_visible_iff (distinct : ∀ f, (s.frame f).names.Nodup) :
    name ∈ (s.visible scope).names ↔ ∃ inner v, s.Nearest scope inner name v := by
  rw [← Decidable.not_not (p := name ∈ _), ← Bindings.get?_eq_none_iff, get?_visible distinct]
  by_cases bound : ∃ inner v, s.Nearest scope inner name v
  · obtain ⟨inner, v, nearest⟩ := bound
    exact iff_of_true (by simp [nearest.lookup?]) ⟨inner, v, nearest⟩
  · simp [bound, lookup?_of_unbound (unbound_of_not_nearest bound)]

end

end Store

/-! ### Trees -/

/-- The nearest binding of a name is the one in the frame of `inner`: its value there is read, and
an assignment puts another value in its place and changes nothing else. -/
structure Store.Found (s : Store) (scope inner : Scope) (name : Name) (v : Value) : Prop where
  own : (s.own inner).get? name = some v
  get : s.get scope name = .ok v s
  visible : (s.visible scope).get? name = some v
  assign : ∀ value, ∃ after, s.assign scope name value = .ok () after ∧
    (after.own inner).get? name = some value ∧
    ∀ f other, f ≠ inner.frame ∨ other ≠ name →
      (after.frame f).get? other = (s.frame f).get? other

theorem Frames.Sound.found {t : Frames} (sound : t.Sound) {scope inner : Scope} {name : Name}
    {v : Value} (h : t.store.Nearest scope inner name v) : t.store.Found scope inner name v where
  own := h.binds
  get := h.get
  visible := by rw [Store.get?_visible sound.names, h.lookup?]
  assign value := by
    refine ⟨_, h.assign value, h.own_bind value, fun f other apart => ?_⟩
    rcases t.store.get?_frame_bind inner.frame f name other value with same | ⟨rfl, -⟩
    · exact same
    · rw [Store.frame_bind_of_ne (apart.resolve_right fun ne => ne rfl)]

/-- In every tree of frames the readers of a frame agree on whether a name is bound, with each other
and with assignment. If it is, all of them find it in the nearest frame that binds it; if not,
reading and assigning fail for the name. -/
theorem readers_agree {t : Frames} (built : t.Built) {scope : Scope} (mem : scope ∈ t.made)
    (name : Name) (value : Value) :
    [∃ v, t.store.get scope name = .ok v t.store,
      t.store.contains scope name = true,
      name ∈ (t.store.visible scope).names,
      ∃ after, t.store.assign scope name value = .ok () after,
      ∃ inner v, t.store.Nearest scope inner name v].TFAE ∧
    (∀ inner v, t.store.Nearest scope inner name v →
      inner ∈ t.made ∧ t.store.Found scope inner name v) ∧
    (t.store.contains scope name = false →
      t.store.get scope name = .error (.undefinedName name) t.store ∧
      t.store.assign scope name value = .error (.undefinedName name) t.store) := by
  have sound := built.sound
  refine ⟨?_, fun inner v nearest => ⟨?_, sound.found nearest⟩, fun absent => ?_⟩
  · tfae_have 1 ↔ 5 := Store.get_eq_ok_iff
    tfae_have 2 ↔ 5 := Store.contains_iff
    tfae_have 3 ↔ 5 := Store.mem_names_visible_iff sound.names
    tfae_have 4 ↔ 5 := Store.assign_eq_ok_iff value
    tfae_finish
  · obtain ⟨nearer, path, -⟩ := nearest.path
    exact sound.around scope mem inner ⟨nearer, path.symm⟩
  · have unbound : ∀ f ∈ scope.chain, (t.store.frame f).contains name = false := by
      simpa [Store.contains] using absent
    exact ⟨Store.get_of_unbound unbound, Store.assign_of_unbound unbound value⟩

/-- The global frame has a name that the root has too, and the frame inside it has another one. -/
theorem readers_agree_shadowed :
    let root := ((Store.empty none).newRoot (.ofList [("a", .nil)])).2
    let global := (root.push ⟨0, []⟩ []).2.bind 1 "a" (.bool true)
    let t : Frames := ⟨[⟨2, [1, 0]⟩, ⟨1, [0]⟩, ⟨0, []⟩],
      (global.push ⟨1, [0]⟩ (.ofList [("b", .nil)])).2⟩
    t.Built ∧ ⟨2, [1, 0]⟩ ∈ t.made ∧ t.store.Found ⟨2, [1, 0]⟩ ⟨1, [0]⟩ "a" (.bool true) ∧
      t.store.assign ⟨2, [1, 0]⟩ "c" .nil = .error (.undefinedName "c") t.store := by
  intro root global t
  have built : t.Built :=
    .step (.step (.step (.step .empty (.root [("a", .nil)])) (.global List.mem_cons_self))
      (.define List.mem_cons_self rfl)) (.push [("b", .nil)] List.mem_cons_self)
  have mem : ⟨2, [1, 0]⟩ ∈ t.made := List.mem_cons_self
  have nearest : t.store.Nearest ⟨2, [1, 0]⟩ ⟨1, [0]⟩ "a" (.bool true) :=
    ⟨⟨[2], rfl, fun f mem => by rw [List.mem_singleton.mp mem]; rfl⟩, rfl⟩
  exact ⟨built, mem, ((readers_agree built mem "a" .nil).2.1 _ _ nearest).2,
    ((readers_agree built mem "c" .nil).2.2 rfl).2⟩

end Lox
