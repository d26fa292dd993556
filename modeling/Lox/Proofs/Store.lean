import Lox.Store

/-!
What the operations on a store do to its frames and to the fields of its instances.
-/

namespace Lox.Store

/-! ### Frames -/

@[simp] theorem push_fst (s : Store) (scope : Scope) (b : Bindings) :
    (s.push scope b).1 = ⟨s.frames.size, scope.chain⟩ := rfl

@[simp] theorem size_frames_push (s : Store) (scope : Scope) (b : Bindings) :
    (s.push scope b).2.frames.size = s.frames.size + 1 := by
  simp [push]

@[simp] theorem size_frames_bind (s : Store) (f : FrameId) (name : Name) (value : Value) :
    (s.bind f name value).frames.size = s.frames.size := by
  simp [bind]

theorem frame_of_size_le {s : Store} {f : FrameId} (h : s.frames.size ≤ f) : s.frame f = [] := by
  simp [frame, Array.getElem?_eq_none h]

theorem frame_push (s : Store) (scope : Scope) (b : Bindings) (f : FrameId) :
    (s.push scope b).2.frame f = if f = s.frames.size then b else s.frame f := by
  unfold push frame
  dsimp only
  rw [Array.getElem?_push]
  split <;> rfl

theorem frame_bind (s : Store) (f g : FrameId) (name : Name) (value : Value) :
    (s.bind f name value).frame g =
      if g = f ∧ g < s.frames.size then (s.frame g).insert name value else s.frame g := by
  unfold bind frame
  rw [Array.getElem?_modify]
  by_cases same : g = f
  · subst same
    by_cases inside : g < s.frames.size <;> simp [inside]
  · rw [if_neg (Ne.symm same), if_neg fun both => same both.1]

theorem frame_bind_of_ne {f g : FrameId} (h : g ≠ f) (s : Store) (name : Name) (value : Value) :
    (s.bind f name value).frame g = s.frame g := by
  rw [frame_bind, if_neg fun both => h both.1]

/-- Binding a name changes at most what one frame says about it. -/
theorem get?_frame_bind (s : Store) (f g : FrameId) (name other : Name) (value : Value) :
    ((s.bind f name value).frame g).get? other = (s.frame g).get? other ∨
      other = name ∧ ((s.bind f name value).frame g).get? other = some value := by
  rw [frame_bind]
  split
  · by_cases here : other = name
    · subst here
      exact .inr ⟨rfl, Bindings.get?_insert_self _ _ _⟩
    · exact .inl (Bindings.get?_insert_of_ne here _ _)
  · exact .inl rfl

/-- Frames that say the same of a name give it the same value. -/
theorem lookup?_congr {s s' : Store} {name : Name} {chain : List FrameId}
    (h : ∀ f ∈ chain, (s'.frame f).get? name = (s.frame f).get? name) :
    s'.lookup? name chain = s.lookup? name chain := by
  induction chain with
  | nil => rfl
  | cons f rest ih =>
    obtain ⟨first, others⟩ := List.forall_mem_cons.mp h
    rw [lookup?, lookup?, first, ih others]

/-! ### Instances -/

/-- An instance starts without fields. -/
@[simp] theorem fieldsOf_newObject (s : Store) (c : Class) (o : Object) :
    (s.newObject c).2.fieldsOf o = s.fieldsOf o := by
  unfold newObject fieldsOf
  dsimp only
  rw [Array.getElem?_push]
  split
  · rename_i h
    simp [h]
  · rfl

theorem fieldsOf_setField (s : Store) (o p : Object) (name : Name) (value : Value) :
    (s.setField o name value).fieldsOf p =
      if p.address = o.address ∧ p.address < s.fields.size then
        (s.fieldsOf p).insert name value else s.fieldsOf p := by
  unfold setField fieldsOf
  rw [Array.getElem?_modify]
  by_cases same : p.address = o.address
  · rw [← same]
    by_cases inside : p.address < s.fields.size <;> simp [inside]
  · rw [if_neg (Ne.symm same), if_neg fun both => same both.1]

theorem fieldsOf_setField_of_ne {o p : Object} (h : p.address ≠ o.address) (s : Store)
    (name : Name) (value : Value) : (s.setField o name value).fieldsOf p = s.fieldsOf p := by
  rw [fieldsOf_setField, if_neg fun both => h both.1]

/-- Writing a field changes at most what one instance says about it. -/
theorem get?_fieldsOf_setField (s : Store) (o p : Object) (name other : Name) (value : Value) :
    ((s.setField o name value).fieldsOf p).get? other = (s.fieldsOf p).get? other ∨
      ((s.setField o name value).fieldsOf p).get? other = some value := by
  rw [fieldsOf_setField]
  split
  · by_cases here : other = name
    · subst here
      exact .inr (Bindings.get?_insert_self _ _ _)
    · exact .inl (Bindings.get?_insert_of_ne here _ _)
  · exact .inl rfl

end Lox.Store
