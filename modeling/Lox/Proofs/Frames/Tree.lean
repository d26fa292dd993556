import Lox.Proofs.Store

/-!
Trees of frames.

Frames are made one after the other, each a root or inside one that is there already, and what they
bind changes by definitions and assignments in any of them, in any order. Whatever is done
(`Frames.Built`), a frame has each of its names once, and the frames around a frame have been made
too (`Frames.Built.sound`).
-/

namespace Lox

/-! ### Names bound once -/

namespace Bindings

variable {b : Bindings} {name : Name} {value : Value}

theorem mem_names_insert {other : Name} :
    other ∈ (insert name value b).names ↔ other = name ∨ other ∈ b.names := by
  have bound : ∀ b : Bindings, other ∈ b.names ↔ get? other b ≠ none := fun b => by
    rw [ne_eq, get?_eq_none_iff, Decidable.not_not]
  rw [bound, bound]
  by_cases same : other = name
  · subst same
    simp
  · simp [get?_insert_of_ne same, same]

theorem nodup_insert (distinct : b.names.Nodup) : (insert name value b).names.Nodup := by
  induction b with
  | nil => exact List.pairwise_singleton _ _
  | cons e rest ih =>
    obtain ⟨first, others⟩ := List.nodup_cons.mp distinct
    by_cases here : e.1 = name
    · rw [insert, if_pos here]
      exact distinct
    · rw [insert, if_neg here]
      refine List.nodup_cons.mpr ⟨fun mem => ?_, ih others⟩
      rcases mem_names_insert.mp mem with same | mem
      · exact here same
      · exact first mem

theorem nodup_foldl_insert (entries : List (Name × Value)) (distinct : b.names.Nodup) :
    (entries.foldl (fun b e => insert e.1 e.2 b) b).names.Nodup := by
  induction entries generalizing b with
  | nil => exact distinct
  | cons e rest ih => exact ih (nodup_insert distinct)

theorem nodup_ofList (entries : List (Name × Value)) : (ofList entries).names.Nodup :=
  nodup_foldl_insert entries List.nodup_nil

end Bindings

/-! ### Building a tree -/

/-- The frames made so far, each with those around it, and the store they are in. -/
structure Frames where
  made : List Scope
  store : Store

namespace Frames

/-- A frame that has just been made is added. -/
def add (made : List Scope) (new : Scope × Store) : Frames := ⟨new.1 :: made, new.2⟩

/-- One operation on the frames. Definitions and assignments may fail. -/
inductive Step : Frames → Frames → Prop where
  | root {made store} (bindings : List (Name × Value)) :
      Step ⟨made, store⟩ (add made (store.newRoot (.ofList bindings)))
  | global {made store root} : root ∈ made → Step ⟨made, store⟩ (add made (store.push root []))
  | push {made store parent} (bindings : List (Name × Value)) : parent ∈ made →
      Step ⟨made, store⟩ (add made (store.push parent (.ofList bindings)))
  | define {made store store' scope name value} : scope ∈ made →
      store.define scope name value = .ok () store' → Step ⟨made, store⟩ ⟨made, store'⟩
  | defineFails {made store store' scope name value e} : scope ∈ made →
      store.define scope name value = .error e store' → Step ⟨made, store⟩ ⟨made, store'⟩
  | assign {made store store' scope name value} : scope ∈ made →
      store.assign scope name value = .ok () store' → Step ⟨made, store⟩ ⟨made, store'⟩
  | assignFails {made store store' scope name value e} : scope ∈ made →
      store.assign scope name value = .error e store' → Step ⟨made, store⟩ ⟨made, store'⟩

/-- The frames are made and filled by some operations. -/
inductive Built : Frames → Prop where
  | empty {limit} : Built ⟨[], .empty limit⟩
  | step {t t' : Frames} : Built t → t.Step t' → Built t'

/-- Each frame has its names once, and the frames around a frame belong to the tree. -/
structure Sound (t : Frames) : Prop where
  names : ∀ f, (t.store.frame f).names.Nodup
  around : ∀ scope ∈ t.made, ∀ inner : Scope, inner.chain <:+ scope.chain → inner ∈ t.made

variable {t t' : Frames}

theorem Sound.bind (h : t.Sound) (f : FrameId) (name : Name) (value : Value) :
    Sound ⟨t.made, t.store.bind f name value⟩ where
  names g := by
    rw [Store.frame_bind]
    split
    · exact Bindings.nodup_insert (h.names g)
    · exact h.names g
  around := h.around

/-- The new frame has distinct names, and no frames around it that are not in the tree. -/
theorem Sound.add (h : t.Sound) {bindings : Bindings} (distinct : bindings.names.Nodup)
    {scope : Scope} (around : ∀ inner : Scope, inner.chain <:+ scope.outer → inner ∈ t.made) :
    Sound ⟨scope :: t.made, { t.store with frames := t.store.frames.push bindings }⟩ where
  names f := by
    have pushed := Store.frame_push t.store scope bindings f
    unfold Store.push at pushed
    rw [pushed]
    split
    · exact distinct
    · exact h.names f
  around other mem inner inside := by
    rcases List.mem_cons.mp mem with rfl | mem
    · rcases List.suffix_cons_iff.mp inside with same | inside
      · cases inner
        cases other
        cases same
        exact List.mem_cons_self
      · exact List.mem_cons_of_mem _ (around inner inside)
    · exact List.mem_cons_of_mem _ (h.around other mem inner inside)

theorem Sound.step (h : t.Sound) (step : t.Step t') : t'.Sound := by
  cases step with
  | root bindings =>
    refine h.add (Bindings.nodup_ofList bindings) fun inner inside => ?_
    cases List.eq_nil_of_suffix_nil inside
  | global mem => exact h.add (Bindings.nodup_ofList []) (h.around _ mem)
  | push bindings mem => exact h.add (Bindings.nodup_ofList bindings) (h.around _ mem)
  | define _ defined =>
    unfold Store.define at defined
    split at defined <;> cases defined
    exact h.bind _ _ _
  | defineFails _ failed =>
    unfold Store.define at failed
    split at failed <;> cases failed
    exact h
  | assign _ assigned =>
    unfold Store.assign at assigned
    split at assigned <;> cases assigned
    exact h.bind _ _ _
  | assignFails _ failed =>
    unfold Store.assign at failed
    split at failed <;> cases failed
    exact h

theorem Built.sound (h : t.Built) : t.Sound := by
  induction h with
  | empty =>
    refine ⟨fun f => ?_, by simp⟩
    rw [Store.frame_of_size_le (Nat.zero_le f)]
    exact List.nodup_nil
  | step _ step ih => exact ih.step step

end Frames

end Lox
