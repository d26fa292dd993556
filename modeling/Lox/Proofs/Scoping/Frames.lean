import Lox.Proofs.Scoping.Eval

/-!
The frames inside a call.

A frame is known by the block or call that makes it: no two works of a course make the same frame
(`Setting.Orderly.opens_unique`). So where the frame of a call is among those of a scope, the part
that runs in the scope stands in the function that was called (`Setting.Aligned.spans`), and the
frames inside that of the call bind only names that the function declares
(`Setting.Aligned.not_contains_inside`).
-/

namespace Lox

open Run

/-- Of two ways to split a list, the second one is further to the right if its first element is not
in front of the first one. -/
theorem split_of_notMem {α : Type} {words chain front rest : List α} {a : α}
    (split : words ++ chain = front ++ a :: rest) (notMem : a ∉ words) :
    ∃ between, front = words ++ between ∧ chain = between ++ a :: rest := by
  rcases List.append_eq_append_iff.mp split with ⟨between, rfl, same⟩ | ⟨between, rfl, same⟩
  · exact ⟨between, rfl, same⟩
  · cases between with
    | nil => exact ⟨[], by simp, same.symm⟩
    | cons b between =>
      cases (List.cons.inj same).1
      exact absurd (List.mem_append_right _ List.mem_cons_self) notMem

/-- The frames that are in every scope are the first two. -/
theorem Scope.lt_two_of_mem_global {f : FrameId} (mem : f ∈ Scope.global.chain) : f < 2 := by
  rcases List.mem_cons.mp mem with rfl | mem
  · exact Nat.one_lt_two
  · rw [List.mem_singleton.mp mem]
    exact Nat.two_pos

/-! ### Works that make frames -/

/-- The work makes a frame, with the scope and the store, and runs statements in it. -/
inductive Work.Opens : Work → Store → Scope → Store → Prop where
  | block {fuel scope body s} :
      Opens (.exec (fuel + 1) scope (.block body)) s (s.push scope []).1 (s.push scope []).2
  | call {fuel f args s} :
      Opens (.closure (fuel + 1) f args) s (f.frameOf args s).1 (f.frameOf args s).2

namespace Work.Opens

variable {w : Work} {s t : Store} {inner : Scope}

theorem frame_eq (h : w.Opens s inner t) : inner.frame = s.frames.size := by
  cases h <;> rfl

theorem size_eq (h : w.Opens s inner t) : t.frames.size = s.frames.size + 1 := by
  cases h <;> exact Store.size_frames_push s _ _

theorem unique {inner' : Scope} {t' : Store} (h : w.Opens s inner t) (h' : w.Opens s inner' t') :
    inner' = inner ∧ t' = t := by
  cases h <;> cases h' <;> exact ⟨rfl, rfl⟩

/-- What is in the frame is all that the work begins itself. -/
theorem begins_iff (h : w.Opens s inner t) (host : Host) :
    ∃ body, ∀ w' s', (w.plan host).Begins host s w' s' ↔ w' = body ∧ s' = t := by
  cases h with
  | @block fuel scope body =>
    refine ⟨.block fuel (s.push scope []).1 body, fun w' s' => ⟨fun begins => ?_, ?_⟩⟩
    · cases begins with
      | act result begins =>
        cases result
        cases begins with
        | now => exact ⟨rfl, rfl⟩
        | later _ begins => cases begins
    · rintro ⟨rfl, rfl⟩
      exact .act rfl .now
  | call => exact ⟨_, fun w' s' => Closure.begins_iff⟩

theorem occurs {k : Setting} (h : w.Opens s inner t) (moment : k.moments w s) :
    t.Occurs k.host k.moments := by
  obtain ⟨body, begins⟩ := h.begins_iff k.host
  exact Store.occurs_begin (k.closed moment ((begins body t).mpr ⟨rfl, rfl⟩))

end Work.Opens

namespace Setting.Orderly

variable {k : Setting} (h : k.Orderly) {w w' : Work} {s s' t t' : Store} {inner inner' : Scope}
include h

/-- A work ends later than it makes its frame. -/
theorem later_of_opens (moment : k.moments w s) (opens : w.Opens s inner t) {u : Store}
    (ends : (w.run k.host s).state? = some u) : t.Later u := by
  obtain ⟨body, begins⟩ := opens.begins_iff k.host
  have inside := (begins body t).mpr ⟨rfl, rfl⟩
  obtain ⟨v, ends', later⟩ :=
    (Work.Visits.inner inside .self).ended h.governs moment ends
  exact ((h.governs.acts (k.closed moment inside)).state? ends').follows.trans later

/-- Of two works, the first is the second, or makes its frame before the second begins, if it is
begun before. -/
theorem eq_or_lt_of_visits (moment : k.moments w s) (opens : w.Opens s inner t)
    (visits : w.Visits k.host s w' s') : (w = w' ∧ s = s') ∨ s.frames.size < s'.frames.size := by
  cases visits with
  | self => exact .inl ⟨rfl, rfl⟩
  | inner begins visits =>
    obtain ⟨body, only⟩ := opens.begins_iff k.host
    obtain ⟨rfl, rfl⟩ := (only _ _).mp begins
    have later : Store.Later _ s' := (h.governs.visits (k.closed moment begins) visits).follows
    have size := later.grows.size
    rw [opens.size_eq] at size
    exact .inr size

theorem lt_of_before (moment : k.moments w s) (opens : w.Opens s inner t)
    (before : k.contract.Before k.toCourse w s s') : s.frames.size < s'.frames.size := by
  obtain ⟨u, ends, later⟩ := before
  have later : Store.Later u s' := later
  have size := ((h.later_of_opens moment opens ends).trans later).grows.size
  rw [opens.size_eq] at size
  exact size

/-- No two works make the same frame. -/
theorem opens_unique (moment : k.moments w s) (opens : w.Opens s inner t)
    (moment' : k.moments w' s') (opens' : w'.Opens s' inner' t')
    (same : inner.frame = inner'.frame) : (w = w' ∧ s = s') ∧ inner = inner' := by
  have sizes : s.frames.size = s'.frames.size :=
    opens.frame_eq.symm.trans (same.trans opens'.frame_eq)
  suffices w = w' ∧ s = s' by
    obtain ⟨rfl, rfl⟩ := this
    exact ⟨⟨rfl, rfl⟩, (opens'.unique opens).1⟩
  rcases h.ordered moment moment' with visits | visits | before | before
  · exact (h.eq_or_lt_of_visits moment opens visits).resolve_right (by omega)
  · obtain ⟨rfl, rfl⟩ := (h.eq_or_lt_of_visits moment' opens' visits).resolve_right (by omega)
    exact ⟨rfl, rfl⟩
  · exact absurd sizes (Nat.ne_of_lt (h.lt_of_before moment opens before))
  · exact absurd sizes.symm (Nat.ne_of_lt (h.lt_of_before moment' opens' before))

/-- The frame of a block or call binds no reserved word when it is made. -/
theorem not_contains_of_opens (moment : k.moments w s) (opens : w.Opens s inner t) {name : Name}
    (reserved : name.isReserved = true) : (t.frame inner.frame).contains name = false := by
  cases opens with
  | block =>
    rw [Store.push_fst, Store.frame_push_self]
    rfl
  | @call fuel f args =>
    have sound : f.Sound k s := (h.requires moment).1
    rw [Closure.frameOf, Store.push_fst, Store.frame_push_self]
    exact Check.not_contains_params sound.params args name reserved

/-- The frame of a block or call is none of `this` or `super`. -/
theorem not_holdsWord (moment : k.moments w s) (opens : w.Opens s inner t)
    (occurs : s'.Occurs k.host k.moments) : ¬ s'.HoldsWord inner.frame := by
  intro holds
  obtain ⟨name, reserved, bound⟩ := holds.word
  have made := h.not_contains_of_opens moment opens reserved
  have here : inner.frame < t.frames.size := by
    rw [opens.frame_eq, opens.size_eq]
    exact Nat.lt_succ_self _
  have agree : (s'.frame inner.frame).get? name = (t.frame inner.frame).get? name := by
    rcases h.comparable (opens.occurs moment) occurs with later | later
    · exact later.grows.reserved _ here name reserved
    · exact (later.grows.reserved _ (Store.lt_of_contains bound) name reserved).symm
  unfold Bindings.contains at bound made
  rw [agree, made] at bound
  cases bound

end Setting.Orderly

/-- The innermost frame of a scope is the global one, or that of a block or a call. -/
theorem Setting.Surrounds.global_or_opens {k : Setting} {scope : Scope} {p : Part}
    (h : k.Surrounds scope p) : scope = .global ∨ ∃ w s t, k.moments w s ∧ w.Opens s scope t := by
  induction h with
  | global => exact .inl rfl
  | inner _ _ ih => exact ih
  | block moment _ _ => exact .inr ⟨_, _, _, moment, .block⟩
  | call moment _ _ _ => exact .inr ⟨_, _, _, moment, .call⟩

/-! ### Courses in line with the text -/

/-- All that happens in the course is in order, and its scopes are in line with the text. -/
structure Setting.Aligned (k : Setting) : Prop where
  orderly : k.Orderly
  governs : k.scoping.Governs k.toCourse
  ordered : ∀ {w₁ s₁ w₂ s₂}, k.moments w₁ s₁ → k.moments w₂ s₂ →
    k.scoping.Ordered k.toCourse w₁ s₁ w₂ s₂

namespace Setting.Aligned

variable {k : Setting} (h : k.Aligned) {scope scope' : Scope} {p p' : Part} {s : Store}

include h

theorem requires {w : Work} (moment : k.moments w s) : k.ScopingRequires s w :=
  h.governs.requires moment

theorem tidy_of_occurs (occurs : s.Occurs k.host k.moments) : s.Scoped k := by
  obtain ⟨w, s₀, moment, touches⟩ := occurs
  exact (h.governs.step_of_touches moment touches).holds

/-- Of two stores of the course, one is reached from the other. -/
theorem comparable {s' : Store} (occurs : s.Occurs k.host k.moments)
    (occurs' : s'.Occurs k.host k.moments) : s.Onward k s' ∨ s'.Onward k s :=
  h.governs.comparable h.ordered occurs occurs'

/-- The frames of blocks and calls are neither the root nor global ones. -/
theorem two_le_of_opens {w : Work} {t : Store} (moment : k.moments w s)
    (opens : w.Opens s scope t) : 2 ≤ scope.frame := by
  have tidy : s.Scoped k := h.governs.holds moment
  exact opens.frame_eq ▸ tidy.size

/-- A frame is the innermost one of one scope only. -/
theorem scope_eq (surrounds : k.Surrounds scope p) (surrounds' : k.Surrounds scope' p')
    (same : scope.frame = scope'.frame) : scope = scope' := by
  have apart : ∀ {scope w s t}, k.moments w s → Work.Opens w s scope t →
      scope.frame ≠ Scope.global.frame := fun moment opens =>
    Nat.ne_of_gt (h.two_le_of_opens moment opens)
  rcases surrounds.global_or_opens with rfl | ⟨w, s, t, moment, opens⟩
  · rcases surrounds'.global_or_opens with rfl | ⟨w', s', t', moment', opens'⟩
    · rfl
    · exact absurd same.symm (apart moment' opens')
  · rcases surrounds'.global_or_opens with rfl | ⟨w', s', t', moment', opens'⟩
    · exact absurd same (apart moment opens)
    · exact (h.orderly.opens_unique moment opens moment' opens' same).2

section

variable {fuel : Nat} {f : Closure} {args : List Value} {s₀ : Store}
  (moment : k.moments (.closure (fuel + 1) f args) s₀)
include moment

/-- The frame of a call is not one of those that are in every scope. -/
theorem not_mem_global : s₀.frames.size ∉ Scope.global.chain := fun mem =>
  Nat.not_lt_of_le (h.two_le_of_opens moment .call) (Scope.lt_two_of_mem_global mem)

/-- The frame of a call is none of `this` or `super`. -/
theorem call_not_holdsWord (occurs : s.Occurs k.host k.moments) : ¬ s.HoldsWord s₀.frames.size :=
  h.orderly.not_holdsWord moment .call occurs

/-- What runs inside the frame of a call stands in the function that was called. -/
theorem spans (surrounds : k.Surrounds scope p) (inside : s₀.frames.size ∈ scope.chain) :
    f.decl.Spans p := by
  induction surrounds with
  | global => exact absurd inside (h.not_mem_global moment)
  | inner _ mem ih => exact (ih inside).inner mem
  | block moment' _ ih =>
    rcases List.mem_cons.mp inside with same | inside
    · -- The frame of a call is not that of a block.
      obtain ⟨⟨⟨⟩, -⟩, -⟩ := h.orderly.opens_unique moment .call moment' .block same
    · exact ih inside
  | @call _ f' _ _ _ _ moment' made _ ih =>
    rcases List.mem_cons.mp inside with same | inside
    · obtain ⟨⟨⟨⟩, -⟩, -⟩ := h.orderly.opens_unique moment .call moment' .call same
      rcases made.text with rfl | rfl
      · exact .inl .self
      · exact .inr .self
    · obtain ⟨words, split, hold⟩ := made.chain
      change _ ∈ f'.scope.chain at inside
      rw [split] at inside
      rcases List.mem_append.mp inside with mem | inside
      · exact absurd (hold _ mem) (h.call_not_holdsWord moment (Store.occurs_begin moment'))
      · exact ih inside

/-- The frames inside that of a call, and that frame itself, are the innermost ones of scopes inside
it, or hold `this` or `super`. -/
theorem inside_or_holdsWord (surrounds : k.Surrounds scope p) {front rest : List FrameId}
    (split : scope.chain = front ++ s₀.frames.size :: rest) {g : FrameId}
    (mem : g ∈ front ++ [s₀.frames.size]) :
    (∃ inner q, k.Surrounds inner q ∧ inner.frame = g ∧ s₀.frames.size ∈ inner.chain) ∨
      ∃ t : Store, t.Occurs k.host k.moments ∧ t.HoldsWord g := by
  have whole : ∀ {scope q}, k.Surrounds scope q → s₀.frames.size ∈ scope.chain →
      scope.frame = g → ∃ inner q, k.Surrounds inner q ∧ inner.frame = g ∧
        s₀.frames.size ∈ inner.chain :=
    fun surrounds inside same => ⟨_, _, surrounds, same, inside⟩
  induction surrounds generalizing front with
  | global =>
    have inside : s₀.frames.size ∈ Scope.global.chain := split ▸ by simp
    exact absurd inside (h.not_mem_global moment)
  | inner _ _ ih => exact ih split mem
  | @block fuel' outer body s' moment' surrounds ih =>
    have here := whole (.block moment' surrounds) (split ▸ by simp)
    rcases List.cons_eq_append_iff.mp split with ⟨rfl, same⟩ | ⟨front', rfl, outside⟩
    · obtain rfl := List.mem_singleton.mp mem
      exact .inl (here (List.cons.inj same).1.symm)
    · rcases List.mem_cons.mp mem with rfl | mem
      · exact .inl (here rfl)
      · exact ih outside mem
  | @call fuel' f' args' s' outer q moment' made surrounds ih =>
    have here := whole (.call moment' made surrounds) (split ▸ by simp)
    rcases List.cons_eq_append_iff.mp split with ⟨rfl, same⟩ | ⟨front', rfl, outside⟩
    · obtain rfl := List.mem_singleton.mp mem
      exact .inl (here (List.cons.inj same).1.symm)
    · rcases List.mem_cons.mp mem with rfl | mem
      · exact .inl (here rfl)
      · obtain ⟨words, chain, hold⟩ := made.chain
        have occurs : s'.Occurs k.host k.moments := Store.occurs_begin moment'
        change f'.scope.chain = _ at outside
        rw [chain] at outside
        -- The frames of `this` and `super` lie inside that of the call, which is none of them.
        obtain ⟨front, rfl, around⟩ := split_of_notMem outside fun mem =>
          h.call_not_holdsWord moment occurs (hold _ mem)
        change g ∈ (words ++ front) ++ [s₀.frames.size] at mem
        rw [List.append_assoc] at mem
        rcases List.mem_append.mp mem with mem | mem
        · exact .inr ⟨s', occurs, hold g mem⟩
        · exact ih around mem

/-- The names that the frames of scopes inside a call get are declared in the function. -/
theorem declares_of_binds {inner : Scope} (surrounds : k.Surrounds inner p)
    (inside : s₀.frames.size ∈ inner.chain) {name : Name} (binds : k.Binds inner.frame name) :
    f.decl.Declares name := by
  generalize same : inner.frame = g at binds
  cases binds with
  | @param fuel' f' args' s' _ moment' mem =>
    obtain ⟨outer, q, made, around⟩ : f'.Surrounded k s' := (h.requires moment').1
    have call := Setting.Surrounds.call moment' made around
    have spans := h.spans moment call (h.scope_eq surrounds call same ▸ inside)
    have written : Part.param name ∈ q.parts := by
      rcases made.text with rfl | rfl
      all_goals exact List.mem_cons_of_mem _ (List.mem_append_left _ (List.mem_map_of_mem mem))
    exact (spans.inner written).declares rfl
  | @declared fuel' scope stmt s' _ moment' declares =>
    have placed : k.Surrounds scope (.stmt stmt) := h.requires moment'
    have spans := h.spans moment placed (h.scope_eq surrounds placed same ▸ inside)
    exact spans.declares declares

end

/-- The frames of `this` and `super` get no further names. -/
theorem not_binds_of_holdsWord {g : FrameId} (occurs : s.Occurs k.host k.moments)
    (holds : s.HoldsWord g) (name : Name) : ¬ k.Binds g name := by
  intro binds
  cases binds with
  | param moment' _ => exact h.call_not_holdsWord moment' occurs holds
  | declared moment' _ =>
    have placed : k.Surrounds _ (.stmt _) := h.requires moment'
    rcases placed.global_or_opens with rfl | ⟨w, s', t, moment', opens⟩
    · exact absurd holds.inner (by decide)
    · exact h.orderly.not_holdsWord moment' opens occurs holds

/-- The frame of a call and those inside it bind no names but those that the function declares, at
any time. -/
theorem not_contains_inside {fuel : Nat} {f : Closure} {args : List Value} {s₀ : Store}
    (moment : k.moments (.closure (fuel + 1) f args) s₀) (surrounds : k.Surrounds scope p)
    {front : List FrameId} (split : scope.chain = front ++ (f.frameOf args s₀).1.chain)
    {name : Name} (unreserved : name.isReserved = false) (free : ¬ f.decl.Declares name)
    (occurs : s.Occurs k.host k.moments) :
    ∀ g ∈ front ++ [s₀.frames.size], (s.frame g).contains name = false := by
  intro g mem
  rw [Bool.eq_false_iff]
  intro bound
  have binds : 2 ≤ g → k.Binds g name := fun inner =>
    ((h.tidy_of_occurs occurs).names g inner name bound).resolve_left (by simp [unreserved])
  rcases h.inside_or_holdsWord moment surrounds split mem with
    ⟨inner, q, surrounds, rfl, inside⟩ | ⟨t, occurs', holds⟩
  · rcases surrounds.global_or_opens with rfl | ⟨w, s', t, moment', opens⟩
    · exact h.not_mem_global moment inside
    · have late := h.two_le_of_opens moment' opens
      exact free (h.declares_of_binds moment surrounds inside (binds late))
  · exact h.not_binds_of_holdsWord occurs' holds name (binds holds.inner)

end Setting.Aligned

end Lox
