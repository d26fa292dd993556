import Lox.Run

/-!
What holds after a computation, if it ends.

`Ensures s x Q E` says what becomes of the store `s` and of the value or error. Nothing is said of a
computation that runs out of fuel. `Preserves P x` says that a property of stores outlasts the
computation, whether it succeeds or fails.
-/

namespace Lox.Run

variable {α β : Type} {s : Store} {x : Run α} {f : α → Run β}

/-- If the computation ends from `s`, it ends with a value and a store that have the first property,
or with an error and a store that have the second. -/
def Ensures (s : Store) (x : Run α) (Q : α → Store → Prop) (E : RuntimeError → Store → Prop) :
    Prop :=
  match x s with
  | .ok a s' => Q a s'
  | .error e s' => E e s'
  | .outOfFuel => True

section

variable {Q Q' : α → Store → Prop} {R : β → Store → Prop} {E E' : RuntimeError → Store → Prop}

theorem Ensures.of_ok {a : α} {s' : Store} (h : Ensures s x Q E) (result : x s = .ok a s') :
    Q a s' := by
  unfold Ensures at h
  rw [result] at h
  exact h

theorem Ensures.of_error {e : RuntimeError} {s' : Store} (h : Ensures s x Q E)
    (result : x s = .error e s') : E e s' := by
  unfold Ensures at h
  rw [result] at h
  exact h

theorem ensures_iff :
    Ensures s x Q E ↔ (∀ a s', x s = .ok a s' → Q a s') ∧ ∀ e s', x s = .error e s' → E e s' := by
  constructor
  · intro h
    exact ⟨fun a s' => h.of_ok, fun e s' => h.of_error⟩
  · rintro ⟨value, error⟩
    unfold Ensures
    cases result : x s with
    | ok a s' => exact value a s' result
    | error e s' => exact error e s' result
    | outOfFuel => trivial

theorem Ensures.mono (h : Ensures s x Q E) (value : ∀ a s', Q a s' → Q' a s')
    (error : ∀ e s', E e s' → E' e s') : Ensures s x Q' E' :=
  ensures_iff.mpr ⟨fun a s' result => value a s' (h.of_ok result),
    fun e s' result => error e s' (h.of_error result)⟩

theorem Ensures.and (h : Ensures s x Q E) (h' : Ensures s x Q' E') :
    Ensures s x (fun a s' => Q a s' ∧ Q' a s') (fun e s' => E e s' ∧ E' e s') :=
  ensures_iff.mpr ⟨fun _ _ result => ⟨h.of_ok result, h'.of_ok result⟩,
    fun _ _ result => ⟨h.of_error result, h'.of_error result⟩⟩

theorem ensures_bind (first : Ensures s x Q E) (next : ∀ a s', Q a s' → Ensures s' (f a) R E) :
    Ensures s (x >>= f) R E := by
  change Ensures s (andThen x f) R E
  unfold Ensures at first
  unfold Ensures andThen
  cases result : x s with
  | ok a s' =>
    rw [result] at first
    exact next a s' first
  | error e s' =>
    rw [result] at first
    exact first
  | outOfFuel => trivial

end

/-! ### Sequences

A sequence does what its first part does, up to the end of that. -/

theorem bind_of_ok {s₁ : Store} {a : α} (result : x s = .ok a s₁) : (x >>= f) s = f a s₁ := by
  change andThen x f s = f a s₁
  rw [andThen, result]

theorem bind_of_error {s₁ : Store} {e : RuntimeError} (result : x s = .error e s₁) :
    (x >>= f) s = .error e s₁ := by
  change andThen x f s = .error e s₁
  rw [andThen, result]

theorem bind_of_outOfFuel (result : x s = .outOfFuel) :
    (x >>= f) s = .outOfFuel := by
  change andThen x f s = .outOfFuel
  rw [andThen, result]

theorem bind_eq_ok {t : Store} {b : β} :
    (x >>= f) s = .ok b t ↔ ∃ a s', x s = .ok a s' ∧ f a s' = .ok b t := by
  cases result : x s with
  | ok a s' =>
    rw [bind_of_ok result]
    constructor
    · exact fun h => ⟨a, s', rfl, h⟩
    · rintro ⟨_, _, ⟨⟩, h⟩
      exact h
  | error e s' => simp [bind_of_error result]
  | outOfFuel => simp [bind_of_outOfFuel result]

/-! ### Properties of stores that last -/

/-- A property of stores outlasts the computation. -/
def Preserves (P : Store → Prop) (x : Run α) : Prop :=
  ∀ s, P s → Ensures s x (fun _ s' => P s') (fun _ s' => P s')

section

variable {P : Store → Prop}

theorem preserves_succeed (a : α) : Preserves P (succeed a) := fun _ h => h

theorem preserves_fail (e : RuntimeError) : Preserves P (fail e : Run α) := fun _ h => h

theorem preserves_exhausted : Preserves P (exhausted : Run α) := fun _ _ => trivial

theorem preserves_ofExcept (r : Except RuntimeError α) : Preserves P (ofExcept r) := by
  cases r with
  | ok a => exact preserves_succeed a
  | error e => exact preserves_fail e

theorem preserves_bind (first : Preserves P x) (next : ∀ a, Preserves P (f a)) :
    Preserves P (x >>= f) :=
  fun s h => ensures_bind (first s h) fun a s' h' => next a s' h'

theorem preserves_change {g : Store → α × Store} (h : ∀ s, P s → P (g s).2) :
    Preserves P (change g) := h

theorem preserves_ite {C : Prop} [Decidable C] {y : Run α} (yes : Preserves P x)
    (no : Preserves P y) : Preserves P (if C then x else y) := by
  split
  · exact yes
  · exact no

end

end Lox.Run
