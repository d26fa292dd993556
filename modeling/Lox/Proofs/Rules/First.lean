import Lox.Proofs.Rules.Site

/-!
The first breach in a tree.

A verdict is right about some breaches if it names the first of them by path, and is no error when
there are none (`IsFirst`). The breaches under a site are its own and, behind it, those under its
parts from left to right. So the verdict about a site is put together as a check is: the site's own
rules, then one part after the other, up to the first error (`Judged.intro`, `IsFirst.cons`).
-/

namespace Lox

open Site

/-- The verdict names the first of the breaches, or there are none. -/
def IsFirst (breaches : List Nat → SemanticError → Prop) : Except SemanticError Unit → Prop
  | .ok () => ∀ path e, ¬ breaches path e
  | .error e => ∃ path, breaches path e ∧
      ∀ path' e', breaches path' e' → path < path' ∨ path' = path ∧ e' = e

/-- The verdict is right about all that is broken under a site. -/
def Judged (s : Site) : Except SemanticError Unit → Prop := IsFirst s.Breach

/-- What is broken in the last parts of a part, behind those of `before`. -/
def Within (around before rest : List Part) (path : List Nat) (e : SemanticError) : Prop :=
  ∃ i part path', rest[i]? = some part ∧ path = (before.length + i) :: path' ∧
    Breach ⟨part, before ++ rest.take i, around⟩ path' e

section

variable {breaches breaches' : List Nat → SemanticError → Prop} {v w : Except SemanticError Unit}
  {around before rest : List Part} {part : Part} {path : List Nat} {e : SemanticError} {s : Site}

theorem IsFirst.congr (h : IsFirst breaches v)
    (same : ∀ path e, breaches path e ↔ breaches' path e) : IsFirst breaches' v := by
  have : breaches = breaches' := funext fun path => funext fun e => propext (same path e)
  exact this ▸ h

/-- A verdict says of all errors whether they come first. -/
theorem IsFirst.eq_error_iff (h : IsFirst breaches v) :
    v = .error e ↔ ∃ path, breaches path e ∧
      ∀ path' e', breaches path' e' → path < path' ∨ path' = path ∧ e' = e := by
  constructor
  · rintro rfl
    exact h
  · rintro ⟨path, broken, first⟩
    cases v with
    | ok => exact absurd broken (h path e)
    | error e' =>
      obtain ⟨path', broken', first'⟩ := h
      rcases first path' e' broken' with before | ⟨-, rfl⟩
      · rcases first' path e broken with before' | ⟨rfl, rfl⟩
        · exact absurd before (List.lt_asymm before')
        · rfl
      · rfl

theorem IsFirst.eq_ok_iff (h : IsFirst breaches v) :
    v = .ok () ↔ ∀ path e, ¬ breaches path e := by
  constructor
  · rintro rfl
    exact h
  · intro none
    cases v with
    | ok => rfl
    | error e =>
      obtain ⟨path, broken, -⟩ := h
      exact absurd broken (none path e)

/-! ### Parts of a site -/

theorem breach_iff :
    s.Breach path e ↔
      path = [] ∧ s.Breaks e ∨ Within (s.part :: s.around) [] s.part.parts path e := by
  cases path with
  | nil => simp [Breach, Site.at?, Within]
  | cons i path =>
    simp only [Breach, Site.at?, Site.inner?]
    constructor
    · rintro ⟨t, reached, broken⟩
      obtain ⟨inner, stands, reached⟩ := Option.bind_eq_some_iff.mp reached
      obtain ⟨part, found, rfl⟩ := Option.map_eq_some_iff.mp stands
      exact .inr ⟨i, part, path, found, by simp, t, reached, broken⟩
    · rintro (⟨none, -⟩ | ⟨i, part, path, found, same, t, reached, broken⟩)
      · cases none
      · cases same
        exact ⟨t, by simpa [found] using reached, broken⟩

theorem within_nil : ¬ Within around before [] path e := by
  rintro ⟨i, part, path', found, -⟩
  simp at found

theorem within_cons :
    Within around before (part :: rest) path e ↔
      (∃ path', path = before.length :: path' ∧ Breach ⟨part, before, around⟩ path' e) ∨
        Within around (before ++ [part]) rest path e := by
  constructor
  · rintro ⟨i, p, path', found, rfl, broken⟩
    cases i with
    | zero =>
      cases found
      exact .inl ⟨path', rfl, by simpa using broken⟩
    | succ i => exact .inr ⟨i, p, path', found, by simp; omega, by simpa using broken⟩
  · rintro (⟨path', rfl, broken⟩ | ⟨i, p, path', found, rfl, broken⟩)
    · exact ⟨0, part, path', rfl, rfl, by simpa using broken⟩
    · exact ⟨i + 1, p, path', found, by simp; omega, by simpa using broken⟩

theorem Within.behind (h : Within around (before ++ [part]) rest path e) (path' : List Nat) :
    before.length :: path' < path := by
  obtain ⟨i, -, path, -, rfl, -⟩ := h
  apply List.cons_lt_cons_iff.mpr
  left
  simp
  omega

/-! ### Putting verdicts together -/

theorem isFirst_nil : IsFirst (Within around before []) (.ok ()) := fun _ _ => within_nil

/-- The first part is judged, and then the parts behind it. -/
theorem IsFirst.cons (first : Judged ⟨part, before, around⟩ v)
    (others : v = .ok () → IsFirst (Within around (before ++ [part]) rest) w) :
    IsFirst (Within around before (part :: rest)) (v >>= fun _ => w) := by
  cases v with
  | ok =>
    refine (others rfl).congr fun path e => ?_
    rw [within_cons]
    refine (or_iff_right ?_).symm
    rintro ⟨path', -, broken⟩
    exact first path' e broken
  | error e =>
    obtain ⟨path, broken, least⟩ := first
    refine ⟨before.length :: path, within_cons.mpr (.inl ⟨path, rfl, broken⟩),
      fun path' e' other => ?_⟩
    rcases within_cons.mp other with ⟨path', rfl, broken'⟩ | other
    · rcases least path' e' broken' with lt | ⟨rfl, rfl⟩
      · exact .inl (List.cons_lt_cons_iff.mpr (.inr ⟨rfl, lt⟩))
      · exact .inr ⟨rfl, rfl⟩
    · exact .inl (other.behind path)

/-- The last part is judged, and nothing is left. -/
theorem IsFirst.last (h : Judged ⟨part, before, around⟩ v) :
    IsFirst (Within around before [part]) v := by
  have alone := IsFirst.cons h fun _ => isFirst_nil
  cases v <;> exact alone

/-- A part that may be absent is judged, and then the parts behind it. -/
theorem IsFirst.optional {α : Type} {toPart : α → Part}
    {check? : Option α → Except SemanticError Unit} {a? : Option α}
    (first : ∀ a, a? = some a → Judged ⟨toPart a, before, around⟩ (check? a?))
    (none : check? none = .ok ())
    (others : IsFirst (Within around (before ++ a?.toList.map toPart) rest) w) :
    IsFirst (Within around before (a?.toList.map toPart ++ rest)) (check? a? >>= fun _ => w) := by
  cases a? with
  | none =>
    rw [none]
    exact (List.append_nil before ▸ others : IsFirst (Within around before rest) w)
  | some a => exact .cons (first a rfl) fun _ => others

/-- A site's own rules are checked, and then its parts. -/
theorem Judged.intro (own : ∀ e, s.Breaks e ↔ v = .error e)
    (others : IsFirst (Within (s.part :: s.around) [] s.part.parts) w) :
    Judged s (v >>= fun _ => w) := by
  cases v with
  | ok =>
    refine others.congr fun path e => ?_
    rw [breach_iff, own e]
    simp
  | error e =>
    refine ⟨[], breach_iff.mpr (.inl ⟨rfl, (own e).mpr rfl⟩), fun path' e' other => ?_⟩
    cases path' with
    | nil =>
      rcases breach_iff.mp other with ⟨-, broken⟩ | ⟨_, _, _, _, same, _⟩
      · exact .inr ⟨rfl, (Except.error.inj ((own e').mp broken)).symm⟩
      · cases same
    | cons i path' => exact .inl (List.nil_lt_cons i path')

/-- A site without rules of its own. -/
theorem Judged.of_parts (own : ∀ e, ¬ s.Breaks e)
    (others : IsFirst (Within (s.part :: s.around) [] s.part.parts) w) : Judged s w :=
  .intro (v := .ok ()) (fun e => by simp [own e]) others

/-- A site without parts. -/
theorem Judged.of_own (own : ∀ e, s.Breaks e ↔ v = .error e) (leaf : s.part.parts = []) :
    Judged s v := by
  have nothing : IsFirst (Within (s.part :: s.around) [] s.part.parts) (.ok ()) := by
    rw [leaf]
    exact isFirst_nil
  have alone := Judged.intro own nothing
  cases v <;> exact alone

end

end Lox
