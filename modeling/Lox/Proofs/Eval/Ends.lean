import Lox.Proofs.Eval.Ensures
import Lox.Proofs.Eval.Fuel

/-!
How a computation ends, whatever the fuel.

A computation ends with a result if it does so for some fuel (`Run.Ends`). More fuel changes nothing
(`Run.Grows`), so that the end of a composed computation is put together from the ends of its parts
(`Run.ends_bind`), each with fuel of its own.
-/

namespace Lox.Run

variable {α β : Type} {s : Store}

/-- For some fuel the computation ends with the result. -/
def Ends (x : Nat → Run α) (s : Store) (r : Outcome RuntimeError Store α) : Prop :=
  r ≠ .outOfFuel ∧ ∃ fuel, x fuel s = r

/-- With more fuel the computation ends in the same way. -/
def Grows (x : Nat → Run α) : Prop := ∀ n m, n ≤ m → Extends (x n) (x m)

section

variable {x y : Nat → Run α} {f : Nat → α → Run β} {r : Outcome RuntimeError Store α}

theorem Grows.eq_of_le (grows : Grows x) {n m : Nat} (le : n ≤ m) {r : Outcome RuntimeError Store α}
    (ends : r ≠ .outOfFuel) (result : x n s = r) : x m s = r := by
  subst result
  exact grows n m le s ends

theorem grows_const (x : Run α) : Grows fun _ => x := fun _ _ _ => .refl x

theorem ends_succeed (a : α) : Ends (fun _ => succeed a) s r ↔ r = .ok a s := by
  constructor
  · rintro ⟨-, _, rfl⟩
    rfl
  · rintro rfl
    exact ⟨nofun, 0, rfl⟩

/-- Computations that catch up with each other end in the same way. -/
theorem ends_congr (ahead : ∀ n, Extends (x n) (y n)) (behind : ∀ n, Extends (y n) (x (n + 1))) :
    Ends x s r ↔ Ends y s r := by
  constructor
  · rintro ⟨ends, n, rfl⟩
    exact ⟨ends, n, ahead n s ends⟩
  · rintro ⟨ends, n, rfl⟩
    exact ⟨ends, n + 1, behind n s ends⟩

/-- One more unit of fuel makes no difference. -/
theorem Grows.ends_succ (grows : Grows x) : Ends (fun n => x (n + 1)) s r ↔ Ends x s r :=
  (ends_congr (fun n => grows n (n + 1) (Nat.le_succ n)) fun _ => .refl _).symm

/-- A composed computation ends with the error of its first part, or as its second part does. -/
theorem ends_bind (first : Grows x) (next : ∀ a, Grows fun n => f n a)
    {r : Outcome RuntimeError Store β} :
    Ends (fun n => x n >>= f n) s r ↔
      (∃ e s', Ends x s (.error e s') ∧ r = .error e s') ∨
        ∃ a s', Ends x s (.ok a s') ∧ Ends (fun n => f n a) s' r := by
  constructor
  · rintro ⟨ends, n, same⟩
    change andThen (x n) (f n) s = r at same
    unfold andThen at same
    cases result : x n s with
    | ok a s' =>
      rw [result] at same
      exact .inr ⟨a, s', ⟨nofun, n, result⟩, ends, n, same⟩
    | error e s' =>
      rw [result] at same
      exact .inl ⟨e, s', ⟨nofun, n, result⟩, same.symm⟩
    | outOfFuel =>
      rw [result] at same
      exact absurd same.symm ends
  · rintro (⟨e, s', ⟨-, n, result⟩, rfl⟩ | ⟨a, s', ⟨-, n, result⟩, ends, m, same⟩)
    · refine ⟨nofun, n, ?_⟩
      change andThen (x n) (f n) s = _
      rw [andThen, result]
    · have later : x (max n m) s = .ok a s' :=
        first.eq_of_le (Nat.le_max_left n m) nofun result
      refine ⟨ends, max n m, ?_⟩
      change andThen (x (max n m)) (f (max n m)) s = r
      rw [andThen, later]
      exact (next a).eq_of_le (Nat.le_max_right n m) ends same

theorem grows_bind (first : Grows x) (next : ∀ a, Grows fun n => f n a) :
    Grows fun n => x n >>= f n :=
  fun n m le => extends_bind (first n m le) fun a => next a n m le

/-- The store that the computation leaves, if it ends, has the property. -/
def Leaves (P : Store → Prop) : Outcome RuntimeError Store α → Prop
  | .ok _ s => P s
  | .error _ s => P s
  | .outOfFuel => True

theorem Ends.leaves {P : Store → Prop} (ends : Ends x s r)
    (h : ∀ n, Ensures s (x n) (fun _ s' => P s') (fun _ s' => P s')) : Leaves P r := by
  obtain ⟨-, n, result⟩ := ends
  cases r with
  | ok a s' => exact (h n).of_ok result
  | error e s' => exact (h n).of_error result
  | outOfFuel => trivial

end

/-! ### The evaluator -/

theorem grows_evalExpr (host : Host) (scope : Scope) (e : Expr) :
    Grows (evalExpr host · scope e) :=
  fun _ _ le => (evalGrows host le).expr scope e

theorem grows_exec (host : Host) (scope : Scope) (stmt : Stmt) : Grows (exec host · scope stmt) :=
  fun _ _ le => (evalGrows host le).exec scope stmt

theorem grows_statements (host : Host) (scope : Scope) (stmts : List Stmt) :
    Grows fun n => statements (exec host n scope) stmts :=
  fun _ _ le => extends_statements ((evalGrows host le).exec scope) stmts

end Lox.Run
