import Lox.Proofs.Rules.Site
import Lox.Value

/-!
Methods, in the text of a program and in classes.

A part of a program stands in a method of a class (`Part.InMethod`) if the class is the innermost one
around it. The method that a class has under a name is the last definition in the nearest class that
has one (`Class.method?_eq_some`), and the class takes as many arguments as its initializer
(`Class.length_of_accepts`).
-/

namespace Lox

/-! ### Parts of methods -/

theorem Site.at?_append {s t u : Site} {path : List Nat} {i : Nat} (found : s.at? path = some t)
    (inner : t.inner? i = some u) : s.at? (path ++ [i]) = some u := by
  induction path generalizing s with
  | nil =>
    cases found
    rw [List.nil_append, at?, inner]
    rfl
  | cons j path ih =>
    obtain ⟨r, first, rest⟩ := Option.bind_eq_some_iff.mp found
    rw [List.cons_append, at?, first]
    exact ih rest

/-- The part stands in the method, and no other class than the given one is between them. -/
def Part.InMethod (decl : ClassDecl) (m : FunctionDecl) (p : Part) : Prop :=
  m ∈ decl.methods ∧ ∃ path site, Site.at? ⟨.method m, [], [.cls decl]⟩ path = some site ∧
    site.part = p ∧ innermostClass? site.around = some decl

namespace Part

variable {decl : ClassDecl} {m : FunctionDecl}

theorem InMethod.whole (mem : m ∈ decl.methods) : InMethod decl m (.method m) :=
  ⟨mem, [], _, rfl, rfl, rfl⟩

/-- What stands directly in a part of a method stands in the method, unless the part is a class. -/
theorem InMethod.inner {p q : Part} (h : InMethod decl m p) (notClass : p.cls? = none)
    (mem : q ∈ p.parts) : InMethod decl m q := by
  obtain ⟨method, path, site, found, rfl, innermost⟩ := h
  obtain ⟨i, inside⟩ := List.mem_iff_getElem?.mp mem
  refine ⟨method, path ++ [i], ⟨q, site.part.parts.take i, site.part :: site.around⟩, ?_, rfl, ?_⟩
  · apply Site.at?_append found
    rw [Site.inner?, inside]
    rfl
  · unfold innermostClass? at innermost ⊢
    rw [List.findSome?_cons, notClass]
    exact innermost

end Part

/-! ### Methods of classes -/

/-- The method is the last one that the declaration defines under the name. -/
def ClassBody.Defines (body : ClassBody) (name : Name) (m : Closure) : Prop :=
  m.decl.name = name ∧
    ∃ earlier later, body.methods = earlier ++ m :: later ∧ ∀ m' ∈ later, m'.decl.name ≠ name

/-- The declaration defines nothing under the name. -/
def ClassBody.Lacks (body : ClassBody) (name : Name) : Prop :=
  ∀ m ∈ body.methods, m.decl.name ≠ name

theorem ClassBody.method?_eq_some {body : ClassBody} {name : Name} {m : Closure} :
    body.method? name = some m ↔ body.Defines name m := by
  unfold ClassBody.method?
  rw [List.getLast?_eq_head?_reverse, ← List.filter_reverse, List.head?_filter,
    List.find?_eq_some_iff_append, decide_eq_true_iff]
  refine and_congr_right fun _ => ⟨?_, ?_⟩
  · rintro ⟨later, earlier, split, others⟩
    refine ⟨earlier.reverse, later.reverse, ?_, ?_⟩
    · rw [← List.reverse_reverse body.methods, split]
      simp
    · intro m' mem
      simpa using others m' (List.mem_reverse.mp mem)
  · rintro ⟨earlier, later, split, others⟩
    refine ⟨later.reverse, earlier.reverse, ?_, ?_⟩
    · rw [split]
      simp
    · intro m' mem
      simpa using others m' (List.mem_reverse.mp mem)

theorem ClassBody.method?_eq_none {body : ClassBody} {name : Name} :
    body.method? name = none ↔ body.Lacks name := by
  unfold ClassBody.method? ClassBody.Lacks
  rw [List.getLast?_eq_none_iff, List.filter_eq_nil_iff]
  simp only [decide_eq_true_iff]

/-- Of the classes from the first one upwards, the second one is the nearest to define the name, and
the method is its definition. -/
structure Class.Nearest (c : Class) (name : Name) (d : Class) (m : Closure) : Prop where
  above : ∃ below, c.lineage = below ++ d.lineage ∧ ∀ body ∈ below, body.Lacks name
  defines : d.body.Defines name m

theorem Class.method?_eq_some {c : Class} {name : Name} {m : Closure} :
    c.method? name = some m ↔ ∃ d, c.Nearest name d m := by
  unfold Class.method?
  rw [List.findSome?_eq_some_iff]
  constructor
  · rintro ⟨below, body, ancestors, split, found, others⟩
    exact ⟨⟨body, ancestors⟩, ⟨below, split, fun b mem => ClassBody.method?_eq_none.mp (others b mem)⟩,
      ClassBody.method?_eq_some.mp found⟩
  · rintro ⟨d, ⟨below, split, others⟩, defines⟩
    exact ⟨below, d.body, d.ancestors, split, ClassBody.method?_eq_some.mpr defines,
      fun b mem => ClassBody.method?_eq_none.mpr (others b mem)⟩

theorem Class.method?_eq_none {c : Class} {name : Name} :
    c.method? name = none ↔ ∀ body ∈ c.lineage, body.Lacks name := by
  unfold Class.method?
  rw [List.findSome?_eq_none_iff]
  exact forall₂_congr fun _ _ => ClassBody.method?_eq_none

namespace Class.Nearest

variable {c d : Class} {name : Name} {m : Closure}

theorem suffix (h : c.Nearest name d m) : d.lineage <:+ c.lineage := by
  obtain ⟨below, split, -⟩ := h.above
  rw [split]
  exact List.suffix_append below _

theorem mem (h : c.Nearest name d m) : m ∈ d.body.methods := by
  obtain ⟨-, earlier, later, split, -⟩ := h.defines
  rw [split]
  exact List.mem_append_right _ List.mem_cons_self

end Class.Nearest

/-! ### Numbers of arguments -/

/-- A function takes as many arguments as it has parameters. -/
theorem Closure.accepts_iff {f : Closure} {n : Nat} :
    f.arity.accepts n = true ↔ n = f.decl.params.length :=
  beq_iff_eq

/-- How many arguments a class takes: as many as the nearest initializer has parameters, and none if
there is no initializer. -/
theorem Class.length_of_accepts {c : Class} {n : Nat}
    (accepted : (c.arity initializerName).accepts n = true) :
    (∀ d m, c.Nearest initializerName d m → n = m.decl.params.length) ∧
      ((∀ body ∈ c.lineage, body.Lacks initializerName) → n = 0) := by
  unfold Class.arity at accepted
  constructor
  · intro d m nearest
    rw [Class.method?_eq_some.mpr ⟨d, nearest⟩] at accepted
    exact Closure.accepts_iff.mp accepted
  · intro lacks
    rw [Class.method?_eq_none.mpr lacks] at accepted
    exact beq_iff_eq.mp accepted

end Lox
