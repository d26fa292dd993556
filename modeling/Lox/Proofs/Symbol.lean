import Mathlib.Data.List.Forall2
import Mathlib.Data.List.Nodup
import Mathlib.Data.Prod.Lex
import Mathlib.Data.String.Basic
import Mathlib.Logic.Function.Basic
import Lox.Symbol

/-!
Symbols as unique names.

Symbols are asked for by name, of any number of interners and in any order. A table never forgets a
name and never enters one twice, so that a symbol stays at its place and two symbols are the same
exactly if the same name of the same interner was asked for (`Interners.same_iff_of_knows`). Between
symbols of one interner the three notions in use come to one: identity, the text, which is what is
hashed, and the order (`Symbol.orderAt_eq_compare`).
-/

namespace Lox

/-! ### One interner -/

/-- The place of a symbol in the table holds its name. -/
structure Interner.Knows (t : Interner) (s : Symbol) : Prop where
  interner : s.interner = t.id
  name : t.names[s.index]? = some s.name

namespace Interner

variable {t t' : Interner} {a b : Symbol} {name : Name}

theorem name_intern (t : Interner) (name : Name) : (t.intern name).1.name = name := by
  unfold intern
  split <;> rfl

theorem id_intern (t : Interner) (name : Name) : (t.intern name).2.id = t.id := by
  unfold intern
  split <;> rfl

theorem prefix_intern (t : Interner) (name : Name) : t.names <+: (t.intern name).2.names := by
  unfold intern
  split
  · exact List.prefix_rfl
  · exact List.prefix_append _ _

theorem knows_intern (t : Interner) (name : Name) : (t.intern name).2.Knows (t.intern name).1 := by
  unfold intern
  split
  next index found =>
    obtain ⟨bound, here, -⟩ := List.idxOf?_eq_some_iff.mp found
    exact ⟨rfl, List.getElem?_eq_some_iff.mpr ⟨bound, here⟩⟩
  next => exact ⟨rfl, List.getElem?_concat_length⟩

theorem nodup_intern (once : t.names.Nodup) (name : Name) : (t.intern name).2.names.Nodup := by
  unfold intern
  split
  next => exact once
  next new =>
    have fresh : name ∉ t.names := List.idxOf?_eq_none_iff.mp new
    rw [← List.concat_eq_append]
    exact once.concat fresh

/-- What is in the table stays at its place. -/
theorem Knows.intern (h : t.Knows a) (name : Name) : (t.intern name).2.Knows a where
  interner := h.interner.trans (id_intern t name).symm
  name := by
    obtain ⟨bound, -⟩ := List.getElem?_eq_some_iff.mp h.name
    obtain ⟨new, grown⟩ := prefix_intern t name
    rw [← grown, List.getElem?_append_left bound, h.name]

/-- In a table that has each name once, symbols are told apart by their names. -/
theorem same_iff_of_knows (once : t.names.Nodup) (h : t.Knows a) (h' : t.Knows b) :
    a.same b = true ↔ a.name = b.name := by
  obtain ⟨bound, here⟩ := List.getElem?_eq_some_iff.mp h.name
  obtain ⟨bound', here'⟩ := List.getElem?_eq_some_iff.mp h'.name
  unfold Symbol.same
  rw [h.interner, h'.interner, beq_self_eq_true, Bool.true_and, beq_iff_eq, ← here, ← here']
  exact once.getElem_inj_iff.symm

end Interner

/-! ### Interners side by side -/

/-- A name that is asked for, and the interner it is asked of. -/
@[ext]
structure Request where
  interner : Nat
  name : Name
  deriving DecidableEq

/-- Interners in use together. -/
abbrev Interners := Nat → Interner

namespace Interners

/-- All interners before the first name is asked for. -/
def fresh : Interners := Interner.empty

/-- The symbol of a name of one of the interners. -/
def symbol (ts : Interners) (r : Request) : Symbol × Interners :=
  let (s, t) := (ts r.interner).intern r.name
  (s, Function.update ts r.interner t)

/-- The symbols of several names, asked for from left to right. -/
def symbols (ts : Interners) : List Request → List Symbol × Interners
  | [] => ([], ts)
  | r :: rest =>
    let (s, ts) := ts.symbol r
    let (others, ts) := ts.symbols rest
    (s :: others, ts)

/-- Interners are told apart by their numbers, and each has a name once. -/
structure Proper (ts : Interners) : Prop where
  id : ∀ i, (ts i).id = i
  once : ∀ i, (ts i).names.Nodup

/-- The interner of a symbol knows it. -/
def Knows (ts : Interners) (s : Symbol) : Prop := (ts s.interner).Knows s

/-- The symbol is an answer to the request. -/
structure Answers (r : Request) (s : Symbol) : Prop where
  interner : s.interner = r.interner
  name : s.name = r.name

variable {ts : Interners} {a b : Symbol} {r r' : Request}

theorem proper_fresh : fresh.Proper := ⟨fun _ => rfl, fun _ => List.nodup_nil⟩

theorem symbol_interner (ts : Interners) (r : Request) :
    (ts.symbol r).2 r.interner = ((ts r.interner).intern r.name).2 :=
  Function.update_self ..

theorem symbol_of_ne {i : Nat} (ne : i ≠ r.interner) : (ts.symbol r).2 i = ts i :=
  Function.update_of_ne ne ..

theorem Proper.symbol (h : ts.Proper) (r : Request) : (ts.symbol r).2.Proper where
  id i := by
    by_cases own : i = r.interner
    · rw [own, symbol_interner, Interner.id_intern, h.id]
    · rw [symbol_of_ne own, h.id]
  once i := by
    by_cases own : i = r.interner
    · rw [own, symbol_interner]
      exact Interner.nodup_intern (h.once _) r.name
    · rw [symbol_of_ne own]
      exact h.once i

theorem Knows.symbol (h : ts.Knows a) (r : Request) : (ts.symbol r).2.Knows a := by
  unfold Knows
  by_cases own : a.interner = r.interner
  · rw [own, symbol_interner, ← own]
    exact Interner.Knows.intern h r.name
  · rw [symbol_of_ne own]
    exact h

theorem answers_symbol (h : ts.Proper) (r : Request) : Answers r (ts.symbol r).1 where
  interner := (Interner.knows_intern _ r.name).interner.trans
    ((Interner.id_intern _ r.name).trans (h.id r.interner))
  name := Interner.name_intern _ r.name

theorem knows_symbol (h : ts.Proper) (r : Request) : (ts.symbol r).2.Knows (ts.symbol r).1 := by
  unfold Knows
  rw [(answers_symbol h r).interner, symbol_interner]
  exact Interner.knows_intern _ r.name

/-! ### Any number of requests -/

theorem Proper.symbols (h : ts.Proper) (requests : List Request) :
    (ts.symbols requests).2.Proper := by
  induction requests generalizing ts with
  | nil => exact h
  | cons r rest ih => exact ih (h.symbol r)

theorem Knows.symbols (h : ts.Knows a) (requests : List Request) :
    (ts.symbols requests).2.Knows a := by
  induction requests generalizing ts with
  | nil => exact h
  | cons r rest ih => exact ih (h.symbol r)

theorem map_name_symbols (ts : Interners) (requests : List Request) :
    (ts.symbols requests).1.map Symbol.name = requests.map Request.name := by
  induction requests generalizing ts with
  | nil => rfl
  | cons r rest ih => exact congrArg₂ List.cons (Interner.name_intern _ r.name) (ih _)

/-- What is asked of one interner only is interned there from left to right. -/
theorem symbols_of_one (ts : Interners) (i : Nat) (names : List Name) :
    (ts.symbols (names.map (Request.mk i))).1 = ((ts i).internAll names).1 := by
  induction names generalizing ts with
  | nil => rfl
  | cons name rest ih =>
    have others := ih (ts.symbol ⟨i, name⟩).2
    rw [symbol_interner ts ⟨i, name⟩] at others
    exact congrArg (List.cons _) others

theorem answers_symbols (h : ts.Proper) (requests : List Request) :
    List.Forall₂ Answers requests (ts.symbols requests).1 := by
  induction requests generalizing ts with
  | nil => exact .nil
  | cons r rest ih => exact .cons (answers_symbol h r) (ih (h.symbol r))

/-- Whatever is asked for later, the interners know every symbol they have given out. -/
theorem knows_of_mem_symbols (h : ts.Proper) {requests : List Request}
    (mem : a ∈ (ts.symbols requests).1) : (ts.symbols requests).2.Knows a := by
  induction requests generalizing ts with
  | nil => cases mem
  | cons r rest ih =>
    rcases List.mem_cons.mp mem with rfl | mem
    · exact (knows_symbol h r).symbols rest
    · exact ih (h.symbol r) mem

/-- Symbols are the same if they have the same interner and the same name. -/
theorem same_iff_of_knows (proper : ts.Proper) (h : ts.Knows a) (h' : ts.Knows b) :
    a.same b = true ↔ a.interner = b.interner ∧ a.name = b.name := by
  by_cases own : a.interner = b.interner
  · rw [Knows, ← own] at h'
    rw [Interner.same_iff_of_knows (proper.once _) h h', and_iff_right own]
  · simp [Symbol.same, own]

end Interners

/-! ### The order -/

namespace Symbol

/-- The order of symbols whose names lie at the given addresses, one for each place in each table:
by name, and by address if the names are equal. -/
def orderAt {A : Type} [Ord A] (address : Nat → Nat → A) (a b : Symbol) : Ordering :=
  (compare a.name b.name).then
    (compare (address a.interner a.index) (address b.interner b.index))

/-- The places of the tables serve as addresses. -/
theorem order_eq_orderAt : order = orderAt fun interner index => toLex (interner, index) := rfl

/-- The code points of a name. -/
def codePoints (name : Name) : List Nat := name.toList.map Char.toNat

theorem map_toNat_lt_iff {cs ds : List Char} :
    cs.map Char.toNat < ds.map Char.toNat ↔ cs < ds := by
  induction cs generalizing ds with
  | nil => cases ds <;> simp
  | cons c cs ih =>
    cases ds with
    | nil => simp
    | cons d ds =>
      have first : c.toNat < d.toNat ↔ c < d := Iff.rfl
      have alike : c.toNat = d.toNat ↔ c = d := Char.toNat_inj
      rw [List.map_cons, List.map_cons, List.cons_lt_cons_iff, List.cons_lt_cons_iff, first, alike,
        ih]

theorem codePoints_lt_iff {n m : Name} : codePoints n < codePoints m ↔ n < m :=
  map_toNat_lt_iff.trans String.lt_iff_toList_lt.symm

/-- A comparison orders the symbols totally, by the code points of their names, and takes only those
for equal that are the same. -/
structure IsOrder (symbols : List Symbol) (cmp : Symbol → Symbol → Ordering) : Prop where
  swap : ∀ a b, cmp a b = (cmp b a).swap
  trans : ∀ a b c, (cmp a b).isLE = true → (cmp b c).isLE = true → (cmp a c).isLE = true
  text : ∀ a b, codePoints a.name < codePoints b.name → cmp a b = .lt
  eq_iff : ∀ a ∈ symbols, ∀ b ∈ symbols, cmp a b = .eq ↔ a.same b = true

section

variable {A : Type} [LinearOrder A] {address : Nat → Nat → A} {a b c : Symbol}

instance transCmp_orderAt : Std.TransCmp (orderAt address) :=
  inferInstanceAs (Std.TransCmp
    (compareLex (compareOn name) (compareOn fun s : Symbol => address s.interner s.index)))

theorem same_iff : a.same b = true ↔ a.interner = b.interner ∧ a.index = b.index := by
  rw [same, Bool.and_eq_true, beq_iff_eq, beq_iff_eq]

/-- Distinct places have distinct addresses, so that only the same symbol has the same address. -/
theorem orderAt_eq_eq_iff (distinct : Function.Injective2 address) :
    orderAt address a b = .eq ↔ a.name = b.name ∧ a.same b = true := by
  have place : address a.interner a.index = address b.interner b.index ↔ a.same b = true :=
    distinct.eq_iff.trans same_iff.symm
  rw [orderAt, Ordering.then_eq_eq, compare_eq_iff_eq, Std.compare_eq_iff_eq, place]

theorem orderAt_of_text (less : codePoints a.name < codePoints b.name) :
    orderAt address a b = .lt := by
  have names : compare a.name b.name = .lt := compare_lt_iff_lt.mpr (codePoints_lt_iff.mp less)
  rw [orderAt, names]
  rfl

/-- Between symbols that are the same if their names are equal, the order is that of the names. -/
theorem orderAt_eq_compare (unique : a.name = b.name → a.same b = true) :
    orderAt address a b = compare a.name b.name := by
  rw [orderAt]
  cases names : compare a.name b.name with
  | eq =>
    obtain ⟨own, place⟩ := same_iff.mp (unique (Std.compare_eq_iff_eq.mp names))
    rw [own, place, Std.compare_self]
    rfl
  | _ => rfl

end

end Symbol

theorem Interners.isOrder_orderAt {A : Type} [LinearOrder A] {address : Nat → Nat → A}
    (distinct : Function.Injective2 address) {ts : Interners} (proper : ts.Proper)
    {symbols : List Symbol} (known : ∀ s ∈ symbols, ts.Knows s) :
    Symbol.IsOrder symbols (Symbol.orderAt address) where
  swap _ _ := Std.OrientedCmp.eq_swap
  trans _ _ _ := Std.TransCmp.isLE_trans
  text _ _ := Symbol.orderAt_of_text
  eq_iff a mem b mem' := by
    rw [Symbol.orderAt_eq_eq_iff distinct]
    refine and_iff_right_of_imp fun same => ?_
    exact ((same_iff_of_knows proper (known a mem) (known b mem')).mp same).2

end Lox
