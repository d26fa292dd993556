import Mathlib.Data.List.Find
import Mathlib.Data.Nat.Pairing
import Lox.Bindings
import Lox.Proofs.Symbol

/-!
Maps from symbols.

A hash map puts its entries in buckets, by the hash of a key's text, and looks through one bucket
for the key itself. A search tree goes from key to key by comparing. Both can be asked with a symbol
or with its text, and the two questions are put in different ways. If the keys come from one
interner, the answers are the same, and they are what bindings of the names, or the methods of a
class, would answer. The main statement is `symbols_unique`.
-/

namespace Lox

/-- Symbols that are told apart by their names. -/
def Symbol.Unique (keys : Symbol → Prop) : Prop :=
  ∀ a b, keys a → keys b → (a.same b = true ↔ a.name = b.name)

/-! ### Named values -/

section

variable {V : Type}

/-- The value of the last entry of a name. -/
def lastValue? (entries : List (Name × V)) (name : Name) : Option V :=
  (entries.reverse.find? fun e => e.1 = name).map Prod.snd

theorem lastValue?_cons (e : Name × V) (rest : List (Name × V)) (name : Name) :
    lastValue? (e :: rest) name =
      (lastValue? rest name).or (if e.1 = name then some e.2 else none) := by
  unfold lastValue?
  rw [List.reverse_cons, List.find?_append, Option.map_or]
  by_cases own : e.1 = name <;> simp [own]

end

theorem Bindings.foldl_insert_get? (entries : List (Name × Value)) (b : Bindings) (name : Name) :
    (entries.foldl (fun b e => insert e.1 e.2 b) b).get? name =
      (lastValue? entries name).or (b.get? name) := by
  induction entries generalizing b with
  | nil => rfl
  | cons e rest ih =>
    rw [List.foldl_cons, ih, lastValue?_cons, Option.or_assoc]
    by_cases own : e.1 = name
    · rw [if_pos own, ← own, get?_insert_self, Option.some_or]
    · rw [if_neg own, get?_insert_of_ne (Ne.symm own), Option.none_or]

theorem Bindings.get?_ofList (entries : List (Name × Value)) (name : Name) :
    (ofList entries).get? name = lastValue? entries name :=
  (foldl_insert_get? entries [] name).trans Option.or_none

theorem ClassBody.method?_eq_lastValue? (body : ClassBody) (name : Name) :
    body.method? name = lastValue? (body.methods.map fun m => (m.decl.name, m)) name := by
  unfold method? lastValue?
  rw [List.getLast?_eq_head?_reverse, ← List.filter_reverse, List.head?_filter, ← List.map_reverse,
    List.find?_map, Option.map_map]
  exact Option.map_id'.symm

/-! ### Hash maps -/

/-- The entries of a hash map, by the hash of their keys. -/
abbrev Buckets (V : Type) := Nat → List (Symbol × V)

namespace Buckets

variable {V : Type}

/-- The entry of a symbol. -/
def ofSymbol? (hash : Name → Nat) (m : Buckets V) (key : Symbol) : Option (Symbol × V) :=
  (m (hash key.name)).find? fun e => e.1.same key

/-- The entry of a text. -/
def ofText? (hash : Name → Nat) (m : Buckets V) (text : Name) : Option (Symbol × V) :=
  (m (hash text)).find? fun e => e.1.name = text

/-- Enter a value in a bucket, in place of an earlier one if there is one. -/
def put (key : Symbol) (value : V) : List (Symbol × V) → List (Symbol × V)
  | [] => [(key, value)]
  | e :: rest => if e.1.same key then (e.1, value) :: rest else e :: put key value rest

/-- Enter a value in a map. -/
def insert (hash : Name → Nat) (key : Symbol) (value : V) (m : Buckets V) : Buckets V :=
  Function.update m (hash key.name) (put key value (m (hash key.name)))

/-- The map of several entries, of which the last one of a key counts. -/
def ofList (hash : Name → Nat) (entries : List (Symbol × V)) : Buckets V :=
  entries.foldl (fun m e => insert hash e.1 e.2 m) fun _ => []

/-- All keys are among the given ones. -/
def Keyed (keys : Symbol → Prop) (m : Buckets V) : Prop := ∀ n, ∀ e ∈ m n, keys e.1

variable {keys : Symbol → Prop} {hash : Name → Nat} {m : Buckets V} {key : Symbol} {value : V}
  {text : Name} {bucket : List (Symbol × V)}

theorem ofSymbol?_eq_ofText? (unique : Symbol.Unique keys) (keyed : m.Keyed keys) (mem : keys key) :
    m.ofSymbol? hash key = m.ofText? hash key.name := by
  unfold ofSymbol? ofText?
  apply List.find?_congr
  intro e inside
  rw [Bool.eq_iff_iff, decide_eq_true_iff]
  exact unique e.1 key (keyed _ e inside) mem

theorem keyed_put (each : ∀ e ∈ bucket, keys e.1) (mem : keys key) :
    ∀ e ∈ put key value bucket, keys e.1 := by
  induction bucket with
  | nil => simpa [put] using mem
  | cons e rest ih =>
    obtain ⟨first, others⟩ := List.forall_mem_cons.mp each
    unfold put
    split
    · exact List.forall_mem_cons.mpr ⟨first, others⟩
    · exact List.forall_mem_cons.mpr ⟨first, ih others⟩

theorem Keyed.insert (keyed : m.Keyed keys) (mem : keys key) (hash : Name → Nat) (value : V) :
    (m.insert hash key value).Keyed keys := by
  intro n
  unfold Buckets.insert
  by_cases own : n = hash key.name
  · rw [own, Function.update_self]
    exact keyed_put (keyed _) mem
  · rw [Function.update_of_ne own]
    exact keyed n

/-- In a bucket with keys told apart by their names, a value is entered under a name. -/
theorem find?_put (unique : Symbol.Unique keys) (each : ∀ e ∈ bucket, keys e.1) (mem : keys key) :
    ((put key value bucket).find? fun e => e.1.name = text).map Prod.snd =
      if key.name = text then some value
      else (bucket.find? fun e => e.1.name = text).map Prod.snd := by
  induction bucket with
  | nil => by_cases own : key.name = text <;> simp [put, own]
  | cons e rest ih =>
    obtain ⟨first, others⟩ := List.forall_mem_cons.mp each
    have same := unique e.1 key first mem
    unfold put
    by_cases found : e.1.name = key.name
    · rw [if_pos (same.mpr found)]
      by_cases own : key.name = text <;> simp [found, own]
    · rw [if_neg (same.not.mpr found)]
      by_cases here : e.1.name = text
      · have other : key.name ≠ text := fun own => found (here.trans own.symm)
        simp [here, other]
      · simp [here, ih others]

theorem ofText?_insert (unique : Symbol.Unique keys) (keyed : m.Keyed keys) (mem : keys key) :
    ((m.insert hash key value).ofText? hash text).map Prod.snd =
      if key.name = text then some value else (m.ofText? hash text).map Prod.snd := by
  unfold ofText? insert
  by_cases bucket : hash text = hash key.name
  · rw [bucket, Function.update_self]
    exact find?_put unique (keyed _) mem
  · have other : key.name ≠ text := fun own => bucket (congrArg hash own.symm)
    rw [Function.update_of_ne bucket, if_neg other]

theorem foldl_insert (unique : Symbol.Unique keys) {entries : List (Symbol × V)}
    (each : ∀ e ∈ entries, keys e.1) (keyed : m.Keyed keys) (hash : Name → Nat) :
    (entries.foldl (fun m e => insert hash e.1 e.2 m) m).Keyed keys ∧
      ∀ text,
        ((entries.foldl (fun m e => insert hash e.1 e.2 m) m).ofText? hash text).map Prod.snd =
        (lastValue? (entries.map fun e => (e.1.name, e.2)) text).or
          ((m.ofText? hash text).map Prod.snd) := by
  -- What the map holds so far counts only where no entry is still to come.
  induction entries generalizing m with
  | nil => exact ⟨keyed, fun _ => rfl⟩
  | cons e rest ih =>
    obtain ⟨first, others⟩ := List.forall_mem_cons.mp each
    obtain ⟨keyed', values⟩ := ih others (keyed.insert first hash e.2)
    refine ⟨keyed', fun text => ?_⟩
    rw [List.foldl_cons, values, ofText?_insert unique keyed first, List.map_cons,
      lastValue?_cons, Option.or_assoc]
    by_cases own : e.1.name = text <;> simp [own]

theorem keyed_empty : Keyed keys (fun _ => [] : Buckets V) := by
  intro n e mem
  cases mem

theorem keyed_ofList (unique : Symbol.Unique keys) {entries : List (Symbol × V)}
    (each : ∀ e ∈ entries, keys e.1) (hash : Name → Nat) : (ofList hash entries).Keyed keys :=
  (foldl_insert unique each keyed_empty hash).1

/-- A map has under a text the value that was entered last under it. -/
theorem ofText?_ofList (unique : Symbol.Unique keys) {entries : List (Symbol × V)}
    (each : ∀ e ∈ entries, keys e.1) (hash : Name → Nat) (text : Name) :
    ((ofList hash entries).ofText? hash text).map Prod.snd =
      lastValue? (entries.map fun e => (e.1.name, e.2)) text :=
  ((foldl_insert unique each keyed_empty hash).2 text).trans Option.or_none

end Buckets

/-! ### Search trees -/

/-- A tree of entries that is searched by comparing with the keys. -/
inductive SearchTree (V : Type) where
  | leaf
  | node (left : SearchTree V) (key : Symbol) (value : V) (right : SearchTree V)

namespace SearchTree

variable {V : Type}

/-- The entry at which a search ends, told by what is sought whether it is at a key or on which side
of it. -/
def search (sought : Symbol → Ordering) : SearchTree V → Option (Symbol × V)
  | leaf => none
  | node left key value right =>
    match sought key with
    | .lt => left.search sought
    | .eq => some (key, value)
    | .gt => right.search sought

/-- All keys are among the given ones. -/
def Keyed (keys : Symbol → Prop) : SearchTree V → Prop
  | leaf => True
  | node left key _ right => left.Keyed keys ∧ keys key ∧ right.Keyed keys

/-- A search ends where another one does that finds the same at every key. -/
theorem search_congr {keys : Symbol → Prop} {sought sought' : Symbol → Ordering}
    (alike : ∀ key, keys key → sought key = sought' key) :
    ∀ {t : SearchTree V}, t.Keyed keys → t.search sought = t.search sought'
  | leaf, _ => rfl
  | node left key value right, ⟨before, here, behind⟩ => by
    rw [search, search, alike key here, search_congr alike before, search_congr alike behind]

end SearchTree

/-! ### Any number of interners -/

namespace Symbol

/-- Maps whose keys are among the given symbols have one answer for a symbol and for its text, be
they hash maps or trees that are searched with the comparison. So the frames, which are asked with
symbols, and the fields and methods, which are asked with texts, answer as bindings of the names and
as the methods in the order of their declaration do. -/
structure MapsAgree (keys : Symbol → Prop) (cmp : Symbol → Symbol → Ordering) : Prop where
  hashed : ∀ {V : Type} (hash : Name → Nat) (m : Buckets V), m.Keyed keys →
    ∀ key, keys key → m.ofSymbol? hash key = m.ofText? hash key.name
  searched : ∀ {V : Type} (t : SearchTree V), t.Keyed keys →
    ∀ key, keys key → t.search (cmp key) = t.search fun k => compare key.name k.name
  frames : ∀ (hash : Name → Nat) (entries : List (Symbol × Value)), (∀ e ∈ entries, keys e.1) →
    ∀ key, keys key → ((Buckets.ofList hash entries).ofSymbol? hash key).map Prod.snd =
      (Bindings.ofList (entries.map fun e => (e.1.name, e.2))).get? key.name
  fields : ∀ (hash : Name → Nat) (entries : List (Symbol × Value)), (∀ e ∈ entries, keys e.1) →
    ∀ text, ((Buckets.ofList hash entries).ofText? hash text).map Prod.snd =
      (Bindings.ofList (entries.map fun e => (e.1.name, e.2))).get? text
  methods : ∀ (hash : Name → Nat) (body : ClassBody) (entries : List (Symbol × Closure)),
    (∀ e ∈ entries, keys e.1) →
    (entries.map fun e => (e.1.name, e.2)) = body.methods.map (fun m => (m.decl.name, m)) →
    ∀ text, ((Buckets.ofList hash entries).ofText? hash text).map Prod.snd = body.method? text

theorem Unique.mapsAgree {keys : Symbol → Prop} (unique : Unique keys) {A : Type} [LinearOrder A]
    (address : Nat → Nat → A) : MapsAgree keys (orderAt address) where
  hashed _ _ keyed _ mem := Buckets.ofSymbol?_eq_ofText? unique keyed mem
  searched _ keyed key mem := SearchTree.search_congr
    (fun k mem' => orderAt_eq_compare (unique key k mem mem').mpr) keyed
  frames hash _ each key mem := by
    have keyed := Buckets.keyed_ofList unique each hash
    rw [Buckets.ofSymbol?_eq_ofText? unique keyed mem, Buckets.ofText?_ofList unique each,
      Bindings.get?_ofList]
  fields hash _ each text := by
    rw [Buckets.ofText?_ofList unique each, Bindings.get?_ofList]
  methods hash body _ each declared text := by
    rw [Buckets.ofText?_ofList unique each, declared, ClassBody.method?_eq_lastValue?]

end Symbol

/-- Symbols that an interner has given out are told apart by their names. -/
theorem Interners.unique_of_knows {ts : Interners} (proper : ts.Proper) {symbols : List Symbol}
    (known : ∀ s ∈ symbols, ts.Knows s) (i : Nat) :
    Symbol.Unique fun s => s ∈ symbols ∧ s.interner = i := by
  rintro a b ⟨mem, own⟩ ⟨mem', own'⟩
  rw [same_iff_of_knows proper (known a mem) (known b mem')]
  exact and_iff_right (own.trans own'.symm)

/-- Ask any number of interners for names, in any order, and let distinct places in their tables
have distinct addresses. Each symbol has the name it was asked for. Two symbols are the same if the
same name of the same interner was asked for. The order of names and addresses, or of names and
places, is a total order that takes only the same symbols for equal. In a map with keys from one
interner, symbols and their texts are looked up to the same effect. -/
theorem symbols_unique (requests : List Request) {A : Type} [LinearOrder A]
    {address : Nat → Nat → A} (distinct : Function.Injective2 address) :
    let symbols := (Interners.fresh.symbols requests).1
    symbols.map Symbol.name = requests.map Request.name ∧
      (∀ r a r' b, (r, a) ∈ requests.zip symbols → (r', b) ∈ requests.zip symbols →
        (a.same b = true ↔ r = r')) ∧
      ∀ cmp, cmp = Symbol.orderAt address ∨ cmp = Symbol.order →
        Symbol.IsOrder symbols cmp ∧
          ∀ i, Symbol.MapsAgree (fun s => s ∈ symbols ∧ s.interner = i) cmp := by
  intro symbols
  have proper := Interners.proper_fresh.symbols requests
  have known : ∀ s ∈ symbols, (Interners.fresh.symbols requests).2.Knows s := fun _ mem =>
    Interners.knows_of_mem_symbols Interners.proper_fresh mem
  refine ⟨Interners.map_name_symbols _ requests, ?_, ?_⟩
  · intro r a r' b pair pair'
    have answers := Interners.answers_symbols Interners.proper_fresh requests
    have first := (List.forall₂_iff_zip.mp answers).2 pair
    have second := (List.forall₂_iff_zip.mp answers).2 pair'
    rw [Interners.same_iff_of_knows proper (known a (List.of_mem_zip pair).2)
      (known b (List.of_mem_zip pair').2), first.interner, first.name, second.interner,
      second.name, Request.ext_iff]
  · rintro cmp (rfl | rfl)
    · exact ⟨Interners.isOrder_orderAt distinct proper known, fun i =>
        (Interners.unique_of_knows proper known i).mapsAgree address⟩
    · rw [Symbol.order_eq_orderAt]
      have places : Function.Injective2 fun i j : Nat => toLex (i, j) := by
        intro i i' j j' same
        cases same
        exact ⟨rfl, rfl⟩
      exact ⟨Interners.isOrder_orderAt places proper known, fun i =>
        (Interners.unique_of_knows proper known i).mapsAgree _⟩

/-- One name is asked of two interners, and then again of the first one. -/
theorem symbols_unique_interleaved :
    let requests : List Request := [⟨0, "a"⟩, ⟨1, "a"⟩, ⟨0, "b"⟩, ⟨0, "a"⟩]
    let symbols : List Symbol := [⟨0, 0, "a"⟩, ⟨1, 0, "a"⟩, ⟨0, 1, "b"⟩, ⟨0, 0, "a"⟩]
    Function.Injective2 Nat.pair ∧ (Interners.fresh.symbols requests).1 = symbols ∧
      Symbol.same ⟨0, 0, "a"⟩ ⟨1, 0, "a"⟩ = false ∧
      Symbol.IsOrder symbols (Symbol.orderAt Nat.pair) := by
  intro requests symbols
  have distinct : Function.Injective2 Nat.pair := fun _ _ _ _ => Nat.pair_eq_pair.mp
  obtain ⟨-, same, orders⟩ := symbols_unique requests distinct
  have apart := same ⟨0, "a"⟩ ⟨0, 0, "a"⟩ ⟨1, "a"⟩ ⟨1, 0, "a"⟩ (.head _) (.tail _ (.head _))
  refine ⟨distinct, rfl, ?_, (orders _ (.inl rfl)).1⟩
  rw [Bool.eq_false_iff, ne_eq, apart]
  decide

end Lox
