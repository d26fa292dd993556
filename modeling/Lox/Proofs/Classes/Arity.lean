import Lox.Proofs.Classes.Bound

/-!
Numbers of arguments.

A call with a number of arguments that the callee does not take fails, and nothing has come of it but
what the callee and the arguments did (`call_eq_error`). So no body ever runs on the wrong number of
arguments: the frame of a call binds exactly the parameters, each to the argument in its place, and
the builtins fail for no other reason than an argument that is not a number. The main statement,
`calls_fit`, is about every moment of a session.
-/

namespace Lox

open Run

/-! ### Callable values -/

/-- The name that a message gives to a callable value, and how many arguments the value takes. -/
def Value.signature? : Value → Option (String × Arity)
  | .function _ f => some (f.decl.name, f.arity)
  | .native f => some (f.name, f.arity)
  | .cls c => some (c.name, c.arity initializerName)
  | _ => none

/-- A call on the wrong number of arguments fails and leaves the store as it was. -/
theorem call_eq_error {callee : Value} {args : List Value} {name : String} {arity : Arity}
    (callable : callee.signature? = some (name, arity))
    (refused : arity.accepts args.length = false) (host : Host) (fuel : Nat) (s : Store) :
    Lox.call host (fuel + 1) callee args s = .error (.arity name arity args.length) s := by
  have failed : ∀ {α : Type} (next : Unit → Run α),
      (checkArity name arity args >>= next) s = .error (.arity name arity args.length) s := by
    intro α next
    change andThen (checkArity name arity args) next s = _
    unfold andThen
    rw [checkArity_eq, refused]
    rfl
  cases callee with
  | function | native | cls =>
    cases callable
    rw [Lox.call]
    exact failed _
  | _ => cases callable

theorem length_of_values {eval : Expr → Run Value} {es : List Expr} {vs : List Value} {s t : Store}
    (result : values eval es s = .ok vs t) : vs.length = es.length := by
  induction es generalizing s vs with
  | nil =>
    cases result
    rfl
  | cons e rest ih =>
    obtain ⟨v, s₁, -, result⟩ := bind_eq_ok.mp result
    obtain ⟨others, s₂, evaluated, result⟩ := bind_eq_ok.mp result
    cases result
    exact congrArg (· + 1) (ih evaluated)

/-- A call expression on the wrong number of arguments fails when the callee and the arguments have
been evaluated. -/
theorem evalExpr_call_eq_error {host : Host} {fuel : Nat} {scope : Scope} {callee : Expr}
    {args : List Expr} {s s₁ s₂ : Store} {c : Value} {vs : List Value} {name : String}
    {arity : Arity} (evaluated : evalExpr host (fuel + 1) scope callee s = .ok c s₁)
    (given : values (evalExpr host (fuel + 1) scope) args s₁ = .ok vs s₂)
    (callable : c.signature? = some (name, arity))
    (refused : arity.accepts args.length = false) :
    evalExpr host (fuel + 2) scope (.call callee args) s =
      .error (.arity name arity args.length) s₂ := by
  rw [← length_of_values given] at refused ⊢
  rw [evalExpr]
  exact (bind_of_ok evaluated).trans
    ((bind_of_ok given).trans (call_eq_error callable refused host fuel s₂))

/-! ### Parameters -/

theorem Bindings.insert_of_not_mem {name : Name} {b : Bindings} (fresh : name ∉ b.names)
    (value : Value) : insert name value b = b ++ [(name, value)] := by
  induction b with
  | nil => rfl
  | cons e rest ih =>
    rw [names, List.map_cons, List.mem_cons, not_or] at fresh
    rw [insert, if_neg (Ne.symm fresh.1), ih fresh.2]
    rfl

/-- Different names are bound in the order given, each once. -/
theorem Bindings.ofList_of_nodup {entries : List (Name × Value)}
    (distinct : (names entries).Nodup) : ofList entries = entries := by
  suffices ∀ b : Bindings, (names (b ++ entries)).Nodup →
      entries.foldl (fun b e => insert e.1 e.2 b) b = b ++ entries from this [] distinct
  clear distinct
  induction entries with
  | nil => exact fun b _ => (List.append_nil b).symm
  | cons e rest ih =>
    intro b distinct
    -- No name of the rest is bound yet, so each entry goes to the end.
    have fresh : e.1 ∉ b.names := by
      unfold names at distinct
      rw [List.map_append, List.map_cons, List.nodup_append] at distinct
      intro mem
      exact distinct.2.2 e.1 mem e.1 List.mem_cons_self rfl
    rw [List.foldl_cons, insert_of_not_mem fresh]
    have split : b ++ e :: rest = (b ++ [e]) ++ rest := by simp
    rw [split] at distinct ⊢
    exact ih _ distinct

theorem Bindings.get?_of_nodup {b : Bindings} (distinct : b.names.Nodup) {name : Name} {v : Value}
    (mem : (name, v) ∈ b) : b.get? name = some v := by
  induction b with
  | nil => cases mem
  | cons e rest ih =>
    rw [names, List.map_cons, List.nodup_cons] at distinct
    rcases List.mem_cons.mp mem with rfl | mem
    · exact if_pos rfl
    · have ne : e.1 ≠ name := fun same => distinct.1 (same ▸ List.mem_map_of_mem mem)
      rw [get?, if_neg ne]
      exact ih distinct.2 mem

/-- The parameters of a checked function are different. -/
theorem Check.nodup_params {seen ps : List Name} (checked : params seen ps = .ok ()) :
    ps.Nodup ∧ ∀ p ∈ ps, p ∉ seen := by
  induction ps generalizing seen with
  | nil => exact ⟨List.nodup_nil, nofun⟩
  | cons p rest ih =>
    unfold params at checked
    obtain ⟨-, checked⟩ := bind_eq_ok.mp checked
    split at checked
    · cases checked
    · rename_i unseen
      obtain ⟨distinct, others⟩ := ih checked
      refine ⟨List.nodup_cons.mpr ⟨fun mem => others p mem List.mem_cons_self, distinct⟩, ?_⟩
      exact List.forall_mem_cons.mpr ⟨unseen, fun q mem seen => others q mem (List.mem_cons_of_mem _ seen)⟩

/-- As many arguments as parameters, which are all different, are bound one to one: the frame holds
the parameters in their order, each with the argument in its place. -/
theorem Bindings.ofList_zip {ps : List Name} {args : List Value} (distinct : ps.Nodup)
    (same : args.length = ps.length) :
    ofList (ps.zip args) = ps.zip args ∧ names (ps.zip args) = ps ∧
      ∀ i (h : i < ps.length), get? ps[i] (ps.zip args) = args[i]? := by
  have all : names (ps.zip args) = ps := List.map_fst_zip (Nat.le_of_eq same.symm)
  have distinct : (names (ps.zip args)).Nodup := all.symm ▸ distinct
  refine ⟨ofList_of_nodup distinct, all, fun i h => ?_⟩
  have h' : i < args.length := same ▸ h
  rw [List.getElem?_eq_getElem h']
  apply get?_of_nodup distinct
  rw [← List.getElem_zip (h := by simp [h, h'])]
  exact List.getElem_mem _

/-! ### Builtins -/

/-- A native function that stands for a builtin takes as many arguments as the builtin. -/
def Native.Fits (f : Native) : Prop := ∀ b, f.body = .builtin b → f.arity = b.arity

theorem Builtin.fits_toNative (b : Builtin) : b.toNative.Fits := by
  rintro _ ⟨⟩
  rfl

/-- The arguments of a builtin are all numbers, or one of them is not. -/
theorem Builtin.numbers?_eq_none {args : List Value} (none : numbers? args = none) :
    ∃ a ∈ args, a.kind ≠ .number := by
  induction args with
  | nil => cases none
  | cons a rest ih =>
    cases a with
    | number x =>
      obtain ⟨b, mem, ne⟩ := ih (Option.map_eq_none_iff.mp none)
      exact ⟨b, List.mem_cons_of_mem _ mem, ne⟩
    | _ => exact ⟨_, List.mem_cons_self, nofun⟩

theorem Builtin.length_of_numbers? {args : List Value} {xs : List Float}
    (some : numbers? args = some xs) : xs.length = args.length := by
  induction args generalizing xs with
  | nil =>
    cases some
    rfl
  | cons a rest ih =>
    cases a with
    | number x =>
      obtain ⟨others, found, rfl⟩ := Option.map_eq_some_iff.mp some
      exact congrArg (· + 1) (ih found)
    | _ => cases some

/-- A builtin that is given as many arguments as it takes only fails over one that is not a number. -/
theorem Builtin.exists_of_apply_eq_error {b : Builtin} {args : List Value}
    (accepted : b.arity.accepts args.length = true) {time : Float} {e : RuntimeError}
    (failed : b.apply time args = .error e) : ∃ a ∈ args, a.kind ≠ .number := by
  cases found : numbers? args with
  | none => exact numbers?_eq_none found
  | some xs =>
    have same := length_of_numbers? found
    unfold apply at failed
    rw [found] at failed
    cases b with
    | clock => cases failed
    | sqrt =>
      have one : args.length = 1 := beq_iff_eq.mp accepted
      obtain ⟨x, rfl⟩ := List.length_eq_one_iff.mp (same.trans one)
      cases failed
    | max =>
      have some : 1 ≤ args.length := of_decide_eq_true accepted
      cases xs with
      | nil => exact absurd same (by simp; omega)
      | cons x rest => cases failed

namespace Setting.Orderly

variable {k : Setting} (h : k.Orderly)
include h

/-- What a body finds in its frame when it starts. -/
theorem frame_of_closure {fuel : Nat} {f : Closure} {args : List Value} {s s' : Store} {w : Work}
    (moment : k.moments (.closure (fuel + 1) f args) s)
    (begins : ((Work.closure (fuel + 1) f args).plan k.host).Begins k.host s w s') :
    ∃ scope : Scope, w = .block fuel scope f.decl.body ∧ args.length = f.decl.params.length ∧
      s'.own scope = f.decl.params.zip args ∧ (s'.own scope).names = f.decl.params ∧
      ∀ i (h : i < f.decl.params.length), (s'.own scope).get? f.decl.params[i] = args[i]? := by
  obtain ⟨rfl, rfl⟩ := Closure.begins_iff.mp begins
  obtain ⟨sound, -, same⟩ := h.requires moment
  have same : args.length = f.decl.params.length := same
  obtain ⟨bound, all, each⟩ := Bindings.ofList_zip (Check.nodup_params sound.params).1 same
  have own : (f.frameOf args s).2.own (f.frameOf args s).1 = f.decl.params.zip args :=
    (s.frame_push_self f.scope _).trans bound
  refine ⟨_, rfl, same, own, ?_⟩
  rw [own]
  exact ⟨all, each⟩

/-- A call of a builtin fails over the number of arguments, or runs the builtin on as many as it
takes. -/
theorem call_builtin (fits : ∀ f, k.native f → f.Fits) {fuel : Nat} {f : Native} {b : Builtin}
    {args : List Value} {s : Store} (moment : k.moments (.call (fuel + 1) (.native f) args) s)
    (body : f.body = .builtin b) :
    (b.arity.accepts args.length = false ∧ Lox.call k.host (fuel + 1) (.native f) args s =
        .error (.arity f.name b.arity args.length) s) ∨
      b.arity.accepts args.length = true ∧
        Lox.call k.host (fuel + 1) (.native f) args s = callBuiltin k.host b args s ∧
        ∀ time e, b.apply time args = .error e → ∃ a ∈ args, a.kind ≠ .number := by
  have same : f.arity = b.arity := fits f (h.requires moment).1 b body
  cases accepted : b.arity.accepts args.length with
  | false =>
    refine .inl ⟨rfl, ?_⟩
    rw [← same] at accepted ⊢
    exact call_eq_error rfl accepted k.host fuel s
  | true =>
    refine .inr ⟨rfl, ?_, fun time e failed => Builtin.exists_of_apply_eq_error accepted failed⟩
    have checked : checkArity f.name f.arity args s = .ok () s := by
      rw [checkArity_eq, same, accepted]
      rfl
    rw [Lox.call]
    refine (bind_of_ok checked).trans ?_
    rw [body]

end Setting.Orderly

/-! ### The result -/

/-- In every session, whatever it is given and however far it gets. A call on a number of arguments
that the callee does not take fails with an error that names the callee, and changes nothing; a call
expression does so when the callee and the arguments have been evaluated. When a body starts, its
frame holds the parameters, each with the argument in its place. When a builtin runs, it is on as many
arguments as it takes. -/
theorem calls_fit {host : Host} (passes : host.Passes Native.Fits) (limit : Option Nat)
    {globals : List (Name × Value)} (plain : ∀ g ∈ globals, g.2.isPlain = true)
    (fits : ∀ g ∈ globals, ∀ f, g.2 = .native f → f.Fits) {bound : Nat} {steps : List Step}
    {moments : Work → Store → Prop}
    (session : moments = (Script.start (.withGlobals host limit globals)).Visits bound steps) :
    (∀ {fuel callee args s name arity}, moments (.call (fuel + 1) callee args) s →
      callee.signature? = some (name, arity) → arity.accepts args.length = false →
        Lox.call host (fuel + 1) callee args s = .error (.arity name arity args.length) s) ∧
    (∀ {fuel scope callee args s c s₁ vs s₂ name arity},
      moments (.expr (fuel + 2) scope (.call callee args)) s →
      evalExpr host (fuel + 1) scope callee s = .ok c s₁ →
      values (evalExpr host (fuel + 1) scope) args s₁ = .ok vs s₂ →
      c.signature? = some (name, arity) → arity.accepts args.length = false →
        evalExpr host (fuel + 2) scope (.call callee args) s =
          .error (.arity name arity args.length) s₂) ∧
    (∀ {fuel f args s w s'}, moments (.closure (fuel + 1) f args) s →
      ((Work.closure (fuel + 1) f args).plan host).Begins host s w s' →
        ∃ scope : Scope, w = .block fuel scope f.decl.body ∧
          args.length = f.decl.params.length ∧ s'.own scope = f.decl.params.zip args ∧
          (s'.own scope).names = f.decl.params ∧
          ∀ i (h : i < f.decl.params.length), (s'.own scope).get? f.decl.params[i] = args[i]?) ∧
    ∀ {fuel f b args s}, moments (.call (fuel + 1) (.native f) args) s → f.body = .builtin b →
      (b.arity.accepts args.length = false ∧ Lox.call host (fuel + 1) (.native f) args s =
          .error (.arity f.name b.arity args.length) s) ∨
        b.arity.accepts args.length = true ∧
          Lox.call host (fuel + 1) (.native f) args s = callBuiltin host b args s ∧
          ∀ time e, b.apply time args = .error e → ∃ a ∈ args, a.kind ≠ .number := by
  subst session
  have h := Session.orderly passes Builtin.fits_toNative limit plain fits bound steps
  refine ⟨fun _ callable refused => call_eq_error callable refused host _ _,
    fun _ evaluated given callable refused => evalExpr_call_eq_error evaluated given callable refused,
    fun moment begins => h.frame_of_closure moment begins,
    fun moment body => h.call_builtin (fun _ fits => fits) moment body⟩

/-- Whether the work is to call a value on a number of arguments that it does not take. -/
def Work.isRefused : Work → Store → Bool
  | .call (_ + 1) callee args, _ => callee.signature?.any fun g => !g.2.accepts args.length
  | _, _ => false

theorem Work.eq_of_isRefused {w : Work} {s : Store} (h : w.isRefused s = true) :
    ∃ fuel callee args name arity, w = .call (fuel + 1) callee args ∧
      callee.signature? = some (name, arity) ∧ arity.accepts args.length = false := by
  unfold isRefused at h
  split at h
  · obtain ⟨⟨name, arity⟩, callable, refused⟩ := (Option.any_eq_true _ _).mp h
    exact ⟨_, _, _, name, arity, rfl, callable, by simpa using refused⟩
  · cases h

/-- Whether the work is to run the body of a function. -/
def Work.isBody : Work → Store → Bool
  | .closure (_ + 1) _ _, _ => true
  | _, _ => false

theorem Work.eq_of_isBody {w : Work} {s : Store} (h : w.isBody s = true) :
    ∃ fuel f args, w = .closure (fuel + 1) f args := by
  unfold isBody at h
  split at h
  · exact ⟨_, _, _, rfl⟩
  · cases h

/-- A class with an inherited initializer is called twice, at first on one argument and then on
none. -/
theorem calls_fit_inherited :
    ∃ moments, moments = (Script.start (.withGlobals Host.first none [])).Visits 20
        [.eval "class A { init(x) {} } class B < A {} B(nil); B();"] ∧
      (∃ fuel f args s, moments (.closure (fuel + 1) f args) s ∧
        (f.frameOf args s).2.own (f.frameOf args s).1 = f.decl.params.zip args) ∧
      ∃ fuel callee args s name arity, moments (.call (fuel + 1) callee args) s ∧
        Lox.call Host.first (fuel + 1) callee args s = .error (.arity name arity args.length) s := by
  have started : ((Script.start (.withGlobals Host.first none [])).visit? 20
      [.eval "class A { init(x) {} } class B < A {} B(nil); B();"] 0
      [1, 1, 0, 2, 0]).any (fun m => m.1.isBody m.2) = true := by
    cbv
  have called : ((Script.start (.withGlobals Host.first none [])).visit? 20
      [.eval "class A { init(x) {} } class B < A {} B(nil); B();"] 0
      [1, 1, 1, 0, 2]).any (fun m => m.1.isRefused m.2) = true := by
    cbv
  obtain ⟨w, s, visits, seen⟩ := Script.exists_visits started
  obtain ⟨fuel, f, args, rfl⟩ := Work.eq_of_isBody seen
  obtain ⟨w', s', visits', seen'⟩ := Script.exists_visits called
  obtain ⟨fuel', callee, args', name, arity, rfl, callable, refused⟩ := Work.eq_of_isRefused seen'
  have plain : ∀ g ∈ ([] : List (Name × Value)), g.2.isPlain = true :=
    List.forall_mem_nil _
  obtain ⟨calls, -, bodies, -⟩ :=
    calls_fit (Host.passes_first _) none plain (List.forall_mem_nil _) rfl
  obtain ⟨scope, same, -, frame, -⟩ := bodies visits (Closure.begins_iff.mpr ⟨rfl, rfl⟩)
  cases same
  exact ⟨_, rfl, ⟨fuel, f, args, s, visits, frame⟩,
    fuel', callee, args', s', name, arity, visits', calls visits' callable refused⟩

end Lox
