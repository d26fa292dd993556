import Mathlib
import Lox.Proofs.Scoping.Frames

/-!
Where the names in a function are looked up.

A name that a function uses and does not declare is looked up in the frames that the function has
captured, whoever calls it: the frames of the call and those inside it do not matter, nor do those
of the caller. Which of the captured frames binds the name is found out anew each time, since there
is no pass that settles it beforehand. So a name stays where it was found, unless a declaration of
it is executed in a captured frame that is nearer (`names_captured`); then later uses go there
(`name_redirected`).
-/

namespace Lox

open Run

/-! ### Looking names up -/

namespace Store

/-- Reading a name and assigning to it find the same frame. -/
theorem lookup?_eq_binder? (s : Store) (name : Name) (chain : List FrameId) :
    s.lookup? name chain = (s.binder? name chain).bind fun f => (s.frame f).get? name := by
  unfold binder?
  induction chain with
  | nil => rfl
  | cons f rest ih =>
    unfold lookup? List.find? Bindings.contains
    cases found : (s.frame f).get? name with
    | some v => simp [found]
    | none => exact ih

/-- From one store to a later one, a name stays where it is found, or is found nearer, where it has
been declared in between. -/
theorem Onward.binder? {k : Setting} {s s' : Store} (h : s.Onward k s') {name : Name}
    {chain : List FrameId} (bounded : ∀ f ∈ chain, f < s.frames.size) {g g' : FrameId}
    (found : s.binder? name chain = some g) (found' : s'.binder? name chain = some g') :
    g = g' ∨ ∃ near far, chain = near ++ g' :: far ∧ g ∈ far ∧
      s.DeclaredBetween k.host k.moments s' g' name := by
  obtain ⟨bound, front, rest, split, free⟩ := List.find?_eq_some_iff_append.mp found
  obtain ⟨bound', near, far, split', free'⟩ := List.find?_eq_some_iff_append.mp found'
  have stays : (s'.frame g).contains name = true :=
    h.keeps.kept g (bounded g (split ▸ by simp)) name bound
  rcases List.append_eq_append_iff.mp (split.symm.trans split') with
    ⟨between, rfl, same⟩ | ⟨between, rfl, same⟩
  · cases between with
    | nil => exact .inl (List.cons.inj same).1
    | cons c between =>
      -- The first frame still binds the name, so that nothing behind it is found.
      obtain ⟨rfl, -⟩ := List.cons.inj same
      have passed := free' g (by simp)
      rw [stays] at passed
      cases passed
  · cases between with
    | nil => exact .inl (List.cons.inj same).1.symm
    | cons c between =>
      obtain ⟨rfl, rfl⟩ := List.cons.inj same
      have unbound : (s.frame g').contains name = false := by simpa using free g' (by simp)
      refine .inr ⟨near, _, split', by simp, ?_⟩
      refine (h.keeps.only g' (bounded g' (split' ▸ by simp)) name bound').resolve_left ?_
      rw [unbound]
      exact Bool.false_ne_true

end Store

/-- The part of the program looks the name up in the scope, with the store: it reads the variable,
or assigns to it when the value is there, or takes the superclass of a class. -/
inductive Part.Seeks (host : Host) (moments : Work → Store → Prop) (name : Name) :
    Part → Scope → Store → Prop where
  | read {fuel scope s} : moments (.expr (fuel + 1) scope (.var name)) s →
      Seeks host moments name (.expr (.var name)) scope s
  | write {fuel scope value s v t} : moments (.expr (fuel + 1) scope (.assign name value)) s →
      evalExpr host fuel scope value s = .ok v t →
      Seeks host moments name (.expr (.assign name value)) scope t
  | superclass {fuel scope decl s} : moments (.exec (fuel + 1) scope (.classDecl decl)) s →
      decl.superclass = some name → Seeks host moments name (.stmt (.classDecl decl)) scope s

/-- The part looks the name up in a call of the function: its scope is that of the call or inside
it. -/
def Closure.Seeks (host : Host) (moments : Work → Store → Prop) (f : Closure) (name : Name)
    (p : Part) (scope : Scope) (s : Store) : Prop :=
  p.Seeks host moments name scope s ∧ ∃ fuel args s₀,
    moments (.closure (fuel + 1) f args) s₀ ∧ (f.frameOf args s₀).1.chain <:+ scope.chain

namespace Setting.Aligned

variable {k : Setting} (h : k.Aligned) {name : Name} {p p' : Part} {scope scope' : Scope}
variable {s s' : Store}
include h

theorem of_seeks (seeks : p.Seeks k.host k.moments name scope s) :
    s.Occurs k.host k.moments ∧ k.Surrounds scope p ∧ scope.Bounded s ∧
      name.isReserved = false := by
  cases seeks with
  | read moment =>
    obtain ⟨_, placed, -, regular⟩ : Expr.Placed k _ _ _ := h.orderly.requires moment
    exact ⟨Store.occurs_begin moment, h.requires moment, placed.bounded, regular⟩
  | write moment result =>
    obtain ⟨_, placed, -, regular⟩ : Expr.Placed k _ _ _ := h.orderly.requires moment
    have inner := k.closed moment .now
    have later := (h.orderly.gives inner result).2.2
    exact ⟨Store.occurs_end inner result, h.requires moment, placed.bounded.grows later.grows,
      regular.1⟩
  | superclass moment named =>
    obtain ⟨_, _, placed, -, regular⟩ : Stmt.Placed k _ _ _ := h.orderly.requires moment
    exact ⟨Store.occurs_begin moment, h.requires moment, placed.bounded,
      ClassDecl.Regular.superclass regular _ named⟩

variable {f : Closure} (free : ¬ f.decl.Declares name)
include free

/-- A name that is sought in a call of a function that does not declare it is sought by a part of
the function, and found where the function was made. -/
theorem binder?_of_seeks (seeks : f.Seeks k.host k.moments name p scope s) :
    f.decl.Spans p ∧ s.binder? name scope.chain = s.binder? name f.scope.chain := by
  obtain ⟨seeks, fuel, args, s₀, moment, front, split⟩ := seeks
  obtain ⟨occurs, surrounds, -, unreserved⟩ := h.of_seeks seeks
  have inside : s₀.frames.size ∈ scope.chain := split ▸ by simp [Closure.frameOf, Scope.chain]
  refine ⟨h.spans moment surrounds inside, ?_⟩
  have passed := h.not_contains_inside moment surrounds split.symm unreserved free occurs
  have split : scope.chain = (front ++ [s₀.frames.size]) ++ f.scope.chain := by
    rw [List.append_assoc]
    exact split.symm
  rw [split]
  exact Store.binder?_append passed f.scope.chain

end Setting.Aligned

/-- A name that the function uses is found in the second frame with the second store, after it was
found in the first one with the first store: the second one is a frame of a block or call, and
nearer, and a declaration of the name was executed in it in between. -/
structure Closure.Redirected (host : Host) (moments : Work → Store → Prop) (f : Closure)
    (name : Name) (s : Store) (g : FrameId) (s' : Store) (g' : FrameId) : Prop where
  inner : g' ∉ Scope.global.chain
  nearer : ∃ near far, f.scope.chain = near ++ g' :: far ∧ g ∈ far
  declared : s.DeclaredBetween host moments s' g' name

/-- Of two frames, either is the other one, or both are the global frame or that of the builtins. -/
def SameBinding (g g' : FrameId) : Prop :=
  g = g' ∨ g ∈ Scope.global.chain ∧ g' ∈ Scope.global.chain

theorem SameBinding.symm {g g' : FrameId} (h : SameBinding g g') : SameBinding g' g :=
  h.imp Eq.symm And.symm

namespace Setting.Aligned

variable {k : Setting} (h : k.Aligned) {s s' : Store} {f : Closure}
include h

/-- Every scope ends with the global frame and the root, and other frames come later than these. -/
theorem chain_eq {scope : Scope} {p : Part} (surrounds : k.Surrounds scope p) :
    ∃ inner, scope.chain = inner ++ Scope.global.chain ∧ ∀ g ∈ inner, 2 ≤ g := by
  induction surrounds with
  | global => exact ⟨[], rfl, nofun⟩
  | inner _ _ ih => exact ih
  | @block _ _ _ s moment _ ih =>
    obtain ⟨inner, split, late⟩ := ih
    exact ⟨s.frames.size :: inner, congrArg (_ :: ·) split,
      List.forall_mem_cons.mpr ⟨h.two_le_of_opens moment .block, late⟩⟩
  | @call _ f args s _ _ moment made _ ih =>
    obtain ⟨inner, split, late⟩ := ih
    obtain ⟨words, chain, hold⟩ := made.chain
    refine ⟨s.frames.size :: (words ++ inner), ?_, ?_⟩
    · rw [Closure.frameOf, Store.push_fst, Scope.chain, chain, split]
      simp
    · refine List.forall_mem_cons.mpr ⟨h.two_le_of_opens moment .call, fun g mem => ?_⟩
      exact (List.mem_append.mp mem).elim (fun mem => (hold g mem).inner) (late g)

/-- What a function finds later is the same, unless the name has been declared nearer. -/
theorem same_or_redirected {fuel : Nat} {args : List Value} {s₀ : Store}
    (moment : k.moments (.closure (fuel + 1) f args) s₀) (bounded : f.scope.Bounded s)
    (onward : s.Onward k s') {name : Name} {g g' : FrameId}
    (found : s.binder? name f.scope.chain = some g)
    (found' : s'.binder? name f.scope.chain = some g') :
    SameBinding g g' ∨ f.Redirected k.host k.moments name s g s' g' := by
  rcases onward.binder? bounded found found' with same | ⟨near, far, split, mem, declared⟩
  · exact .inl (.inl same)
  by_cases outer : g' ∈ Scope.global.chain
  · -- Behind one of the two frames that all scopes share there is nothing but these.
    refine .inl (.inr ⟨?_, outer⟩)
    obtain ⟨scope, p, made, surrounds⟩ : f.Surrounded k s₀ := (h.requires moment).1
    obtain ⟨inner, chain, late⟩ := h.chain_eq (.call moment made surrounds)
    have split : inner ++ Scope.global.chain = (s₀.frames.size :: near) ++ g' :: far :=
      chain.symm.trans (congrArg (_ :: ·) split)
    have notMem : g' ∉ inner := fun mem =>
      Nat.not_lt_of_le (late g' mem) (Scope.lt_two_of_mem_global outer)
    obtain ⟨between, -, rest⟩ := split_of_notMem split notMem
    rw [rest]
    exact List.mem_append_right _ (List.mem_cons_of_mem _ mem)
  · exact .inr ⟨outer, ⟨near, far, split, mem⟩, declared⟩

/-- Two uses of a name, in the order in which they happen or the other way round. -/
theorem captured {name : Name} {p p' : Part} {scope scope' : Scope}
    (free : ¬ f.decl.Declares name) (seeks : f.Seeks k.host k.moments name p scope s)
    (seeks' : f.Seeks k.host k.moments name p' scope' s') {g g' : FrameId}
    (found : s.binder? name scope.chain = some g)
    (found' : s'.binder? name scope'.chain = some g') :
    SameBinding g g' ∨ f.Redirected k.host k.moments name s g s' g' ∨
      f.Redirected k.host k.moments name s' g' s g := by
  have bounded : ∀ {p scope s}, f.Seeks k.host k.moments name p scope s → f.scope.Bounded s := by
    rintro p scope s ⟨seeks, fuel, args, s₀, -, front, split⟩ c mem
    apply (h.of_seeks seeks).2.2.1 c
    rw [← split]
    exact List.mem_append_right _ (List.mem_cons_of_mem _ mem)
  have here := bounded seeks
  have here' := bounded seeks'
  rw [(h.binder?_of_seeks free seeks).2] at found
  rw [(h.binder?_of_seeks free seeks').2] at found'
  obtain ⟨seeks, fuel, args, s₀, moment, -⟩ := seeks
  rcases h.comparable (h.of_seeks seeks).1 (h.of_seeks seeks'.1).1 with onward | onward
  · exact (h.same_or_redirected moment here onward found found').imp_right .inl
  · exact (h.same_or_redirected moment here' onward found' found).imp SameBinding.symm .inr

end Setting.Aligned

/-! ### Sessions -/

namespace Script

variable {k : Setting} {s : Script} {fuel : Nat}

theorem eq_of_work? {step : Step} {w : Work} (work : s.work? fuel step = some w) :
    (∃ stmts, w = .program fuel s.session.scope .nil stmts) ∨
      ∃ e, w = .expr fuel s.session.scope e := by
  have program : ∀ {program : Program}, s.session.work? fuel program = some w →
      w = .program fuel s.session.scope .nil program.stmts := by
    intro program work
    unfold Session.work? at work
    split at work
    · exact (Option.some.inj work).symm
    · cases work
  unfold work? at work
  split at work
  · split at work
    · exact .inl ⟨_, program work⟩
    · cases work
  · split at work
    · split at work
      · exact .inr ⟨_, (Option.some.inj work).symm⟩
      · cases work
    · cases work
  · split at work
    · exact .inl ⟨_, program work⟩
    · cases work
  · cases work

/-- The contract suits scripts whose scope is the global one. -/
theorem scoping_suits (k : Setting) (fuel : Nat) : k.scoping.Suits fuel fun s =>
    s.session.store.Scoped k ∧ s.session.scope = .global where
  holds ready := ready.1
  requires {s step w} ready work := by
    obtain ⟨-, global⟩ := ready
    rcases eq_of_work? work with ⟨stmts, rfl⟩ | ⟨e, rfl⟩
    · exact ⟨.of_isPlain rfl, fun stmt _ => global ▸ .global⟩
    · exact global ▸ Setting.Surrounds.global
  step ready taken stepped := ⟨stepped.holds, (follows_of_step taken).scope.trans ready.2⟩

theorem aligned {steps : List Step} {host : Host} {same : s.session.host = host}
    {native : Native → Prop} {passes : host.Passes native}
    (orderly : (s.setting fuel steps same passes).Orderly)
    (tidy : s.session.store.Scoped (s.setting fuel steps same passes))
    (global : s.session.scope = .global) : (s.setting fuel steps same passes).Aligned := by
  subst same
  have governs : Contract.Governs _ (s.course fuel steps) :=
    governs orderly.scoping_kept (scoping_suits _ fuel) ⟨tidy, global⟩
  exact ⟨orderly, governs, fun visits₁ visits₂ =>
    ordered governs (scoping_suits _ fuel) ⟨tidy, global⟩ visits₁ visits₂⟩

end Script

namespace Session

/-- A session starts in its global scope, and with no code. -/
theorem scoped_withGlobals (k : Setting) (host : Host) (limit : Option Nat)
    {globals : List (Name × Value)} (plain : ∀ g ∈ globals, g.2.isPlain = true) :
    (withGlobals host limit globals).store.Scoped k ∧
      (withGlobals host limit globals).scope = .global := by
  suffices (withGlobals host limit globals).store.AllPlain ∧
      (withGlobals host limit globals).store.frames.size = 2 ∧
      (withGlobals host limit globals).scope = .global by
    obtain ⟨plain, size, scope⟩ := this
    refine ⟨⟨Nat.le_of_eq size.symm, fun c name v found => .of_isPlain ?_, ?_⟩, scope⟩
    · cases c with
      | frame f => exact plain.frames f name v found
      | fields address =>
        rw [Store.contents, plain.fields] at found
        cases found
    · intro f inner name bound
      have inside := Store.lt_of_contains bound
      rw [size] at inside
      exact absurd inner (Nat.not_le_of_lt inside)
  refine List.foldlRecOn (motive := fun s : Session => s.store.AllPlain ∧
    s.store.frames.size = 2 ∧ s.scope = .global) globals _ ⟨allPlain_new host limit, rfl, rfl⟩ ?_
  rintro s ⟨all, size, scope⟩ g mem
  exact ⟨all.bind s.scope.frame g.1 (plain g mem), (Store.size_frames_bind ..).trans size, scope⟩

end Session

/-! ### The result -/

/-- In every session, whatever it is given and however far it gets: a name that a function uses and
does not declare is sought by a part of its text, and found where the function was made, in the
nearest of the frames it has captured that binds the name at the time. Two uses, in the same call or
in different ones, find the same binding, or both a global or a builtin, or else the later one has
been redirected by a declaration of the name in a nearer one of the captured frames. -/
theorem names_captured {host : Host} (passes : host.Passes fun _ => True) (limit : Option Nat)
    {globals : List (Name × Value)} (plain : ∀ g ∈ globals, g.2.isPlain = true) {bound : Nat}
    {steps : List Step} {moments : Work → Store → Prop}
    (session : moments = (Script.start (.withGlobals host limit globals)).Visits bound steps)
    {f : Closure} {name : Name} (free : ¬ f.decl.Declares name) {p p' : Part}
    {scope scope' : Scope} {s s' : Store} (seeks : f.Seeks host moments name p scope s)
    (seeks' : f.Seeks host moments name p' scope' s') :
    (f.decl.Spans p ∧ s.binder? name scope.chain = s.binder? name f.scope.chain ∧
      s.lookup? name scope.chain = s.lookup? name f.scope.chain) ∧
    ∀ g g', s.binder? name scope.chain = some g → s'.binder? name scope'.chain = some g' →
      SameBinding g g' ∨ f.Redirected host moments name s g s' g' ∨
        f.Redirected host moments name s' g' s g := by
  subst session
  obtain ⟨tidy, global⟩ := Session.scoped_withGlobals
    (Session.setting limit globals bound steps passes) host limit plain
  have orderly := Session.orderly passes (fun _ => trivial) limit plain (fun _ _ _ _ => trivial)
    bound steps
  have h : (Session.setting limit globals bound steps passes).Aligned :=
    Script.aligned orderly tidy global
  obtain ⟨spans, found⟩ := h.binder?_of_seeks free seeks
  refine ⟨⟨spans, found, ?_⟩, fun g g' => h.captured free seeks seeks'⟩
  rw [Store.lookup?_eq_binder?, found, ← Store.lookup?_eq_binder?]

/-! ### A name that is redirected -/

/-- A function that prints a variable, made in a block. -/
def Closure.printing : Closure := ⟨⟨"show", [], [.print (.var "a")]⟩, ⟨2, [1, 0]⟩, false⟩

theorem Closure.not_declares_printing : ¬ Closure.printing.decl.Declares "a" := by
  rintro ⟨p, mem, q, inside, declared⟩
  rcases Part.contains_iff.mp inside with rfl | ⟨r, deeper, inside⟩
  · rcases List.mem_cons.mp mem with rfl | mem
    · cases declared
    · obtain rfl := List.mem_singleton.mp mem
      cases declared
  · rcases List.mem_cons.mp mem with rfl | mem
    · cases deeper
    · obtain rfl := List.mem_singleton.mp mem
      obtain rfl := List.mem_singleton.mp deeper
      obtain ⟨e, rfl⟩ := Part.contains_expr inside
      cases declared

/-- Whether the work is to call that function, and the variable is found in the frame. -/
def Work.printsFrom (g : FrameId) : Work → Store → Bool
  | .closure (_ + 3) ⟨⟨"show", [], [.print (.var "a")]⟩, ⟨2, [1, 0]⟩, false⟩ [], s =>
    (Closure.printing.frameOf [] s).2.binder? "a" (Closure.printing.frameOf [] s).1.chain = some g
  | _, _ => false

/-- Such a call looks the variable up where it says. -/
theorem Setting.seeks_of_printsFrom {k : Setting} {g : FrameId} {w : Work} {s : Store}
    (moment : k.moments w s) (h : w.printsFrom g s = true) : ∃ scope t,
      Closure.printing.Seeks k.host k.moments "a" (.expr (.var "a")) scope t ∧
      t.binder? "a" scope.chain = some g := by
  unfold Work.printsFrom at h
  split at h
  · have printed := k.closed (k.moments_body moment) .now
    have read := k.closed printed .now
    exact ⟨_, _, ⟨.read read, _, _, _, moment, List.suffix_refl _⟩, of_decide_eq_true h⟩
  · cases h

/-- The function is called before and after a variable of the same name is declared in the block. -/
theorem exists_seeks_printing {moments : Work → Store → Prop}
    (session : moments = (Script.start (.withGlobals Host.first none [])).Visits 30
      [.eval "var a = true; { fun show() { print a; } show(); var a = false; show(); }"]) :
    ∃ scope s scope' s',
      Closure.printing.Seeks Host.first moments "a" (.expr (.var "a")) scope s ∧
      Closure.printing.Seeks Host.first moments "a" (.expr (.var "a")) scope' s' ∧
      s.binder? "a" scope.chain = some 1 ∧ s'.binder? "a" scope'.chain = some 2 := by
  subst session
  have first : ((Script.start (.withGlobals Host.first none [])).visit? 30
      [.eval "var a = true; { fun show() { print a; } show(); var a = false; show(); }"] 0
      [1, 0, 0, 1, 0, 0, 2, 0]).any (fun m => m.1.printsFrom 1 m.2) = true := by
    cbv
  have second : ((Script.start (.withGlobals Host.first none [])).visit? 30
      [.eval "var a = true; { fun show() { print a; } show(); var a = false; show(); }"] 0
      [1, 0, 0, 1, 1, 1, 0, 0, 2, 0]).any (fun m => m.1.printsFrom 2 m.2) = true := by
    cbv
  let k := Session.setting none [] 30
    [.eval "var a = true; { fun show() { print a; } show(); var a = false; show(); }"]
    (Host.passes_first fun _ => True)
  obtain ⟨w, s, visits, seen⟩ := Script.exists_visits first
  obtain ⟨w', s', visits', seen'⟩ := Script.exists_visits second
  obtain ⟨scope, t, seeks, found⟩ := Setting.seeks_of_printsFrom (k := k) visits seen
  obtain ⟨scope', t', seeks', found'⟩ := Setting.seeks_of_printsFrom (k := k) visits' seen'
  exact ⟨scope, t, scope', t', seeks, seeks', found, found'⟩

/-- The variable is first the global one, then the one declared in the block. -/
theorem names_captured_redeclared :
    ∃ moments, moments = (Script.start (.withGlobals Host.first none [])).Visits 30
        [.eval "var a = true; { fun show() { print a; } show(); var a = false; show(); }"] ∧
      ∃ scope s scope' s', ¬ Closure.printing.decl.Declares "a" ∧
        Closure.printing.Seeks Host.first moments "a" (.expr (.var "a")) scope s ∧
        Closure.printing.Seeks Host.first moments "a" (.expr (.var "a")) scope' s' ∧
        s.binder? "a" scope.chain = some 1 ∧ s'.binder? "a" scope'.chain = some 2 ∧
        (Closure.printing.decl.Spans (.expr (.var "a")) ∧
          s.binder? "a" scope.chain = s.binder? "a" Closure.printing.scope.chain ∧
          s.lookup? "a" scope.chain = s.lookup? "a" Closure.printing.scope.chain) ∧
        (SameBinding 1 2 ∨ Closure.printing.Redirected Host.first moments "a" s 1 s' 2 ∨
          Closure.printing.Redirected Host.first moments "a" s' 2 s 1) := by
  obtain ⟨scope, s, scope', s', seeks, seeks', found, found'⟩ := exists_seeks_printing rfl
  obtain ⟨captured, related⟩ := names_captured (Host.passes_first _) none (by simp) rfl
    Closure.not_declares_printing seeks seeks'
  exact ⟨_, rfl, scope, s, scope', s', Closure.not_declares_printing, seeks, seeks', found, found',
    captured, related 1 2 found found'⟩

/-- A use of a name that the function does not declare denotes the global variable in one call, and
a variable of a block in another one. -/
theorem name_redirected :
    ∃ moments, moments = (Script.start (.withGlobals Host.first none [])).Visits 30
        [.eval "var a = true; { fun show() { print a; } show(); var a = false; show(); }"] ∧
      ∃ f : Closure, ∃ p scope s scope' s' g g', ¬ f.decl.Declares "a" ∧
        f.Seeks Host.first moments "a" p scope s ∧ f.Seeks Host.first moments "a" p scope' s' ∧
        s.binder? "a" scope.chain = some g ∧ s'.binder? "a" scope'.chain = some g' ∧
        ¬ SameBinding g g' := by
  obtain ⟨scope, s, scope', s', seeks, seeks', found, found'⟩ := exists_seeks_printing rfl
  refine ⟨_, rfl, .printing, _, scope, s, scope', s', 1, 2, Closure.not_declares_printing, seeks,
    seeks', found, found', ?_⟩
  simp [SameBinding, Scope.chain, Scope.global]

end Lox
