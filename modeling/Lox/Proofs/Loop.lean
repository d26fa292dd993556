import Lox.Proofs.Loop.Rounds
import Lox.Proofs.Nesting
import Lox.Proofs.Output
import Lox.Proofs.Parse.Loops

/-!
A loop means what it says.

What a written loop is replaced by ends exactly as the loop does: with the same completion or error
and with the same store, output included. Its body binds no name in any frame that is there when it
starts, so that the increment, evaluated in the scope of the loop, sees nothing that the body has
declared. Functions made in the rounds share the scope of the loop, and functions made in two of
them share nothing else. The main statement is `runs_of_parse`.
-/

namespace Lox

open Run

/-! ### Chains of frames -/

/-- Of two scopes around one, the first is around the second, or the second around the first. -/
theorem Scope.suffix_or_mem {a w f : Scope} (inA : a.chain <:+ f.chain)
    (inW : w.chain <:+ f.chain) : a.chain <:+ w.chain ∨ w.frame ∈ a.outer := by
  rcases List.suffix_or_suffix_of_suffix inA inW with within | within
  · exact .inl within
  · rcases List.suffix_cons_iff.mp within with same | within
    · exact .inl (same ▸ List.suffix_refl _)
    · exact .inr (within.mem List.mem_cons_self)

namespace Layout

variable {layout : Layout} {inner outer : Scope}

/-- A scope that contains the frame of another one contains the frames around it, too. -/
theorem suffix_of_mem (known : layout.scopes inner) (known' : layout.scopes outer)
    (mem : outer.frame ∈ inner.chain) : outer.chain <:+ inner.chain := by
  obtain ⟨found, within, same⟩ := Scope.exists_suffix_of_mem mem
  rcases layout.around inner known found within with rfl | there
  · exact absurd same (Nat.ne_of_lt (layout.frame_pos known'))
  · rw [layout.place found outer there known' same] at within
    exact within

/-- If a frame is in scopes inside two scopes that are directly in one, it is around these two. -/
theorem mem_outer_of_mem {a b : Scope} (knownA : layout.scopes a) (apart : a.frame ≠ b.frame)
    (same : a.outer = b.outer) {f g : Scope} (knownF : layout.scopes f) (knownG : layout.scopes g)
    (inA : a.chain <:+ f.chain) (inB : b.chain <:+ g.chain) {x : FrameId} (memF : x ∈ f.chain)
    (memG : x ∈ g.chain) : x ∈ a.outer := by
  obtain ⟨w, aroundF, rfl⟩ := Scope.exists_suffix_of_mem memF
  obtain ⟨w', aroundG, frame⟩ := Scope.exists_suffix_of_mem memG
  have root : 0 ∈ a.outer := by
    have mem : 0 ∈ a.chain := (layout.ends a knownA).mem (by decide)
    rcases List.mem_cons.mp mem with zero | mem
    · exact absurd zero (Nat.ne_of_lt (layout.frame_pos knownA))
    · exact mem
  rcases layout.around f knownF w aroundF with rfl | known
  · exact root
  rcases layout.around g knownG w' aroundG with rfl | known'
  · exact frame ▸ root
  obtain rfl := layout.place w' w known' known frame
  rcases Scope.suffix_or_mem inA aroundF with insideA | mem
  · rcases Scope.suffix_or_mem inB aroundG with insideB | mem
    · have length : a.chain.length = b.chain.length := by simp [Scope.chain, same]
      have equal : a.chain = b.chain :=
        (List.suffix_of_suffix_length_le insideA insideB (Nat.le_of_eq length)).eq_of_length length
      exact absurd (congrArg Scope.frame (Scope.chain_injective equal)) apart
    · exact same ▸ mem
  · exact mem

end Layout

/-! ### Functions made in a loop -/

/-- A function that is left behind: in a frame, in a field, or in the value of a `return`. -/
inductive Run.LeavesClosure : Outcome RuntimeError Store Flow → Closure → Prop where
  | stored {flow s c name v f} : (Store.contents s c).get? name = some v → f ∈ v.functions →
      LeavesClosure (.ok flow s) f
  | storedBeforeError {e s c name v f} : (Store.contents s c).get? name = some v →
      f ∈ v.functions → LeavesClosure (.error e s) f
  | returned {v s f} : f ∈ v.functions → LeavesClosure (.ok (.return v) s) f

theorem Run.EndsLaidOut.scopes {layout : Layout} {r : Outcome RuntimeError Store Flow} {f : Closure}
    (h : EndsLaidOut Flow.Fits layout r) (left : LeavesClosure r f) : layout.scopes f.scope := by
  cases left with
  | stored found mem => exact (h.1.values _ _ _ found).functions f mem
  | storedBeforeError found mem => exact (h.values _ _ _ found).functions f mem
  | returned mem => exact h.2.functions f mem

/-- The function was made inside the frame of a round. -/
def Closure.MadeIn (f : Closure) (round : Scope) : Prop := round.frame ∈ f.scope.chain

/-- What the functions made in the rounds of a loop have in common. -/
structure Loop.Shares (l : Loop) (rounds : List Scope) (r : Outcome RuntimeError Store Flow) :
    Prop where
  /-- A name that is not bound further inside is the same variable for all of them, the one that the
  loop itself sees. -/
  sameVariables : ∀ f, LeavesClosure r f → ∀ round ∈ rounds, f.MadeIn round → ∀ (s : Store) name,
    (∀ x ∈ f.scope.chain, x ∉ l.scope.chain → (s.frame x).contains name = false) →
      s.lookup? name f.scope.chain = s.lookup? name l.scope.chain ∧
        s.binder? name f.scope.chain = s.binder? name l.scope.chain
  /-- Functions made in different rounds have no frame in common but those of the loop. -/
  apart : ∀ f g, LeavesClosure r f → LeavesClosure r g → ∀ a ∈ rounds, ∀ b ∈ rounds, a ≠ b →
    f.MadeIn a → g.MadeIn b → ∀ x ∈ f.scope.chain, x ∈ g.scope.chain → x ∈ l.scope.chain

namespace Loop

variable {host : Host} {scope : Scope} {init : Option Stmt} {cond incr : Option Expr} {body : Stmt}
  {s : Store} {l : Loop} {rounds : List Scope} {r : Outcome RuntimeError Store Flow}
  {layout : Layout}

theorem shares_of_endsLaidOut (fits : EndsLaidOut Flow.Fits layout r)
    (known : ∀ round ∈ rounds, layout.scopes round)
    (inside : ∀ round ∈ rounds, round.outer = l.scope.chain) : l.Shares rounds r := by
  have chain : ∀ f, LeavesClosure r f → ∀ round ∈ rounds, f.MadeIn round →
      round.chain <:+ f.scope.chain := fun f left round mem made =>
    layout.suffix_of_mem (fits.scopes left) (known round mem) made
  refine ⟨fun f left round mem made s name unbound => ?_, fun f g leftF leftG a memA b memB apart
    madeA madeB x memF memG => ?_⟩
  · obtain ⟨front, split⟩ := chain f left round mem made
    have whole : f.scope.chain = (front ++ [round.frame]) ++ l.scope.chain := by
      rw [← split, Scope.chain, inside round mem, List.append_assoc]
      rfl
    have descends := layout.descends f.scope (fits.scopes left)
    rw [whole] at descends unbound ⊢
    have front : ∀ x ∈ front ++ [round.frame], (s.frame x).contains name = false := fun x mem =>
      unbound x (List.mem_append_left _ mem) fun again =>
        Nat.lt_irrefl x ((List.pairwise_append.mp descends).2.2 x mem x again)
    exact ⟨Store.lookup?_append front _, Store.binder?_append front _⟩
  · have same : a.outer = b.outer := (inside a memA).trans (inside b memB).symm
    have frames : a.frame ≠ b.frame := fun equal =>
      apart (layout.place a b (known a memA) (known b memB) equal)
    rw [← inside a memA]
    exact layout.mem_outer_of_mem (known a memA) frames same (fits.scopes leftF)
      (fits.scopes leftG) (chain f leftF a memA madeA) (chain g leftG b memB madeB) memF memG

/-- The initialiser binds names in the frame of the loop only. -/
theorem keeps_of_initialiser {first : Stmt} {inner : Scope} {s₁ : Store}
    (pushed : s.push scope [] = (inner, s₁)) (ends : Ends (exec host · inner first) s₁ r) :
    Leaves (s.Keeps Store.nothing) r := by
  cases pushed
  exact ends.leaves fun n => (keepsNames host n).exec s Store.nothing _ first
    (fun lt => absurd lt (Nat.lt_irrefl _)) _ (Store.keeps_push s scope [])

theorem Runs.keeps (nothing : body.boundNames = [])
    (h : Runs host scope cond incr body init s l rounds r) : Leaves (s.Keeps Store.nothing) r := by
  rcases h with iterates | ⟨pushed, ends, -⟩ | ⟨pushed, ends, iterates⟩
  · exact iterates.keeps nothing
  · exact keeps_of_initialiser pushed ends
  · have started : Store.Keeps _ _ _ := keeps_of_initialiser pushed ends
    exact (iterates.keeps nothing).mono fun _ => started.trans

theorem Runs.newFrames (nothing : body.boundNames = [])
    (h : Runs host scope cond incr body init s l rounds r) : l.NewFrames s rounds r := by
  rcases h with iterates | ⟨pushed, ends, -⟩ | ⟨pushed, ends, iterates⟩
  · exact iterates.newFrames nothing
  · exact ⟨by simp, by simp, .nil, by simp⟩
  · have started : Store.Keeps _ _ _ := keeps_of_initialiser pushed ends
    have frames := iterates.newFrames nothing
    exact { frames with new := fun round mem => Nat.le_trans started.size (frames.new round mem) }

/-- A loop in a scope of the layout adds its frames to the layout. -/
theorem Runs.endsLaidOut (h : Runs host scope cond incr body init s l rounds r)
    (shares : host.Shares) (laidOut : s.LaidOut layout) (known : layout.scopes scope) :
    ∃ layout', (∀ round ∈ rounds, layout'.scopes round) ∧ EndsLaidOut Flow.Fits layout' r := by
  rcases h with iterates | ⟨pushed, ends, -⟩ | ⟨pushed, ends, iterates⟩
  · obtain ⟨layout', -, inside, fits⟩ := iterates.endsLaidOut shares known laidOut
    exact ⟨layout', inside, fits⟩
  · obtain ⟨layout₁, -, laidOut₁, inside⟩ := laidOut_push pushed known laidOut
    obtain ⟨layout₂, -, fits⟩ := endsLaidOut_of_ends ends shares inside laidOut₁
    exact ⟨layout₂, by simp, fits⟩
  · obtain ⟨layout₁, -, laidOut₁, inside⟩ := laidOut_push pushed known laidOut
    obtain ⟨layout₂, within₂, laidOut₂, -⟩ := endsLaidOut_of_ends ends shares inside laidOut₁
    obtain ⟨layout₃, -, others, fits⟩ :=
      iterates.endsLaidOut shares (within₂.scopes _ inside) laidOut₂
    exact ⟨layout₃, others, fits⟩

theorem Runs.shares (nothing : body.boundNames = [])
    (h : Runs host scope cond incr body init s l rounds r) (shares : host.Shares)
    (laidOut : s.LaidOut layout) (known : layout.scopes scope) : l.Shares rounds r := by
  obtain ⟨layout', inside, fits⟩ := h.endsLaidOut shares laidOut known
  exact shares_of_endsLaidOut fits inside (h.newFrames nothing).inside

end Loop

/-! ### Written loops -/

/-- What the body of a loop does with frames. -/
structure Stmt.KeepsFrames (host : Host) (body : Stmt) : Prop where
  /-- It binds no name in a frame that is there when it starts, that of its round included. -/
  names : ∀ round s r, Ends (exec host · round body) s r → Leaves s.SameNames r
  /-- The statements of a block run in a frame that is new in each round and has no names yet. -/
  block : ∀ stmts, body = .block stmts → ∀ round s r, Ends (exec host · round body) s r →
    ∃ inner s', s.push round [] = (inner, s') ∧ s'.Blank inner.frame ∧
      Ends (fun n => statements (exec host n inner) stmts) s' r

theorem Stmt.keepsFrames_of_boundNames {body : Stmt} (nothing : body.boundNames = [])
    (host : Host) : body.KeepsFrames host := by
  refine ⟨fun round s r ends => ?_, ?_⟩
  · exact (Loop.keeps_of_ends nothing ends).mono fun _ => Store.Keeps.sameNames
  · rintro stmts rfl round s r ends
    obtain ⟨inner, s', pushed, ends⟩ := (ends_block stmts).mp ends
    cases pushed
    exact ⟨_, _, rfl, Store.blank_push s round, ends⟩

/-- Wherever a loop stands in a parsed program and wherever it runs, what it is replaced by ends
with a result if and only if the loop itself does. The loop binds no name in the frames that are
there; its rounds have new frames, which stay without names, and what its body declares is further
inside. The functions made in the rounds share the scope of the loop and nothing else. -/
theorem runs_of_parse {text : String} {tree : List Stmt} (parsed : parseProgram text = .ok tree)
    {init : Option Stmt} {cond incr : Option Expr} {body : Stmt}
    (written : (Part.program tree).Contains (.stmt (.for init cond incr body)))
    (host : Host) (scope : Scope) (s : Store) :
    (∀ r, Ends (exec host · scope (Stmt.for init cond incr body).desugar) s r ↔
      ∃ l rounds, Loop.Runs host scope cond incr body.desugar init s l rounds r) ∧
    (∀ l rounds r, Loop.Runs host scope cond incr body.desugar init s l rounds r →
      Leaves s.SameNames r ∧ l.NewFrames s rounds r ∧
        ∀ layout, host.Shares → s.LaidOut layout → layout.scopes scope → l.Shares rounds r) ∧
    body.desugar.KeepsFrames host := by
  obtain ⟨-, nothing⟩ := writtenLoops_of_parse parsed _ written
  refine ⟨fun r => ends_ofFor_iff nothing, fun l rounds r runs => ⟨?_, runs.newFrames nothing, ?_⟩,
    Stmt.keepsFrames_of_boundNames nothing host⟩
  · exact (runs.keeps nothing).mono fun _ => Store.Keeps.sameNames
  · exact fun layout => runs.shares nothing

/-- A loop of two rounds, each with a function that sees the variable of the loop. -/
theorem runs_of_parse_twoRounds :
    let init := Stmt.varDecl "s" (.string "")
    let cond := Expr.binary .notEqual (.var "s") (.string "aa")
    let incr := Expr.assign "s" (.binary .add (.var "s") (.string "a"))
    let body := Stmt.block [.funDecl ⟨"f", [], [.return (.var "s")]⟩,
      .print (.call (.var "f") [])]
    parseProgram
        "for (var s = \"\"; s != \"aa\"; s = s + \"a\") \x7b fun f() \x7b return s; \x7d print f(); \x7d" =
      .ok [.for (some init) (some cond) (some incr) body] ∧
    Host.first.Shares ∧
    ∃ l rounds r, Loop.Runs Host.first .global (some cond) (some incr) body.desugar (some init)
        (Session.new Host.first none).store l rounds r ∧
      r.written = "\na\n".toUTF8 ∧ l.Shares rounds r := by
  intro init cond incr body
  have parsed : parseProgram
      "for (var s = \"\"; s != \"aa\"; s = s + \"a\") \x7b fun f() \x7b return s; \x7d print f(); \x7d" =
      .ok [.for (some init) (some cond) (some incr) body] := by
    cbv
  have written : (Part.program [.for (some init) (some cond) (some incr) body]).Contains
      (.stmt (.for (some init) (some cond) (some incr) body)) :=
    .inner (List.mem_singleton_self _) .self
  obtain ⟨runs, frames, -⟩ := runs_of_parse parsed written Host.first .global
    (Session.new Host.first none).store
  have output : (exec Host.first 20 .global
      (Stmt.for (some init) (some cond) (some incr) body).desugar
      (Session.new Host.first none).store).written = "\na\n".toUTF8 := by
    cbv
  generalize ran : exec Host.first 20 .global _ (Session.new Host.first none).store = r at output
  have ended : r ≠ .outOfFuel := by
    rintro rfl
    cases output
  obtain ⟨l, rounds, h⟩ := (runs r).mp ⟨ended, 20, ran⟩
  exact ⟨parsed, Host.shares_first, l, rounds, r, h, output,
    (frames l rounds r h).2.2 .start Host.shares_first (Session.laidOut_new Host.first none) rfl⟩

end Lox
