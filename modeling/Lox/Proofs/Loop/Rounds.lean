import Lox.Proofs.Loop.Reference
import Lox.Proofs.Nesting.Chain
import Lox.Proofs.Nesting.Eval

/-!
The frames of a loop's rounds.

Each round has a frame of its own, made in the scope of the loop after those of the rounds before,
and no name is ever bound in it (`Loop.NewFrames`). What a round declares is therefore in frames
further inside, and a function made there sees the scope of the loop behind the frame of its round:
functions of all rounds share what is in that scope, and functions of two rounds share nothing else
(`Loop.Shares`). The second rests on the layout of the store (`Loop.Iterates.endsLaidOut`).
-/

namespace Lox

open Run

/-! ### Names -/

namespace Store

variable {added : FrameId → Name → Prop} {s s₁ s₂ : Store}

theorem Keeps.trans (h : s.Keeps added s₁) (h' : s₁.Keeps added s₂) : s.Keeps added s₂ := by
  refine ⟨Nat.le_trans h.size h'.size, fun f lt name bound => ?_, fun f lt name bound => ?_⟩
  · exact h'.kept f (Nat.lt_of_lt_of_le lt h.size) name (h.kept f lt name bound)
  · rcases h'.only f (Nat.lt_of_lt_of_le lt h.size) name bound with bound | new
    · exact h.only f lt name bound
    · exact .inr new

theorem keeps_push (s : Store) (scope : Scope) (b : Bindings) :
    s.Keeps nothing (s.push scope b).2 :=
  (Keeps.refl s).push scope b

end Store

namespace Run

variable {α : Type} {P Q : Store → Prop} {r : Outcome RuntimeError Store α}

theorem Leaves.mono (h : Leaves P r) (imp : ∀ s, P s → Q s) : Leaves Q r := by
  cases r with
  | ok a s => exact imp s h
  | error e s => exact imp s h
  | outOfFuel => trivial

end Run

namespace Loop

variable {l : Loop} {s : Store} {round : Scope} {rounds : List Scope}
  {r : Outcome RuntimeError Store Flow}

theorem Tests.keeps {r : Outcome RuntimeError Store Value} (h : l.Tests s r) :
    Leaves (s.Keeps Store.nothing) r := by
  unfold Tests at h
  split at h
  · exact h.leaves fun n => ensures_keeps_evalExpr l.host n l.scope _ s
  · subst h
    exact .refl s

/-- A statement that binds no name keeps the names of all frames. -/
theorem keeps_of_ends {host : Host} {scope : Scope} {stmt : Stmt} (nothing : stmt.boundNames = [])
    (ends : Ends (exec host · scope stmt) s r) : Leaves (s.Keeps Store.nothing) r :=
  ends.leaves fun n => (keepsNames host n).exec s Store.nothing scope stmt
    (fun _ _ mem => absurd (nothing ▸ mem) List.not_mem_nil) s (.refl s)

theorem Increments.keeps (h : l.Increments s r) : Leaves (s.Keeps Store.nothing) r := by
  unfold Increments at h
  split at h
  · exact keeps_of_ends rfl h
  · subst h
    exact Store.Keeps.refl s

/-- A round makes its frame and keeps all names, those of its own frame included. -/
theorem Round.keeps (nothing : l.body.boundNames = []) (h : l.Round s round r) :
    round = ⟨s.frames.size, l.scope.chain⟩ ∧
      Leaves ((s.push l.scope []).2.Keeps Store.nothing) r := by
  cases h with
  | stops pushed ends =>
    cases pushed
    exact ⟨rfl, keeps_of_ends nothing ends⟩
  | completes pushed ends after =>
    cases pushed
    have body : Store.Keeps _ _ _ := keeps_of_ends nothing ends
    exact ⟨rfl, after.keeps.mono fun _ => body.trans⟩

/-- The rounds' frames are new, one after the other, directly in the scope of the loop, and end
without names. -/
structure NewFrames (l : Loop) (s : Store) (rounds : List Scope)
    (r : Outcome RuntimeError Store Flow) : Prop where
  new : ∀ round ∈ rounds, s.frames.size ≤ round.frame
  inside : ∀ round ∈ rounds, round.outer = l.scope.chain
  inOrder : rounds.Pairwise (·.frame < ·.frame)
  blank : ∀ round ∈ rounds, Leaves (Store.Blank round.frame) r

theorem Iterates.keeps (nothing : l.body.boundNames = []) (h : l.Iterates s rounds r) :
    Leaves (s.Keeps Store.nothing) r := by
  induction h with
  | testFails test => exact test.keeps
  | done test => exact test.keeps
  | stops test _ ran =>
    have tested : Store.Keeps _ _ _ := test.keeps
    obtain ⟨-, kept⟩ := ran.keeps nothing
    exact kept.mono fun _ => (tested.trans (Store.keeps_push _ _ _)).trans
  | again test _ ran _ ih =>
    have tested : Store.Keeps _ _ _ := test.keeps
    obtain ⟨-, kept⟩ := ran.keeps nothing
    have sofar := (tested.trans (Store.keeps_push _ _ _)).trans kept
    exact ih.mono fun _ => sofar.trans

/-- The frame of a round, which is made after the test, ends without names. -/
theorem Round.blank (nothing : l.body.boundNames = []) (h : l.Round s round r) :
    Leaves (Store.Blank round.frame) r := by
  obtain ⟨rfl, kept⟩ := h.keeps nothing
  exact kept.mono fun _ keeps => (Store.blank_push s l.scope).of_keeps keeps fun _ => id

theorem Iterates.newFrames (nothing : l.body.boundNames = []) (h : l.Iterates s rounds r) :
    l.NewFrames s rounds r := by
  induction h with
  | testFails test =>
    exact ⟨by simp, by simp, .nil, by simp⟩
  | done test =>
    exact ⟨by simp, by simp, .nil, by simp⟩
  | stops test _ ran =>
    have tested : Store.Keeps _ _ _ := test.keeps
    have blank := ran.blank nothing
    obtain ⟨rfl, -⟩ := ran.keeps nothing
    exact ⟨by simpa using tested.size, by simp, List.pairwise_singleton _ _, by simpa using blank⟩
  | @again s c s₁ round s₂ rounds r test _ ran rest ih =>
    have tested : Store.Keeps _ _ _ := test.keeps
    have blank : Store.Blank _ _ := ran.blank nothing
    obtain ⟨rfl, kept⟩ := ran.keeps nothing
    have later : s₁.frames.size < s₂.frames.size := by
      have grown : Store.Keeps _ _ _ := kept
      exact Nat.lt_of_succ_le (by simpa using grown.size)
    have still := (rest.keeps nothing).mono fun _ keeps => blank.of_keeps keeps fun _ => id
    refine ⟨?_, ?_, ?_, ?_⟩
    · refine List.forall_mem_cons.mpr ⟨tested.size, fun round mem => ?_⟩
      exact Nat.le_trans (Nat.le_trans tested.size (Nat.le_of_lt later)) (ih.new round mem)
    · exact List.forall_mem_cons.mpr ⟨rfl, ih.inside⟩
    · refine List.pairwise_cons.mpr ⟨fun round mem => ?_, ih.inOrder⟩
      exact Nat.lt_of_lt_of_le later (ih.new round mem)
    · exact List.forall_mem_cons.mpr ⟨still, ih.blank⟩

end Loop

/-! ### Layouts -/

namespace Run

variable {α : Type} {layout layout' : Layout} {Q : α → Layout → Prop} {s : Store}
  {r : Outcome RuntimeError Store α}

/-- The store that is left is laid out, and the value that is given, if there is one, has the
property. -/
def EndsLaidOut (Q : α → Layout → Prop) (layout : Layout) : Outcome RuntimeError Store α → Prop
  | .ok a s => s.LaidOut layout ∧ Q a layout
  | .error _ s => s.LaidOut layout
  | .outOfFuel => True

theorem Ends.endsLaidOut {x : Nat → Run α} (ends : Ends x s r) (lays : ∀ n, Lays layout Q (x n))
    (laidOut : s.LaidOut layout) : ∃ layout', layout.Within layout' ∧ EndsLaidOut Q layout' r := by
  obtain ⟨-, n, result⟩ := ends
  have ends := lays n s laidOut
  cases r with
  | ok a s' => exact ends.of_ok result
  | error e s' => exact ends.of_error result
  | outOfFuel => exact ⟨layout, .refl layout, trivial⟩

end Run

namespace Loop

variable {l : Loop} {s : Store} {layout : Layout} {round : Scope} {rounds : List Scope}
  {r : Outcome RuntimeError Store Flow}

theorem Tests.endsLaidOut {r : Outcome RuntimeError Store Value} (h : l.Tests s r)
    (shares : l.host.Shares) (known : layout.scopes l.scope) (laidOut : s.LaidOut layout) :
    ∃ layout', layout.Within layout' ∧ EndsLaidOut Value.Fits layout' r := by
  unfold Tests at h
  split at h
  · exact h.endsLaidOut (fun n => (evalLays shares n).expr _ known) laidOut
  · subst h
    exact ⟨layout, .refl layout, laidOut, trivial⟩

theorem endsLaidOut_of_ends {host : Host} {scope : Scope} {stmt : Stmt}
    (ends : Ends (exec host · scope stmt) s r) (shares : host.Shares)
    (known : layout.scopes scope) (laidOut : s.LaidOut layout) :
    ∃ layout', layout.Within layout' ∧ EndsLaidOut Flow.Fits layout' r :=
  ends.endsLaidOut (fun n => (evalLays shares n).exec stmt known) laidOut

theorem Increments.endsLaidOut (h : l.Increments s r) (shares : l.host.Shares)
    (known : layout.scopes l.scope) (laidOut : s.LaidOut layout) :
    ∃ layout', layout.Within layout' ∧ EndsLaidOut Flow.Fits layout' r := by
  unfold Increments at h
  split at h
  · exact endsLaidOut_of_ends h shares known laidOut
  · subst h
    exact ⟨layout, .refl layout, laidOut, trivial⟩

/-- A new frame without names takes its place in the layout. -/
theorem laidOut_push {scope inner : Scope} {s₁ : Store} (pushed : s.push scope [] = (inner, s₁))
    (known : layout.scopes scope) (laidOut : s.LaidOut layout) :
    ∃ layout', layout.Within layout' ∧ s₁.LaidOut layout' ∧ layout'.scopes inner := by
  cases pushed
  exact ⟨_, layout.within_addScope known _ _, laidOut.push known (by rintro name v ⟨⟩), .inr rfl⟩

theorem Round.endsLaidOut (h : l.Round s round r) (shares : l.host.Shares)
    (known : layout.scopes l.scope) (laidOut : s.LaidOut layout) :
    ∃ layout', layout.Within layout' ∧ layout'.scopes round ∧ EndsLaidOut Flow.Fits layout' r := by
  cases h with
  | stops pushed ends =>
    obtain ⟨layout₁, within₁, laidOut₁, inside⟩ := laidOut_push pushed known laidOut
    obtain ⟨layout₂, within₂, fits⟩ := endsLaidOut_of_ends ends shares inside laidOut₁
    exact ⟨layout₂, within₁.trans within₂, within₂.scopes _ inside, fits⟩
  | completes pushed ends after =>
    obtain ⟨layout₁, within₁, laidOut₁, inside⟩ := laidOut_push pushed known laidOut
    obtain ⟨layout₂, within₂, laidOut₂, -⟩ := endsLaidOut_of_ends ends shares inside laidOut₁
    have sofar := within₁.trans within₂
    obtain ⟨layout₃, within₃, fits⟩ := after.endsLaidOut shares (sofar.scopes _ known) laidOut₂
    exact ⟨layout₃, sofar.trans within₃, (within₂.trans within₃).scopes _ inside, fits⟩

/-- A loop adds the frames of its rounds to the layout. -/
theorem Iterates.endsLaidOut (h : l.Iterates s rounds r) (shares : l.host.Shares)
    (known : layout.scopes l.scope) (laidOut : s.LaidOut layout) :
    ∃ layout', layout.Within layout' ∧ (∀ round ∈ rounds, layout'.scopes round) ∧
      EndsLaidOut Flow.Fits layout' r := by
  induction h generalizing layout with
  | testFails test =>
    obtain ⟨layout₁, within₁, laidOut₁⟩ := test.endsLaidOut shares known laidOut
    exact ⟨layout₁, within₁, by simp, laidOut₁⟩
  | done test =>
    obtain ⟨layout₁, within₁, laidOut₁, -⟩ := test.endsLaidOut shares known laidOut
    exact ⟨layout₁, within₁, by simp, laidOut₁, trivial⟩
  | stops test _ ran =>
    obtain ⟨layout₁, within₁, laidOut₁, -⟩ := test.endsLaidOut shares known laidOut
    obtain ⟨layout₂, within₂, inside, fits⟩ :=
      ran.endsLaidOut shares (within₁.scopes _ known) laidOut₁
    exact ⟨layout₂, within₁.trans within₂, by simpa using inside, fits⟩
  | again test _ ran _ ih =>
    obtain ⟨layout₁, within₁, laidOut₁, -⟩ := test.endsLaidOut shares known laidOut
    obtain ⟨layout₂, within₂, inside, laidOut₂, -⟩ :=
      ran.endsLaidOut shares (within₁.scopes _ known) laidOut₁
    have sofar := within₁.trans within₂
    obtain ⟨layout₃, within₃, others, fits⟩ := ih (sofar.scopes _ known) laidOut₂
    exact ⟨layout₃, sofar.trans within₃,
      List.forall_mem_cons.mpr ⟨within₃.scopes _ inside, others⟩, fits⟩

end Loop

end Lox
