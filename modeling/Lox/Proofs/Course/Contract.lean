import Lox.Proofs.Course.Work

/-!
Contracts for works.

A contract says what holds of the store at every moment, how a later store follows an earlier one,
what is required where a work begins and what the work gives in return. It is kept if every plan
meets it, each work in the plan being relied on for what it gives. Then it is true of whole runs, by
induction on the works that are begun (`Contract.Kept.acts`), and at every moment of them
(`Contract.Kept.visits`). The moments of a run are in an order: of two works, one is begun while the
other is done, or one has ended before the other begins (`Work.Visits.order`). So of two stores of a
course one comes after the other (`Contract.Governs.comparable`). What one contract says may be used
to show that another one is kept (`Contract.Governs.kept_over`).
-/

namespace Lox

open Run

/-- The state in which a computation ends, if it does. -/
def Outcome.state? {ε σ α : Type} : Outcome ε σ α → Option σ
  | .ok _ s | .error _ s => some s
  | .outOfFuel => none

/-! ### Courses and contracts -/

/-- The works that are begun in the course of something, with the stores they are begun from. With a
work come those that it begins. -/
structure Course where
  host : Host
  moments : Work → Store → Prop
  closed : ∀ {w s w' s'}, moments w s → (w.plan host).Begins host s w' s' → moments w' s'

/-- What is required of those who begin works, and what they get. -/
structure Contract where
  /-- Holds of the store at every moment. -/
  holds : Store → Prop
  /-- Relates a store to the later ones. -/
  follows : Store → Store → Prop
  refl : ∀ s, follows s s
  trans : ∀ {s s' s''}, follows s s' → follows s' s'' → follows s s''
  /-- Is required where a work begins. -/
  requires : Work → Store → Prop
  /-- Is true of what a work gives and of the store at that point. -/
  gives : (w : Work) → w.Result → Store → Prop

/-- From one moment to a later one. -/
structure Contract.Step (c : Contract) (s s' : Store) : Prop where
  holds : c.holds s'
  follows : c.follows s s'

theorem Contract.Step.trans {c : Contract} {s s' s'' : Store} (h : c.Step s s')
    (h' : c.Step s' s'') : c.Step s s'' :=
  ⟨h'.holds, c.trans h.follows h'.follows⟩

namespace Run

variable {c : Contract} {α β : Type} {s : Store} {x : Run α} {f : α → Run β}
variable {Q Q' : α → Store → Prop} {R : β → Store → Prop}

/-- If the computation ends from `s`, it has made a step, and its value has the property. -/
def Acts (c : Contract) (s : Store) (x : Run α) (Q : α → Store → Prop) : Prop :=
  Ensures s x (fun a s' => c.Step s s' ∧ Q a s') (fun _ s' => c.Step s s')

theorem Acts.mono (h : Acts c s x Q) (weaker : ∀ a s', c.Step s s' → Q a s' → Q' a s') :
    Acts c s x Q' :=
  Ensures.mono h (fun a s' ⟨step, holds⟩ => ⟨step, weaker a s' step holds⟩) fun _ _ h => h

theorem Acts.state? (h : Acts c s x Q) {s' : Store} (ends : (x s).state? = some s') :
    c.Step s s' := by
  cases result : x s with
  | ok a t =>
    rw [result] at ends
    cases ends
    exact (h.of_ok result).1
  | error e t =>
    rw [result] at ends
    cases ends
    exact h.of_error result
  | outOfFuel =>
    rw [result] at ends
    cases ends

theorem acts_bind (first : Acts c s x Q)
    (next : ∀ a s', c.Step s s' → Q a s' → Acts c s' (f a) R) : Acts c s (x >>= f) R := by
  apply ensures_bind (Q := fun a s' => c.Step s s' ∧ Q a s')
  · exact first
  · rintro a s' ⟨step, holds⟩
    apply Ensures.mono (next a s' step holds)
    · intro b s'' h
      exact ⟨step.trans h.1, h.2⟩
    · intro e s'' h
      exact step.trans h

theorem acts_succeed {a : α} (holds : c.holds s) (result : Q a s) : Acts c s (succeed a) Q :=
  ⟨⟨holds, c.refl s⟩, result⟩

theorem acts_fail {e : RuntimeError} (holds : c.holds s) : Acts c s (fail e) Q :=
  ⟨holds, c.refl s⟩

theorem acts_exhausted : Acts c s exhausted Q := trivial

theorem acts_ofExcept {r : Except RuntimeError α} (holds : c.holds s)
    (result : ∀ a, r = .ok a → Q a s) : Acts c s (ofExcept r) Q := by
  cases r with
  | ok a => exact acts_succeed holds (result a rfl)
  | error e => exact acts_fail holds

theorem acts_change {g : Store → α × Store} (step : c.Step s (g s).2)
    (result : Q (g s).1 (g s).2) : Acts c s (change g) Q :=
  ⟨step, result⟩

end Run

namespace Plan

variable {α : Type}

/-- The plan meets the contract from a store on, and gives something with the property in the end. -/
def Meets (c : Contract) (host : Host) (Q : α → Store → Prop) : Plan α → Store → Prop
  | .done a, s => Q a s
  | .act x next, s => Acts c s x fun b s' => (next b).Meets c host Q s'
  | .work w next, s =>
    c.requires w s ∧ ∀ r s', w.run host s = .ok r s' → c.Step s s' → c.gives w r s' →
      (next r).Meets c host Q s'

end Plan

/-- Every work of the course that begins where its requirements are met has a plan that meets the
contract. -/
def Contract.Kept (c : Contract) (k : Course) : Prop :=
  ∀ w s, k.moments w s → c.holds s → c.requires w s →
    (w.plan k.host).Meets c k.host (c.gives w) s

/-! ### Contracts that are kept -/

section

variable {c : Contract} {k : Course}

/-- A plan that meets the contract from the store on, and whose works are begun in the course. -/
structure Plan.Underway {α : Type} (c : Contract) (k : Course) (Q : α → Store → Prop) (p : Plan α)
    (s : Store) : Prop where
  meets : p.Meets c k.host Q s
  holds : c.holds s
  moments : ∀ {w s'}, p.Begins k.host s w s' → k.moments w s'

/-- When an action is done, the rest of the plan is under way. -/
theorem Plan.Underway.act {α β : Type} {Q : α → Store → Prop} {x : Run β} {next : β → Plan α}
    {s s' : Store} {b : β} (h : Underway c k Q (.act x next) s) (result : x s = .ok b s') :
    c.Step s s' ∧ Underway c k Q (next b) s' := by
  obtain ⟨step, meets⟩ := Ensures.of_ok h.meets result
  exact ⟨step, meets, step.holds, fun begins => h.moments (.act result begins)⟩

/-- What a plan does if the works in it do what the contract says. -/
theorem Plan.Underway.acts {α : Type} {Q : α → Store → Prop} {p : Plan α} {P : Work → Prop}
    {s : Store} (h : Underway c k Q p s) (all : p.All P)
    (works : ∀ w s, P w → k.moments w s → c.holds s → c.requires w s →
      Acts c s (w.run k.host) (c.gives w)) :
    Acts c s (p.run k.host) Q := by
  induction p generalizing s with
  | done a => exact acts_succeed h.holds h.meets
  | act x next ih =>
    -- The rest of the plan depends on what the action has given, so it is kept as a fact.
    have first : Acts c s x fun b s' => x s = .ok b s' :=
      ensures_iff.mpr ⟨fun b s' result => ⟨(h.act result).1, result⟩,
        fun e s' result => Ensures.of_error h.meets result⟩
    apply acts_bind first
    intro b s' step result
    exact ih b (h.act result).2 (all b)
  | work w next ih =>
    obtain ⟨required, rest⟩ := h.meets
    have done := works w s all.1 (h.moments .now) h.holds required
    have first : Acts c s (w.run k.host) fun r s' => w.run k.host s = .ok r s' ∧ c.gives w r s' :=
      ensures_iff.mpr ⟨fun r s' result =>
        ⟨(Ensures.of_ok done result).1, result, (Ensures.of_ok done result).2⟩,
        fun e s' result => Ensures.of_error done result⟩
    apply acts_bind first
    rintro r s' step ⟨result, given⟩
    have underway : Underway c k Q (next r) s' :=
      ⟨rest r s' result step given, step.holds, fun begins => h.moments (.later result begins)⟩
    exact ih r underway (all.2 r)

namespace Contract.Kept

variable (kept : c.Kept k) {w w' : Work} {s s' : Store}
include kept

/-- A work of the course, begun where its requirements are met, has its plan under way. -/
theorem underway (moment : k.moments w s) (holds : c.holds s) (required : c.requires w s) :
    Plan.Underway c k (c.gives w) (w.plan k.host) s :=
  ⟨kept w s moment holds required, holds, k.closed moment⟩

/-- Whatever is done keeps the contract. The induction is on the works in the order of what begins
what. -/
theorem acts (moment : k.moments w s) (holds : c.holds s) (required : c.requires w s) :
    Acts c s (w.run k.host) (c.gives w) := by
  induction w using Work.wellFounded_below.induction generalizing s with
  | _ w ih =>
    rw [w.run_eq_plan]
    exact (kept.underway moment holds required).acts (w.all_plan k.host)
      fun w' s' below moment' holds' required' => ih w' below moment' holds' required'

end Contract.Kept

/-! ### Moments of a course -/

namespace Plan.Underway

variable {α : Type} {Q : α → Store → Prop} {p : Plan α} {w : Work} {s s' : Store}

/-- When a work is done, the rest of the plan is under way. -/
theorem work {next : w.Result → Plan α} {r : w.Result} (h : Underway c k Q (.work w next) s)
    (kept : c.Kept k) (result : w.run k.host s = .ok r s') :
    c.Step s s' ∧ Underway c k Q (next r) s' := by
  obtain ⟨step, given⟩ := (kept.acts (h.moments .now) h.holds h.meets.1).of_ok result
  exact ⟨step, h.meets.2 r s' result step given, step.holds,
    fun begins => h.moments (.later result begins)⟩

/-- What a plan does if the works that it begins are in a course that keeps the contract. -/
theorem run (h : Underway c k Q p s) (kept : c.Kept k) : Acts c s (p.run k.host) Q := by
  have all : p.All fun _ => True := by
    clear h
    induction p with
    | done a => trivial
    | act x next ih => exact ih
    | work w next ih => exact ⟨trivial, ih⟩
  exact h.acts all fun w s _ => kept.acts

/-- Where a plan begins a work, the requirements of the work are met. -/
theorem begins (h : Underway c k Q p s) (kept : c.Kept k) (begins : p.Begins k.host s w s') :
    c.Step s s' ∧ c.requires w s' := by
  induction begins with
  | now => exact ⟨⟨h.holds, c.refl _⟩, h.meets.1⟩
  | later result _ ih =>
    obtain ⟨step, rest⟩ := h.work kept result
    obtain ⟨steps, required⟩ := ih rest
    exact ⟨step.trans steps, required⟩
  | act result _ ih =>
    obtain ⟨step, rest⟩ := h.act result
    obtain ⟨steps, required⟩ := ih rest
    exact ⟨step.trans steps, required⟩

end Plan.Underway

/-- While a work is done that keeps the contract, all works that are begun keep it. -/
theorem Contract.Kept.visits (kept : c.Kept k) {w w' : Work} {s s' : Store}
    (visits : w.Visits k.host s w' s') (moment : k.moments w s) (holds : c.holds s)
    (required : c.requires w s) : k.moments w' s' ∧ c.Step s s' ∧ c.requires w' s' := by
  induction visits with
  | self => exact ⟨moment, ⟨holds, c.refl _⟩, required⟩
  | inner begins _ ih =>
    obtain ⟨step, required⟩ := (kept.underway moment holds required).begins kept begins
    obtain ⟨moment, steps, required⟩ := ih (k.closed moment begins) step.holds required
    exact ⟨moment, step.trans steps, required⟩

/-- The contract is kept, and its requirements are met, at every moment of the course. -/
structure Contract.Governs (c : Contract) (k : Course) : Prop where
  kept : c.Kept k
  holds : ∀ {w s}, k.moments w s → c.holds s
  requires : ∀ {w s}, k.moments w s → c.requires w s

namespace Contract.Governs

variable (h : c.Governs k) {w w' : Work} {s s' : Store} (moment : k.moments w s)
include h moment

theorem underway : Plan.Underway c k (c.gives w) (w.plan k.host) s :=
  h.kept.underway moment (h.holds moment) (h.requires moment)

theorem acts : Acts c s (w.run k.host) (c.gives w) :=
  h.kept.acts moment (h.holds moment) (h.requires moment)

theorem visits (visits : w.Visits k.host s w' s') : c.Step s s' :=
  (h.kept.visits visits moment (h.holds moment) (h.requires moment)).2.1

end Contract.Governs

/-! ### The order of moments -/

/-- The work has ended before the store is reached. -/
def Contract.Before (c : Contract) (k : Course) (w : Work) (s s' : Store) : Prop :=
  ∃ t, (w.run k.host s).state? = some t ∧ c.follows t s'

/-- Of two works, one is begun while the other is done, or one ends before the other begins. -/
def Contract.Ordered (c : Contract) (k : Course) (w₁ : Work) (s₁ : Store) (w₂ : Work)
    (s₂ : Store) : Prop :=
  w₁.Visits k.host s₁ w₂ s₂ ∨ w₂.Visits k.host s₂ w₁ s₁ ∨ c.Before k w₁ s₁ s₂ ∨ c.Before k w₂ s₂ s₁

namespace Contract.Before

variable {w : Work} {s s' s'' : Store}

theorem follows (h : c.Before k w s s') (later : c.follows s' s'') : c.Before k w s s'' := by
  obtain ⟨t, ends, before⟩ := h
  exact ⟨t, ends, c.trans before later⟩

/-- A work that has ended with something ends before whatever follows. -/
theorem of_ok {r : w.Result} (result : w.run k.host s = .ok r s') (later : c.follows s' s'') :
    c.Before k w s s'' :=
  ⟨s', by rw [result]; rfl, later⟩

end Contract.Before

/-- A computation that ends goes on with what it gives, if it gives something. -/
theorem Run.state?_bind {α β : Type} {x : Run α} {f : α → Run β} {s t : Store}
    (ends : ((x >>= f) s).state? = some t) :
    (∃ a s', x s = .ok a s' ∧ (f a s').state? = some t) ∨ ∃ e, x s = .error e t := by
  cases result : x s with
  | ok a s' =>
    rw [bind_of_ok result] at ends
    exact .inl ⟨a, s', rfl, ends⟩
  | error e s' =>
    rw [bind_of_error result] at ends
    cases ends
    exact .inr ⟨e, rfl⟩
  | outOfFuel =>
    rw [bind_of_outOfFuel result] at ends
    cases ends

namespace Plan.Underway

variable {α : Type} {Q : α → Store → Prop} {p : Plan α}

/-- What a plan begins ends before the plan does. -/
theorem ended {w : Work} {s s' t : Store} (h : Underway c k Q p s) (kept : c.Kept k)
    (begins : p.Begins k.host s w s') (ends : (p.run k.host s).state? = some t) :
    c.Before k w s' t := by
  induction begins with
  | now =>
    rcases Run.state?_bind ends with ⟨r, s', result, ends⟩ | ⟨e, result⟩
    · have after := (h.work kept result).2.run kept
      exact .of_ok result (after.state? ends).follows
    · exact ⟨t, by rw [result]; rfl, c.refl t⟩
  | later result _ ih =>
    rw [Plan.run, bind_of_ok result] at ends
    exact ih (h.work kept result).2 ends
  | act result _ ih =>
    rw [Plan.run, bind_of_ok result] at ends
    exact ih (h.act result).2 ends

/-- Of two works that a plan begins, one ends before the other begins, unless they are the same. -/
theorem order {w₁ w₂ : Work} {s s₁ s₂ : Store} (h : Underway c k Q p s) (kept : c.Kept k)
    (begins₁ : p.Begins k.host s w₁ s₁) (begins₂ : p.Begins k.host s w₂ s₂) :
    (w₁ = w₂ ∧ s₁ = s₂) ∨ c.Before k w₁ s₁ s₂ ∨ c.Before k w₂ s₂ s₁ := by
  induction begins₁ with
  | now =>
    cases begins₂ with
    | now => exact .inl ⟨rfl, rfl⟩
    | later result inside =>
      have steps := ((h.work kept result).2.begins kept inside).1
      exact .inr (.inl (.of_ok result steps.follows))
  | later result inside ih =>
    have rest := (h.work kept result).2
    cases begins₂ with
    | now =>
      have steps := (rest.begins kept inside).1
      exact .inr (.inr (.of_ok result steps.follows))
    | later result' inside' =>
      cases result.symm.trans result'
      exact ih rest inside'
  | act result _ ih =>
    cases begins₂ with
    | act result' inside' =>
      cases result.symm.trans result'
      exact ih (h.act result).2 inside'

end Plan.Underway

/-- A work ends after those that are begun while it is done. -/
theorem Work.Visits.ended {w w' : Work} {s s' t : Store} (visits : w.Visits k.host s w' s')
    (governs : c.Governs k) (moment : k.moments w s) (ends : (w.run k.host s).state? = some t) :
    c.Before k w' s' t := by
  induction visits generalizing t with
  | self => exact ⟨t, ends, c.refl t⟩
  | @inner w _ _ _ _ _ begins _ ih =>
    rw [w.run_eq_plan] at ends
    obtain ⟨t₁, ends, before⟩ := (governs.underway moment).ended governs.kept begins ends
    exact (ih (k.closed moment begins) ends).follows before

/-- If a work has ended before another one begins, so have the works in it before those in the
other. -/
theorem Contract.Before.visits {w w' v v' : Work} {s s' t t' : Store} (h : c.Before k w s s')
    (governs : c.Governs k) (moment : k.moments w s) (moment' : k.moments w' s')
    (visits : w.Visits k.host s v t) (visits' : w'.Visits k.host s' v' t') : c.Before k v t t' := by
  obtain ⟨u, ends, before⟩ := h
  have step := governs.visits moment' visits'
  exact (visits.ended governs moment ends).follows (c.trans before step.follows)

/-- All moments at which works begin while one work is done are in an order. -/
theorem Work.Visits.order {w w₁ w₂ : Work} {s s₁ s₂ : Store}
    (visits₁ : w.Visits k.host s w₁ s₁) (visits₂ : w.Visits k.host s w₂ s₂)
    (governs : c.Governs k) (moment : k.moments w s) : c.Ordered k w₁ s₁ w₂ s₂ := by
  induction visits₁ with
  | self => exact .inl visits₂
  | inner begins₁ inside₁ ih =>
    cases visits₂ with
    | self => exact .inr (.inl (.inner begins₁ inside₁))
    | inner begins₂ inside₂ =>
      have moment₁ := k.closed moment begins₁
      have moment₂ := k.closed moment begins₂
      rcases (governs.underway moment).order governs.kept begins₁ begins₂ with
        ⟨rfl, rfl⟩ | before | before
      · exact ih inside₂ moment₁
      · exact .inr (.inr (.inl (before.visits governs moment₁ moment₂ inside₁ inside₂)))
      · exact .inr (.inr (.inr (before.visits governs moment₂ moment₁ inside₂ inside₁)))

end

/-! ### The stores of a course -/

/-- The work, begun with the first store, begins or has ended with the second one. -/
def Work.Touches (host : Host) (w : Work) (s₀ s : Store) : Prop :=
  s = s₀ ∨ (w.run host s₀).state? = some s

/-- The store occurs: a work begins with it or has ended with it. -/
def Store.Occurs (host : Host) (moments : Work → Store → Prop) (s : Store) : Prop :=
  ∃ w s₀, moments w s₀ ∧ w.Touches host s₀ s

namespace Store

variable {host : Host} {moments : Work → Store → Prop} {w : Work} {s t : Store}

theorem occurs_begin (moment : moments w s) : s.Occurs host moments := ⟨w, s, moment, .inl rfl⟩

theorem occurs_end {r : w.Result} (moment : moments w s) (result : w.run host s = .ok r t) :
    t.Occurs host moments :=
  ⟨w, s, moment, .inr (by rw [result]; rfl)⟩

end Store

namespace Contract.Governs

variable {c : Contract} {k : Course} (h : c.Governs k)
include h

/-- A store that a work touches comes after the one it begins with. -/
theorem step_of_touches {w : Work} {s₀ s : Store} (moment : k.moments w s₀)
    (touches : w.Touches k.host s₀ s) : c.Step s₀ s := by
  rcases touches with rfl | ends
  · exact ⟨h.holds moment, c.refl _⟩
  · exact (h.acts moment).state? ends

section

variable {w w' : Work} {s₀ s s₀' s' : Store} (moment : k.moments w s₀)
variable (moment' : k.moments w' s₀') (touches : w.Touches k.host s₀ s)
variable (touches' : w'.Touches k.host s₀' s')
include moment moment' touches touches'

/-- A store that a work touches comes before those of the works in it or after them. -/
theorem comparable_of_visits (visits : w.Visits k.host s₀ w' s₀') :
    c.follows s s' ∨ c.follows s' s := by
  have since := (h.step_of_touches moment' touches').follows
  rcases touches with rfl | ends
  · have step := h.visits moment visits
    exact .inl (c.trans step.follows since)
  · obtain ⟨t, ends', before⟩ := visits.ended h moment ends
    rcases touches' with rfl | ends''
    · have inside := (h.step_of_touches moment' (.inr ends')).follows
      exact .inr (c.trans inside before)
    · cases ends'.symm.trans ends''
      exact .inr before

/-- A store that a work touches comes before those of the works that begin when it has ended. -/
theorem follows_of_before (before : c.Before k w s₀ s₀') : c.follows s s' := by
  obtain ⟨t, ends, before⟩ := before
  have reached : c.follows s t := by
    rcases touches with rfl | ends'
    · exact (h.step_of_touches moment (.inr ends)).follows
    · cases ends.symm.trans ends'
      exact c.refl _
  exact c.trans (c.trans reached before) (h.step_of_touches moment' touches').follows

end

/-- Of two stores of a course whose moments are in an order, one comes after the other. -/
theorem comparable (ordered : ∀ {w₁ s₁ w₂ s₂}, k.moments w₁ s₁ → k.moments w₂ s₂ →
      c.Ordered k w₁ s₁ w₂ s₂) {s s' : Store} (occurs : s.Occurs k.host k.moments)
    (occurs' : s'.Occurs k.host k.moments) : c.follows s s' ∨ c.follows s' s := by
  obtain ⟨w₁, s₁, moment₁, touches₁⟩ := occurs
  obtain ⟨w₂, s₂, moment₂, touches₂⟩ := occurs'
  rcases ordered moment₁ moment₂ with visits | visits | before | before
  · exact h.comparable_of_visits moment₁ moment₂ touches₁ touches₂ visits
  · exact (h.comparable_of_visits moment₂ moment₁ touches₂ touches₁ visits).symm
  · exact .inl (h.follows_of_before moment₁ moment₂ touches₁ touches₂ before)
  · exact .inr (h.follows_of_before moment₂ moment₁ touches₂ touches₁ before)

end Contract.Governs

/-! ### One contract over another -/

/-- If the computation ends from `s` and its step is one of the first contract, it is one of the
second, and its value has the property. -/
def Run.ActsOver {α : Type} (c₀ c : Contract) (s : Store) (x : Run α) (Q : α → Store → Prop) :
    Prop :=
  Ensures s x (fun a s' => c₀.Step s s' → c.Step s s' ∧ Q a s') fun _ s' => c₀.Step s s' → c.Step s s'

/-- The plan meets the second contract where the first one is known to be kept. -/
def Plan.MeetsOver {α : Type} (c₀ c : Contract) (host : Host) (Q : α → Store → Prop) :
    Plan α → Store → Prop
  | .done a, s => Q a s
  | .act x next, s => ActsOver c₀ c s x fun b s' => (next b).MeetsOver c₀ c host Q s'
  | .work w next, s =>
    c.requires w s ∧ ∀ r s', w.run host s = .ok r s' → c.Step s s' → c.gives w r s' →
      (next r).MeetsOver c₀ c host Q s'

section

variable {c₀ c : Contract} {k : Course}

theorem Run.ActsOver.mono {α : Type} {s : Store} {x : Run α} {Q Q' : α → Store → Prop}
    (h : ActsOver c₀ c s x Q)
    (weaker : ∀ a s', x s = .ok a s' → c₀.Step s s' → c.Step s s' → Q a s' → Q' a s') :
    ActsOver c₀ c s x Q' := by
  refine ensures_iff.mpr ⟨fun a s' result known => ?_, fun e s' result => h.of_error result⟩
  obtain ⟨step, holds⟩ := h.of_ok result known
  exact ⟨step, weaker a s' result known step holds⟩

theorem Plan.Underway.meets_of_over {α : Type} {Q₀ Q : α → Store → Prop} {p : Plan α} {s : Store}
    (h : Underway c₀ k Q₀ p s) (kept : c₀.Kept k) (above : p.MeetsOver c₀ c k.host Q s) :
    p.Meets c k.host Q s := by
  induction p generalizing s with
  | done a => exact above
  | act x next ih =>
    refine ensures_iff.mpr ⟨fun b s' result => ?_, fun e s' result => ?_⟩
    · obtain ⟨known, rest⟩ := h.act result
      obtain ⟨step, above⟩ := Ensures.of_ok above result known
      exact ⟨step, ih b rest above⟩
    · exact Ensures.of_error above result (Ensures.of_error h.meets result)
  | work w next ih =>
    obtain ⟨required, above⟩ := above
    refine ⟨required, fun r s' result step given => ?_⟩
    exact ih r (h.work kept result).2 (above r s' result step given)

/-- In a course that one contract governs, another one is kept if all plans meet it over the first. -/
theorem Contract.Governs.kept_over (h : c₀.Governs k)
    (above : ∀ w s, k.moments w s → c.holds s → c.requires w s →
      (w.plan k.host).MeetsOver c₀ c k.host (c.gives w) s) : c.Kept k :=
  fun w s moment holds required =>
    (h.underway moment).meets_of_over h.kept (above w s moment holds required)

end

end Lox
