import Lox.Proofs.Parse.Log

/-!
How a logged parser follows the parser it is written for.

`Asks` says which items a cursor asks for while it moves on, and `Accounts` that the record of a run
is that of such a move, up to an error if there is one. A logged parser that is `Faithful` gives the
results of the parser, accounts for what it asks for, and takes no notice of the items behind those.
It is shown here how this carries over from parsers to what is put together from them; that it holds
of the parsers themselves is shown in `Lox.Proofs.Parse.Faithful`.
-/

namespace Lox

/-- The end of the text is the current token, or it is ahead. -/
def Cursor.Closed (c : Cursor) : Prop :=
  c.token = .eof ∨ ∃ item ∈ c.rest, item.content = .ok .eof

/-- A problem that names the token it is found at names this one. -/
def SyntaxProblem.IsAt (token : Token) : SyntaxProblem → Prop
  | .lexical _ => False
  | .unexpectedToken found _ => found = token
  | .invalidAssignmentTarget => True
  | .expectedExpression found => found = token
  | .expectedIdentifier found => found = token

/-- The item is a token and not the end. -/
def Item.isToken (item : Item) : Bool :=
  match item.content with
  | .ok .eof => false
  | .ok _ => true
  | .error _ => false

theorem Item.isToken_iff {item : Item} :
    item.isToken = true ↔ ∃ token, item.content = .ok token ∧ token ≠ .eof := by
  unfold isToken
  split <;> simp_all

/-- The item is where the error is found: it is a lexical error, or a token with a problem. -/
inductive Item.Causes : Item → SyntaxError → Prop where
  | token {line token problem} : problem.IsAt token → Causes ⟨line, .ok token⟩ ⟨line, problem⟩
  | lexical {line e} : Causes ⟨line, .error e⟩ ⟨line, .lexical e⟩

namespace Parse

/-! ### Items asked for -/

/-- The cursor moves on by asking for the items. It moves past tokens only, never past the end. -/
inductive Asks : Cursor → List Item → Cursor → Prop where
  | nil {c} : Asks c [] c
  | cons {token line next line' rest asked c'} : token ≠ .eof → Asks ⟨next, line', rest⟩ asked c' →
      Asks ⟨token, line, ⟨line', .ok next⟩ :: rest⟩ (⟨line', .ok next⟩ :: asked) c'

/-- The parser stops with an error at a cursor: with a problem at the current token, or because the
next item, which it asks for, is a lexical error. -/
inductive StopsAt : Cursor → List Item → SyntaxError → Prop where
  | here {c problem} : problem.IsAt c.token → StopsAt c [] ⟨c.line, problem⟩
  | ahead {token line line' e rest} : token ≠ .eof →
      StopsAt ⟨token, line, ⟨line', .error e⟩ :: rest⟩ [⟨line', .error e⟩] ⟨line', .lexical e⟩

theorem Asks.append {c c' c'' : Cursor} {asked asked' : List Item} (first : Asks c asked c')
    (second : Asks c' asked' c'') : Asks c (asked ++ asked') c'' := by
  induction first with
  | nil => exact second
  | cons ne _ ih => exact .cons ne (ih second)

theorem Asks.rest_eq {c c' : Cursor} {asked : List Item} (h : Asks c asked c') :
    c.rest = asked ++ c'.rest := by
  induction h with
  | nil => rfl
  | cons _ _ ih => exact congrArg _ ih

theorem Asks.closed {c c' : Cursor} {asked : List Item} (h : Asks c asked c')
    (closed : c.Closed) : c'.Closed := by
  induction h with
  | nil => exact closed
  | @cons token line next line' rest _ _ ne _ ih =>
    obtain ⟨item, mem, ended⟩ := closed.resolve_left ne
    refine ih ?_
    rcases List.mem_cons.mp mem with rfl | mem
    · exact .inl (Except.ok.inj ended)
    · exact .inr ⟨item, mem, ended⟩

theorem Asks.ne_eof {c c' : Cursor} {asked : List Item} (h : Asks c asked c') (ne : asked ≠ []) :
    c.token ≠ .eof := by
  cases h with
  | nil => exact absurd rfl ne
  | cons here _ => exact here

/-- The pass moves past the token at which it begins, by asking for more. -/
def Pass.Moves (p : Pass) : Prop := p.first ≠ .eof ∧ p.asked ≠ []

/-- What a run from the cursor has noted: all it has moved past and, if it has stopped, what it has
stopped at. With the flag set, a run that gives a value has asked for something. -/
inductive Accounts {α : Type} (reads : Bool) (c : Cursor) : Log × Result α → Prop where
  | ok {log a c'} : Asks c log.asked c' → (reads = true → log.asked ≠ []) →
      (∀ p ∈ log.passes, p.Moves) → Accounts reads c (log, .ok a c')
  | error {log front c' back e} : Asks c front c' → StopsAt c' back e →
      log.asked = front ++ back → (∀ p ∈ log.passes, p.Moves ∨ p.stopped = true) →
      Accounts reads c (log, .error e)
  | outOfFuel {log} : Accounts reads c (log, .outOfFuel)

/-! ### What a run comes to -/

/-- Behind the last item asked for nothing else has been asked for: the items before it are tokens
and not the end, and it is the current token. -/
theorem Asks.exists_last {c c' : Cursor} {asked : List Item} (h : Asks c asked c')
    (ne : asked ≠ []) :
    ∃ read, asked = read ++ [⟨c'.line, .ok c'.token⟩] ∧ ∀ item ∈ read, item.isToken = true := by
  induction h with
  | nil => exact absurd rfl ne
  | @cons token line next line' rest asked c' _ behind ih =>
    by_cases more : asked = []
    · subst more
      cases behind
      exact ⟨[], rfl, List.forall_mem_nil _⟩
    · obtain ⟨read, rfl, tokens⟩ := ih more
      refine ⟨⟨line', .ok next⟩ :: read, rfl, List.forall_mem_cons.mpr ⟨?_, tokens⟩⟩
      exact Item.isToken_iff.mpr ⟨next, rfl, behind.ne_eof more⟩

/-- A run that has asked for something and was not short of fuel has asked for the items ahead, up
to a last one: all before it are tokens and not the end, and an error is found there. -/
theorem Accounts.exists_last {α : Type} {reads : Bool} {c : Cursor} {log : Log} {result : Result α}
    (h : Accounts reads c (log, result)) (answered : result ≠ .outOfFuel) (ne : log.asked ≠ []) :
    log.asked <+: c.rest ∧ ∃ read last, log.asked = read ++ [last] ∧
      (∀ item ∈ read, item.isToken = true) ∧ ∀ e, result = .error e → last.Causes e := by
  cases h with
  | ok asks _ _ =>
    obtain ⟨read, eq, tokens⟩ := asks.exists_last ne
    exact ⟨⟨_, asks.rest_eq.symm⟩, read, _, eq, tokens, by simp⟩
  | @error _ front c' back e asks stops eq _ =>
    rw [eq] at ne ⊢
    rw [asks.rest_eq]
    cases stops with
    | here found =>
      rw [List.append_nil] at ne ⊢
      obtain ⟨read, rfl, tokens⟩ := asks.exists_last ne
      refine ⟨List.prefix_append _ _, read, _, rfl, tokens, ?_⟩
      rintro _ ⟨⟩
      exact .token found
    | @ahead token line line' e rest here =>
      refine ⟨⟨rest, by simp⟩, front, _, rfl, ?_, ?_⟩
      · by_cases none : front = []
        · exact none ▸ List.forall_mem_nil _
        · obtain ⟨read, rfl, tokens⟩ := asks.exists_last none
          refine List.forall_mem_append.mpr ⟨tokens, List.forall_mem_singleton.mpr ?_⟩
          exact Item.isToken_iff.mpr ⟨token, rfl, here⟩
      · rintro _ ⟨⟩
        exact .lexical
  | outOfFuel => exact absurd rfl answered

/-! ### Following a parser -/

/-- The result with other items ahead. -/
def Result.onto {α : Type} (rest : List Item) : Result α → Result α
  | .ok a c => .ok a { c with rest := rest }
  | .error e => .error e
  | .outOfFuel => .outOfFuel

/-- From each token with the property, the logged parser gives the results of the parser and
accounts for what it moves past, and where the items ahead begin with those it asks for, the others
do not matter. -/
structure Follows {α : Type} (P : Token → Prop) (reads : Bool) (p : Parser α) (q : Logged α) :
    Prop where
  erases : ∀ c, P c.token → (q c).2 = p c
  accounts : ∀ c, P c.token → c.Closed → Accounts reads c (q c)
  same : ∀ {token line used behind log result}, P token →
    q ⟨token, line, used ++ behind⟩ = (log, result) → log.asked = used →
    ∀ rest, q ⟨token, line, used ++ rest⟩ = (log, result.onto rest)

/-- Besides, where it stops at an invalid target, no value was possible any more: the items before
the last one that it has asked for rule that out, whatever stands behind them. -/
structure Faithful {α : Type} (P : Token → Prop) (reads : Bool) (p : Parser α) (q : Logged α) : Prop
    extends Follows P reads p q where
  doomed : ∀ {token line used behind log l}, P token →
    q ⟨token, line, used ++ behind⟩ = (log, .error ⟨l, .invalidAssignmentTarget⟩) →
    log.asked = used → used ≠ [] ∧ ∀ rest a c, (q ⟨token, line, used.dropLast ++ rest⟩).2 ≠ .ok a c

/-- Every token. -/
def Anywhere (_ : Token) : Prop := True

/-! ### How parsers are put together -/

section

variable {α β : Type} {P : Token → Prop} {reads reads' : Bool} {p : Parser α} {q : Logged α}
  {f : α → Parser β} {g : α → Logged β}

theorem Logged.bind_of_ok {c c' : Cursor} {log : Log} {a : α} (h : q c = (log, .ok a c')) :
    (q >>= g) c = (log ++ (g a c').1, (g a c').2) := by
  change Logged.andThen q g c = _
  rw [Logged.andThen, h]

theorem Logged.bind_of_error {c : Cursor} {log : Log} {e : SyntaxError}
    (h : q c = (log, .error e)) : (q >>= g) c = (log, .error e) := by
  change Logged.andThen q g c = _
  rw [Logged.andThen, h]

theorem Logged.bind_of_outOfFuel {c : Cursor} {log : Log} (h : q c = (log, .outOfFuel)) :
    (q >>= g) c = (log, .outOfFuel) := by
  change Logged.andThen q g c = _
  rw [Logged.andThen, h]

theorem Logged.ok_of_bind {c c'' : Cursor} {b : β} (h : ((q >>= g) c).2 = .ok b c'') :
    ∃ a c', (q c).2 = .ok a c' ∧ (g a c').2 = .ok b c'' := by
  rcases run : q c with ⟨log, ⟨a, c'⟩ | e | _⟩
  · rw [Logged.bind_of_ok run] at h
    exact ⟨a, c', rfl, h⟩
  · rw [Logged.bind_of_error run] at h
    cases h
  · rw [Logged.bind_of_outOfFuel run] at h
    cases h

/-- Where a run that gives a value has asked for all items but those ahead, those are still ahead
of it, and any others would be. -/
theorem Follows.ahead (h : Follows P reads p q) {token : Token} {line : Nat} {log : Log}
    {ahead : List Item} {a : α} {c : Cursor} (holds : P token)
    (run : q ⟨token, line, log.asked ++ ahead⟩ = (log, .ok a c)) :
    c.rest = ahead ∧
      ∀ rest, q ⟨token, line, log.asked ++ rest⟩ = (log, .ok a { c with rest := rest }) := by
  have again := h.same holds run rfl
  have same := Result.ok.inj (congrArg Prod.snd (run.symm.trans (again ahead)))
  exact ⟨congrArg Cursor.rest same.2, again⟩

theorem Asks.accounts {c c' : Cursor} {log : Log} (asks : Asks c log.asked c')
    (moves : ∀ p ∈ log.passes, p.Moves) {run : Log × Result α} (next : Accounts reads' c' run)
    (any : reads = true → log.asked ≠ [] ∨ reads' = true) :
    Accounts reads c (log ++ run.1, run.2) := by
  cases next with
  | @ok log' a c'' asks' some' moves' =>
    refine .ok (asks.append asks') (fun h => ?_) (List.forall_mem_append.mpr ⟨moves, moves'⟩)
    rcases any h with ne | h'
    · exact List.append_ne_nil_of_left_ne_nil ne _
    · exact List.append_ne_nil_of_right_ne_nil _ (some' h')
  | @error log' front c'' back e asks' stops eq moves' =>
    refine .error (asks.append asks') stops ?_
      (List.forall_mem_append.mpr ⟨fun p mem => .inl (moves p mem), moves'⟩)
    show log.asked ++ log'.asked = _
    rw [eq, List.append_assoc]
  | outOfFuel => exact .outOfFuel

theorem follows_bind_of {s : Bool} (first : Follows P reads p q)
    (next : ∀ a, Follows Anywhere reads' (f a) (g a))
    (any : s = true → reads = true ∨ reads' = true) : Follows P s (p >>= f) (q >>= g) where
  erases c hc := by
    show _ = andThen p f c
    rw [andThen, ← first.erases c hc]
    rcases run : q c with ⟨log, ⟨a, c'⟩ | e | _⟩
    · rw [Logged.bind_of_ok run]
      exact (next a).erases c' trivial
    · rw [Logged.bind_of_error run]
    · rw [Logged.bind_of_outOfFuel run]
  accounts c hc closed := by
    have done := first.accounts c hc closed
    rcases run : q c with ⟨log, ⟨a, c'⟩ | e | _⟩
    all_goals rw [run] at done
    · rw [Logged.bind_of_ok run]
      cases done with
      | ok asks some moves =>
        have behind := (next a).accounts c' trivial (asks.closed closed)
        exact asks.accounts moves behind fun h => (any h).imp_left some
    · rw [Logged.bind_of_error run]
      cases done with
      | error asks stops eq moves => exact .error asks stops eq moves
    · rw [Logged.bind_of_outOfFuel run]
      exact .outOfFuel
  same := by
    intro token line used behind log result h run asked rest
    rcases run₁ : q ⟨token, line, used ++ behind⟩ with ⟨log₁, ⟨a, c₁⟩ | e | _⟩
    · rcases run₂ : g a c₁ with ⟨log₂, result₂⟩
      rw [Logged.bind_of_ok run₁, run₂] at run
      cases run
      obtain rfl : log₁.asked ++ log₂.asked = used := asked
      rw [List.append_assoc] at run₁ ⊢
      obtain ⟨ahead, again⟩ := first.ahead h run₁
      obtain ⟨token₁, line₁, _⟩ := c₁
      subst ahead
      rw [Logged.bind_of_ok (again _), (next a).same trivial run₂ rfl rest]
    · rw [Logged.bind_of_error run₁] at run
      cases run
      exact Logged.bind_of_error (first.same h run₁ asked rest)
    · rw [Logged.bind_of_outOfFuel run₁] at run
      cases run
      exact Logged.bind_of_outOfFuel (first.same h run₁ asked rest)

theorem faithful_bind_of {s : Bool} (first : Faithful P reads p q)
    (next : ∀ a, Faithful Anywhere reads' (f a) (g a))
    (any : s = true → reads = true ∨ reads' = true) : Faithful P s (p >>= f) (q >>= g) where
  toFollows := follows_bind_of first.toFollows (fun a => (next a).toFollows) any
  doomed := by
    intro token line used behind log l h run asked
    rcases run₁ : q ⟨token, line, used ++ behind⟩ with ⟨log₁, ⟨a, c₁⟩ | e | _⟩
    · rcases run₂ : g a c₁ with ⟨log₂, result₂⟩
      rw [Logged.bind_of_ok run₁, run₂] at run
      cases run
      obtain rfl : log₁.asked ++ log₂.asked = used := asked
      rw [List.append_assoc] at run₁
      obtain ⟨ahead, again⟩ := first.ahead h run₁
      obtain ⟨token₁, line₁, _⟩ := c₁
      subst ahead
      obtain ⟨ne, never⟩ := (next a).doomed trivial run₂ rfl
      refine ⟨List.append_ne_nil_of_right_ne_nil _ ne, fun rest => ?_⟩
      rw [List.dropLast_append_of_ne_nil ne, List.append_assoc, Logged.bind_of_ok (again _)]
      exact never rest
    · rw [Logged.bind_of_error run₁] at run
      cases run
      obtain ⟨ne, never⟩ := first.doomed h run₁ asked
      refine ⟨ne, fun rest b c result => ?_⟩
      obtain ⟨a, c', result, -⟩ := Logged.ok_of_bind result
      exact never rest a c' result
    · rw [Logged.bind_of_outOfFuel run₁] at run
      cases run

/-- What is read is what the first parser reads. -/
theorem faithful_then (first : Faithful P reads p q)
    (next : ∀ a, Faithful Anywhere false (f a) (g a)) : Faithful P reads (p >>= f) (q >>= g) :=
  faithful_bind_of first next .inl

/-- What is read is what the second parser reads. -/
theorem faithful_bind (first : Faithful P false p q)
    (next : ∀ a, Faithful Anywhere reads (f a) (g a)) : Faithful P reads (p >>= f) (q >>= g) :=
  faithful_bind_of first next .inr

theorem faithful_current {f : Token → Parser β} {g : Token → Logged β}
    (next : ∀ token, P token → Faithful (· = token) reads (f token) (g token)) :
    Faithful P reads (Parse.current >>= f) (Logged.current >>= g) where
  erases c h := (next c.token h).erases c rfl
  accounts c h closed := (next c.token h).accounts c rfl closed
  same h run asked := (next _ h).same rfl run asked
  doomed h run asked := (next _ h).doomed rfl run asked

theorem faithful_ite {c : Prop} [Decidable c] {p' : Parser α} {q' : Logged α}
    (yes : c → Faithful P reads p q) (no : ¬ c → Faithful P reads p' q') :
    Faithful P reads (if c then p else p') (if c then q else q') := by
  by_cases h : c
  · rw [if_pos h, if_pos h]
    exact yes h
  · rw [if_neg h, if_neg h]
    exact no h

theorem Faithful.at (h : Faithful Anywhere reads p q) : Faithful P reads p q where
  erases c _ := h.erases c trivial
  accounts c _ := h.accounts c trivial
  same _ := h.same trivial
  doomed _ := h.doomed trivial

theorem faithful_succeed {a : α} : Faithful P false (Parse.succeed a) (Logged.succeed a) where
  erases _ _ := rfl
  accounts _ _ _ := .ok .nil (by simp) (List.forall_mem_nil _)
  same _ run asked rest := by
    cases run
    cases asked
    rfl
  doomed _ run _ := by cases run

theorem Faithful.map (h : Faithful P reads p q) (f : α → β) :
    Faithful P reads (p >>= fun a => Parse.succeed (f a))
      (q >>= fun a => Logged.succeed (f a)) :=
  faithful_then h fun _ => faithful_succeed

theorem faithful_exhausted : Faithful P reads (Parse.exhausted : Parser α) Logged.exhausted where
  erases _ _ := rfl
  accounts _ _ _ := .outOfFuel
  same _ run asked rest := by
    cases run
    cases asked
    rfl
  doomed _ run _ := by cases run

theorem follows_fail {problem : SyntaxProblem} (found : ∀ token, P token → problem.IsAt token) :
    Follows P reads (Parse.fail problem : Parser α) (Logged.fail problem) where
  erases _ _ := rfl
  accounts c h _ := .error .nil (.here (found c.token h)) rfl (List.forall_mem_nil _)
  same _ run asked rest := by
    cases run
    cases asked
    rfl

/-- Stopping at the current token with a problem that is its own, and not that of a target before
it. -/
theorem faithful_fail {problem : SyntaxProblem} {token : Token}
    (ne : problem ≠ .invalidAssignmentTarget) (found : problem.IsAt token) :
    Faithful (· = token) reads (Parse.fail problem : Parser α) (Logged.fail problem) where
  toFollows := follows_fail fun _ same => same ▸ found
  doomed _ run _ := by
    cases run
    exact absurd rfl ne

theorem Logged.pass_eq {loop : Loop} {c : Cursor} {log : Log} {result : Result α}
    (run : q c = (log, result)) : pass loop q c =
      (log ++ ⟨[], [⟨loop, c.token, log.asked, result.isError⟩]⟩, result) := by
  rw [pass, run]

/-- A pass through a loop asks for something, or stops, if its body does. -/
theorem Faithful.pass (h : Faithful P true p q) (loop : Loop) :
    Faithful P reads p (Logged.pass loop q) where
  erases := h.erases
  accounts c hc closed := by
    have done := h.accounts c hc closed
    rcases run : q c with ⟨log, result⟩
    rw [run] at done
    rw [Logged.pass_eq run]
    cases done with
    | ok asks some moves =>
      refine .ok (asks.append .nil) (fun _ => ?_) (List.forall_mem_append.mpr ⟨moves, ?_⟩)
      · exact List.append_ne_nil_of_left_ne_nil (some rfl) _
      · exact List.forall_mem_singleton.mpr ⟨asks.ne_eof (some rfl), some rfl⟩
    | error asks stops eq moves =>
      refine .error asks stops ((List.append_nil _).trans eq)
        (List.forall_mem_append.mpr ⟨moves, ?_⟩)
      exact List.forall_mem_singleton.mpr (.inr rfl)
    | outOfFuel => exact .outOfFuel
  same := by
    intro token line used behind log result holds run asked rest
    rcases run' : q ⟨token, line, used ++ behind⟩ with ⟨log', result'⟩
    rw [Logged.pass_eq run'] at run
    cases run
    obtain rfl : log'.asked = used := (List.append_nil _).symm.trans asked
    rw [Logged.pass_eq (h.same holds run' rfl rest)]
    cases result <;> rfl
  doomed := by
    intro token line used behind log l holds run asked
    rcases run' : q ⟨token, line, used ++ behind⟩ with ⟨log', result'⟩
    rw [Logged.pass_eq run'] at run
    cases run
    exact h.doomed holds run' ((List.append_nil _).symm.trans asked)

/-! ### Reading a token -/

theorem faithful_advance {token : Token} (ne : token ≠ .eof) :
    Faithful (· = token) reads Parse.advance Logged.advance where
  erases _ _ := rfl
  accounts := by
    rintro ⟨_, line, rest⟩ rfl closed
    obtain ⟨item, mem, ended⟩ := closed.resolve_left ne
    obtain ⟨⟨line', e | next⟩, rest, rfl⟩ := List.exists_cons_of_ne_nil (List.ne_nil_of_mem mem)
    · exact .error .nil (.ahead ne) rfl (List.forall_mem_nil _)
    · exact .ok (.cons ne .nil) (fun _ => List.cons_ne_nil _ _) (List.forall_mem_nil _)
  same := by
    rintro token line used behind log result - run asked rest
    cases run
    rcases used with _ | ⟨⟨line', e | next⟩, _ | _⟩ <;> cases asked <;> rfl
  doomed := by
    rintro token line used behind log l - run asked
    have logged : _ = used := (congrArg (fun run => run.1.asked) run).trans asked
    rcases used with _ | ⟨⟨line', e | next⟩, used⟩
    · cases logged
    · cases run
    · cases run

theorem Logged.asked_ne_nil {g : Unit → Logged β} {c : Cursor} {log : Log} {result : Result β}
    (run : (Logged.advance >>= g) c = (log, result)) : log.asked ≠ [] := by
  rcases read : Logged.advance c with ⟨log', ⟨a, c'⟩ | e | _⟩
  all_goals
    have first : [c.next] = log'.asked := congrArg (fun run => run.1.asked) read
    have ne : log'.asked ≠ [] := first ▸ List.cons_ne_nil _ _
  · rw [Logged.bind_of_ok read] at run
    cases run
    exact List.append_ne_nil_of_left_ne_nil ne _
  · rw [Logged.bind_of_error read] at run
    cases run
    exact ne
  · rw [Logged.bind_of_outOfFuel read] at run
    cases run
    exact ne

/-- Past a token that is not the end, with what is read behind it. -/
theorem faithful_past {token : Token} {f : Unit → Parser β} {g : Unit → Logged β}
    (ne : token ≠ .eof) (next : Faithful Anywhere false (f ()) (g ())) :
    Faithful (· = token) reads (Parse.advance >>= f) (Logged.advance >>= g) :=
  faithful_then (faithful_advance ne) fun _ => next

theorem faithful_expect {expected : Token} (ne : expected ≠ .eof) :
    Faithful P reads (Parse.expect expected) (Logged.expect expected) := by
  refine faithful_current fun token _ => faithful_ite (fun found => ?_) fun other => ?_
  · rw [if_neg ne, if_neg ne]
    exact faithful_advance (found ▸ ne)
  · exact faithful_fail (by simp) rfl

theorem faithful_expected {expected : Token} {f : Unit → Parser β} {g : Unit → Logged β}
    (ne : expected ≠ .eof) (next : Faithful Anywhere false (f ()) (g ())) :
    Faithful P reads (Parse.expect expected >>= f) (Logged.expect expected >>= g) :=
  faithful_then (faithful_expect ne) fun _ => next

/-- The end of the text is checked without reading. -/
theorem faithful_expect_eof : Faithful P false (Parse.expect .eof) (Logged.expect .eof) := by
  refine faithful_current fun token _ => faithful_ite (fun _ => faithful_succeed) fun _ => ?_
  exact faithful_fail (by simp) rfl

theorem faithful_identifier : Faithful P reads Parse.identifier Logged.identifier := by
  refine faithful_current fun token _ => ?_
  cases token with
  | identifier name => exact faithful_past (by simp) faithful_succeed
  | _ => exact faithful_fail (by simp) rfl

end

/-! ### The bodies of loops -/

section

variable {α β γ : Type}

theorem bind_assoc (p : Parser α) (f : α → Parser β) (g : β → Parser γ) :
    (p >>= f) >>= g = p >>= fun a => f a >>= g := by
  funext c
  show andThen (andThen p f) g c = andThen p (fun a => andThen (f a) g) c
  unfold andThen
  cases p c <;> rfl

theorem succeed_bind (a : α) (f : α → Parser β) : succeed a >>= f = f a := rfl

theorem ite_bind {c : Prop} [Decidable c] (p q : Parser α) (f : α → Parser β) :
    (if c then p else q) >>= f = if c then p >>= f else q >>= f := by
  split <;> rfl

/-- An item of a list, and whether a comma stands behind it. -/
def listed (p : Parser α) : Parser (α × Bool) := do
  let a ← p
  if (← current) = .mark .comma then
    advance
    succeed (a, true)
  else succeed (a, false)

theorem listed_bind (p : Parser α) (more last : α → Parser β) :
    (listed p >>= fun item => if item.2 then more item.1 else last item.1) = (do
      let a ← p
      if (← current) = .mark .comma then
        advance
        more a
      else last a) := by
  simp [listed, bind_assoc, ite_bind, succeed_bind]

theorem Faithful.listed {P : Token → Prop} {reads : Bool} {p : Parser α} {q : Logged α}
    (h : Faithful P reads p q) : Faithful P reads (Parse.listed p) (Logged.listed q) := by
  refine faithful_then h fun a => faithful_current fun token _ => ?_
  refine faithful_ite (fun found => ?_) fun _ => faithful_succeed
  exact faithful_past (by simp [found]) faithful_succeed

/-- The arguments of a call, with their parentheses. -/
def closedArguments (fuel : Nat) : Parser (List Expr) := do
  advance
  if (← current) = .mark .rightParen then
    advance
    succeed []
  else
    let args ← arguments fuel
    expect (.mark .rightParen)
    succeed args

theorem closedArguments_bind (fuel : Nat) (f : List Expr → Parser β) :
    closedArguments fuel >>= f = (do
      advance
      if (← current) = .mark .rightParen then
        advance
        f []
      else
        let args ← arguments fuel
        expect (.mark .rightParen)
        f args) := by
  simp only [closedArguments, bind_assoc, ite_bind, succeed_bind]

end
end Parse

end Lox
