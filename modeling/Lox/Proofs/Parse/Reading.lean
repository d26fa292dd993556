import Lox.Parse.Program

/-!
Which tokens a parser has read.

`Reads c toks c'` says that the cursor moves past the tokens `toks`, from `c` to `c'`. A parser that
succeeds is taken apart with `bind_eq_ok`, and the tokens it has read are put together again with
`Reads.append`. Reading on to the end of the text gives all the tokens that are ahead
(`tokensFrom_eq_ok`).
-/

namespace Lox.Parse

/-! ### Running parsers one after the other -/

section

variable {α β : Type}

@[simp] theorem current_bind (f : Token → Parser β) (c : Cursor) :
    (current >>= f) c = f c.token c := rfl

theorem bind_eq_ok {p : Parser α} {f : α → Parser β} {c c'' : Cursor} {b : β} :
    (p >>= f) c = .ok b c'' ↔ ∃ a c', p c = .ok a c' ∧ f a c' = .ok b c'' := by
  change andThen p f c = .ok b c'' ↔ _
  unfold andThen
  cases p c with
  | ok a c' => simp [and_assoc]
  | error e => simp
  | outOfFuel => simp

/-- A parser that looks at the current token goes on with it. -/
theorem exists_current {f : Token → Parser β} {c c' : Cursor} {b : β}
    (h : (current >>= f) c = .ok b c') : ∃ token, c.token = token ∧ f token c = .ok b c' :=
  ⟨c.token, rfl, h⟩

theorem succeed_eq_ok {a b : α} {c c' : Cursor} : succeed a c = .ok b c' ↔ a = b ∧ c = c' := by
  simp [succeed]

@[simp] theorem fail_ne_ok {problem : SyntaxProblem} {c c' : Cursor} {a : α} :
    fail problem c ≠ .ok a c' := by
  simp [fail]

@[simp] theorem exhausted_ne_ok {c c' : Cursor} {a : α} : exhausted c ≠ .ok a c' := by
  simp [exhausted]

end

/-! ### Reading tokens -/

/-- The cursor moves past some tokens. -/
inductive Reads : Cursor → List Token → Cursor → Prop where
  | nil {c} : Reads c [] c
  | cons {c c' c'' toks} : c.token ≠ .eof → advance c = .ok () c' → Reads c' toks c'' →
      Reads c (c.token :: toks) c''

theorem Reads.append {c c' c'' : Cursor} {toks toks' : List Token} (first : Reads c toks c')
    (second : Reads c' toks' c'') : Reads c (toks ++ toks') c'' := by
  induction first with
  | nil => exact second
  | cons ne step _ ih => exact .cons ne step (ih second)

theorem Reads.one {c c' : Cursor} {token : Token} (ne : token ≠ .eof) (h : c.token = token)
    (step : advance c = .ok () c') : Reads c [token] c' := by
  subst h
  exact .cons ne step .nil

theorem reads_append_iff {c c'' : Cursor} {toks toks' : List Token} :
    Reads c (toks ++ toks') c'' ↔ ∃ c', Reads c toks c' ∧ Reads c' toks' c'' := by
  constructor
  · induction toks generalizing c with
    | nil => exact fun h => ⟨c, .nil, h⟩
    | cons token toks ih =>
      intro h
      cases h with
      | cons ne step rest =>
        obtain ⟨c', first, second⟩ := ih rest
        exact ⟨c', .cons ne step first, second⟩
  · rintro ⟨c', first, second⟩
    exact first.append second

theorem reads_cons_iff {c c'' : Cursor} {token : Token} {toks : List Token} :
    Reads c (token :: toks) c'' ↔
      c.token = token ∧ token ≠ .eof ∧ ∃ c', advance c = .ok () c' ∧ Reads c' toks c'' := by
  constructor
  · intro h
    cases h with
    | cons ne step rest => exact ⟨rfl, ne, _, step, rest⟩
  · rintro ⟨rfl, ne, c', step, rest⟩
    exact .cons ne step rest

theorem Reads.token {token : Token} {toks : List Token} {c c' : Cursor}
    (reads : Reads c (token :: toks) c') : c.token = token :=
  (reads_cons_iff.mp reads).1

@[simp] theorem reads_nil_iff {c c' : Cursor} : Reads c [] c' ↔ c = c' := by
  constructor
  · intro h
    cases h
    rfl
  · rintro rfl
    exact .nil

theorem expect_eq_ok {expected : Token} {c c' : Cursor} (ne : expected ≠ .eof) :
    expect expected c = .ok () c' ↔ Reads c [expected] c' := by
  unfold expect
  rw [current_bind, reads_cons_iff]
  by_cases h : c.token = expected <;> simp [h, ne]

theorem identifier_eq_ok {c c' : Cursor} {name : Name} :
    identifier c = .ok name c' ↔ Reads c [.identifier name] c' := by
  unfold identifier
  rw [current_bind, reads_cons_iff]
  cases h : c.token with
  | identifier found =>
    simp only [bind_eq_ok, succeed_eq_ok, reads_nil_iff]
    constructor
    · rintro ⟨_, c₁, step, rfl, rfl⟩
      simp [step]
    · rintro ⟨same, -, c₁, step, rfl⟩
      cases same
      exact ⟨(), c₁, step, rfl, rfl⟩
  | _ => simp

/-! ### The tokens ahead -/

theorem tokens_cons {line : Nat} {token : Token} {rest : List Item} (ne : token ≠ .eof) :
    Item.tokens (⟨line, .ok token⟩ :: rest) = (Item.tokens rest).map (token :: ·) := by
  cases token with
  | eof => exact absurd rfl ne
  | _ => simp only [Item.tokens]; cases Item.tokens rest <;> simp [Except.map]

/-- The tokens from a cursor on, or the first lexical error among the items. -/
def tokensFrom (c : Cursor) : Except (Nat × LexicalError) (List Token) :=
  if c.token = .eof then .ok [] else (Item.tokens c.rest).map (c.token :: ·)

/-- The next item can be read as a token exactly if no lexical error stands in its place. -/
theorem tokens_rest_eq_ok {c : Cursor} {toks : List Token} :
    Item.tokens c.rest = .ok toks ↔ ∃ c', advance c = .ok () c' ∧ tokensFrom c' = .ok toks := by
  unfold advance tokensFrom
  cases c.rest with
  | nil => simp [Item.tokens]
  | cons item rest =>
    obtain ⟨line, content⟩ := item
    cases content with
    | error e => simp [Item.tokens]
    | ok token =>
      by_cases h : token = .eof
      · subst h
        simp [Item.tokens]
      · simp [tokens_cons h, h]

/-- The tokens ahead are those that are read on the way to the end of the text. -/
theorem tokensFrom_eq_ok {c : Cursor} {toks : List Token} :
    tokensFrom c = .ok toks ↔ ∃ c', Reads c toks c' ∧ c'.token = .eof := by
  induction toks generalizing c with
  | nil =>
    unfold tokensFrom
    split
    · simp_all
    · cases Item.tokens c.rest <;> simp_all [Except.map]
  | cons token toks ih =>
    simp only [reads_cons_iff]
    unfold tokensFrom
    split
    · simp_all
    · rename_i ne
      constructor
      · intro h
        cases rest : Item.tokens c.rest with
        | error e => simp [rest, Except.map] at h
        | ok more =>
          simp only [rest, Except.map, Except.ok.injEq, List.cons.injEq] at h
          obtain ⟨rfl, rfl⟩ := h
          obtain ⟨c₁, step, ahead⟩ := tokens_rest_eq_ok.mp rest
          obtain ⟨c', reads, eof⟩ := ih.mp ahead
          exact ⟨c', ⟨rfl, ne, c₁, step, reads⟩, eof⟩
      · rintro ⟨c', ⟨rfl, -, c₁, step, reads⟩, eof⟩
        rw [tokens_rest_eq_ok.mpr ⟨c₁, step, ih.mpr ⟨c', reads, eof⟩⟩]
        rfl

end Lox.Parse
