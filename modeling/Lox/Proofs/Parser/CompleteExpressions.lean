import Lox.Proofs.Parser.SoundExpressions

/-!
# What the grammar derives, the parser accepts: expressions

A phrase is read to its end if what follows cannot make it longer. At the levels with a loop the
induction hypothesis stops inside the loop, with the phrase read so far in its hands: this is what
lets a left associative derivation, whose first operand is itself of the level, be followed by a loop
that goes from left to right. Marks are compared by `Expr.unmarked`.
-/

namespace Lox.Parser

open Grammar

variable {eof : Token} {n k : Nat} {ts us rest : List Token} {i : NodeId} {reports : List Report}

/-! ## First tokens -/

/-- The symbols that start a primary expression. -/
def primaryStarts : List Symbol :=
  [.falseKw, .trueKw, .nilKw, .superKw, .thisKw, .identifier, .leftParen]

/-- Whether a token starts an expression of a level. -/
def starts (l : Level) (t : Token) : Prop :=
  match t.kind with
  | .symbol a => a ∈ primaryStarts ∨ (l ≠ .call ∧ l ≠ .primary ∧ (a = .bang ∨ a = .minus))
  | _ => True

theorem starts_of_primary {t : Token} {a : Symbol} (h : t.is a = true) (ha : a ∈ primaryStarts)
    (l : Level) : starts l t := by
  rw [starts, kind_eq_of_is h]
  exact .inl ha

theorem starts_of_tighter {l : Level} {t : Token} (h : starts l.tighter t) : starts l t := by
  unfold starts at h ⊢
  split
  · rename_i a ha
    rw [ha] at h
    rcases h with h | ⟨h₁, h₂, h⟩
    · exact .inl h
    · refine .inr ⟨?_, ?_, h⟩
      · rintro rfl
        exact h₂ rfl
      · rintro rfl
        exact h₂ rfl
  · trivial

theorem starts_assignment {l : Level} {t : Token} (h : starts l t) : starts .assignment t := by
  unfold starts at h ⊢
  split
  · rename_i a ha
    rw [ha] at h
    rcases h with h | ⟨_, _, h⟩
    · exact .inl h
    · exact .inr ⟨by simp, by simp, h⟩
  · trivial

/-- An expression has a first token, and it is one that starts its level. -/
theorem derives_starts {l : Level} {e : Expr ν} (h : Derives l ts e) :
    ∃ t us, ts = t :: us ∧ starts l t := by
  induction h with
  | tighter _ _ ih =>
    obtain ⟨t, us, rfl, ht⟩ := ih
    exact ⟨t, us, rfl, starts_of_tighter ht⟩
  | assign _ hx => exact ⟨_, _, rfl, starts_of_primary hx (by decide) _⟩
  | set _ _ _ _ _ ih _ =>
    obtain ⟨t, us, rfl, ht⟩ := ih
    exact ⟨t, _, rfl, starts_assignment ht⟩
  | logical _ _ _ ih _ =>
    obtain ⟨t, us, rfl, ht⟩ := ih
    exact ⟨t, _, rfl, ht⟩
  | binary _ _ _ ih _ =>
    obtain ⟨t, us, rfl, ht⟩ := ih
    exact ⟨t, _, rfl, ht⟩
  | unary hop =>
    refine ⟨_, _, rfl, ?_⟩
    rcases hop with hop | hop
    · rw [starts, kind_eq_of_is hop]
      exact .inr ⟨by simp, by simp, .inl rfl⟩
    · rw [starts, kind_eq_of_is hop]
      exact .inr ⟨by simp, by simp, .inr rfl⟩
  | call _ _ _ _ _ _ ih _ =>
    obtain ⟨t, us, rfl, ht⟩ := ih
    exact ⟨t, _, rfl, ht⟩
  | get _ _ _ ih =>
    obtain ⟨t, us, rfl, ht⟩ := ih
    exact ⟨t, _, rfl, ht⟩
  | @literal t v hv =>
    refine ⟨t, [], rfl, ?_⟩
    unfold starts
    cases hk : t.kind with
    | symbol a =>
      rw [hk] at hv
      cases a <;> first | exact .inl (by decide) | cases hv
    | _ => trivial
  | superRef _ hk => exact ⟨_, _, rfl, starts_of_primary hk (by decide) _⟩
  | thisRef _ hk => exact ⟨_, _, rfl, starts_of_primary hk (by decide) _⟩
  | «variable» _ hx => exact ⟨_, _, rfl, starts_of_primary hx (by decide) _⟩
  | grouping ho => exact ⟨_, _, rfl, starts_of_primary ho (by decide) _⟩

/-- A token that starts no expression is told apart from one that does. -/
theorem not_is_of_starts {l : Level} {t : Token} {a : Symbol} (h : starts l t)
    (ha : a ∉ primaryStarts) (hb : a ≠ .bang ∧ a ≠ .minus ∨ l = .call ∨ l = .primary) :
    t.is a = false := by
  cases hi : t.is a with
  | false => rfl
  | true =>
    rw [starts, kind_eq_of_is hi] at h
    rcases h with h | ⟨h₁, h₂, h⟩
    · exact absurd h ha
    · rcases hb with ⟨hb₁, hb₂⟩ | hb | hb
      · rcases h with h | h
        · exact absurd h hb₁
        · exact absurd h hb₂
      · exact absurd hb h₁
      · exact absurd hb h₂

/-! ## Reading a level -/

/-- The symbols that make a phrase of a level longer. -/
def followers : Level → List Symbol
  | .assignment =>
    [.equal, .orKw, .andKw, .bangEqual, .equalEqual, .greater, .greaterEqual, .less, .lessEqual,
     .minus, .plus, .slash, .star, .leftParen, .dot]
  | .disjunction =>
    [.orKw, .andKw, .bangEqual, .equalEqual, .greater, .greaterEqual, .less, .lessEqual,
     .minus, .plus, .slash, .star, .leftParen, .dot]
  | .conjunction =>
    [.andKw, .bangEqual, .equalEqual, .greater, .greaterEqual, .less, .lessEqual, .minus, .plus,
     .slash, .star, .leftParen, .dot]
  | .equality =>
    [.bangEqual, .equalEqual, .greater, .greaterEqual, .less, .lessEqual, .minus, .plus, .slash,
     .star, .leftParen, .dot]
  | .comparison =>
    [.greater, .greaterEqual, .less, .lessEqual, .minus, .plus, .slash, .star, .leftParen, .dot]
  | .term => [.minus, .plus, .slash, .star, .leftParen, .dot]
  | .factor => [.slash, .star, .leftParen, .dot]
  | .unary => [.leftParen, .dot]
  | .call => [.leftParen, .dot]
  | .primary => []

/-- The symbols that would be read as part of a phrase before the loop of its level is reached. -/
def bound : Level → List Symbol
  | .assignment => followers .assignment
  | .unary => followers .unary
  | l => followers l.tighter

/-- None of the symbols comes next. -/
def Ended (ks : List Symbol) (rest : List Token) : Prop := ∀ t ∈ rest.head?, ks.any t.is = false

theorem Ended.mono {ks ls : List Symbol} (h : Ended ks rest) (hl : ∀ a ∈ ls, a ∈ ks) :
    Ended ls rest := by
  intro t ht
  have := h t ht
  rw [List.any_eq_false] at this ⊢
  exact fun a ha => this a (hl a ha)

theorem Ended.of_not_is {ks : List Symbol} {t : Token} (h : ∀ a ∈ ks, t.is a = false) :
    Ended ks (t :: rest) := by
  intro u hu
  simp only [List.head?_cons, Option.mem_def, Option.some.injEq] at hu
  subst hu
  rw [List.any_eq_false]
  intro a ha
  rw [h a ha]
  simp

theorem Ended.of_is {ks : List Symbol} {t : Token} {a : Symbol} (h : t.is a = true) (ha : a ∉ ks) :
    Ended ks (t :: rest) := by
  refine .of_not_is fun b hb => ?_
  rw [is_eq_decide h, decide_eq_false_iff_not]
  rintro rfl
  exact ha hb

theorem Ended.head_is {a : Symbol} (h : Ended [a] rest) : ∀ t ∈ rest.head?, t.is a = false := by
  simpa [Ended] using h

/-- A symbol that starts no expression does not come before one. -/
theorem ended_of_derives {l : Level} {e : Expr ν} {ks : List Symbol} (h : Derives l ts e)
    (hks : ∀ a ∈ ks, a ∉ primaryStarts ∧ (a ≠ .bang ∧ a ≠ .minus ∨ l = .call ∨ l = .primary)) :
    Ended ks (ts ++ rest) := by
  obtain ⟨t, us, rfl, ht⟩ := derives_starts h
  exact .of_not_is fun a ha => not_is_of_starts ht (hks a ha).1 (hks a ha).2

/-- The parser of a level. -/
def parseAt : Level → Nat → Parser (Expr NodeId)
  | .assignment, n => expression n
  | .disjunction, n => binary n 0
  | .conjunction, n => binary n 1
  | .equality, n => binary n 2
  | .comparison, n => binary n 3
  | .term, n => binary n 4
  | .factor, n => binary n 5
  | .unary, n => unary n
  | .call, n => do callRest n (← primary n)
  | .primary, n => primary n

/-- The loop of a level, with the phrase read so far. -/
def loopAt : Level → Nat → Expr NodeId → Parser (Expr NodeId)
  | .disjunction, n, e => binaryRest n 0 e
  | .conjunction, n, e => binaryRest n 1 e
  | .equality, n, e => binaryRest n 2 e
  | .comparison, n, e => binaryRest n 3 e
  | .term, n, e => binaryRest n 4 e
  | .factor, n, e => binaryRest n 5 e
  | .call, n, e => callRest n e
  | _, _, e => pure e

/-- The steps of fuel that a level needs besides those for its tokens. -/
def budget : Level → Nat
  | .assignment => 10
  | .disjunction => 9
  | .conjunction => 8
  | .equality => 7
  | .comparison => 6
  | .term => 5
  | .factor => 4
  | .unary => 2
  | .call => 1
  | .primary => 1

/-- The phrase is read, up to the loop of its level. -/
def Parses (l : Level) (ts : List Token) (e : Expr ν) : Prop :=
  ∀ eof rest n i reports, Ended (bound l) rest → 16 * (ts.length + rest.length) + budget l ≤ n →
    ∃ n' e' i', 16 * rest.length + 1 ≤ n' ∧ e'.unmarked = e.unmarked ∧
      parseAt l n eof ⟨ts ++ rest, i, reports⟩ = loopAt l n' e' eof ⟨rest, i', reports⟩

/-- The phrase is read whole. -/
def Complete (l : Level) (ts : List Token) (e : Expr ν) : Prop :=
  ∀ eof rest n i reports, Ended (followers l) rest →
    16 * (ts.length + rest.length) + budget l ≤ n →
    ∃ e' i', e'.unmarked = e.unmarked ∧
      parseAt l n eof ⟨ts ++ rest, i, reports⟩ = .ok e' ⟨rest, i', reports⟩

/-- A loop stops at a symbol that is not its own. -/
theorem loopAt_of_ended {l : Level} {e : Expr NodeId} (hn : 1 ≤ n) (h : Ended (followers l) rest) :
    loopAt l n e eof ⟨rest, i, reports⟩ = .ok e ⟨rest, i, reports⟩ := by
  obtain ⟨n, rfl⟩ : ∃ m, n = m + 1 := ⟨n - 1, by omega⟩
  cases l with
  | assignment => rfl
  | unary => rfl
  | primary => rfl
  | call =>
    rw [loopAt, callRest]
    exact bind_of_ok (takeAny_of_head (h.mono (by decide)))
  | _ =>
    rw [loopAt, binaryRest]
    exact bind_of_ok (takeAny_of_head (h.mono (by decide)))

theorem Parses.complete {l : Level} {e : Expr ν} (h : Parses l ts e) : Complete l ts e := by
  intro eof rest n i reports hend hn
  have hb : Ended (bound l) rest := hend.mono (by cases l <;> decide)
  obtain ⟨n', e', i', hn', he, hp⟩ := h eof rest n i reports hb hn
  exact ⟨e', i', he, hp.trans (loopAt_of_ended (by omega) hend)⟩

/-- A level reads the phrases of the next tighter one. -/
theorem parses_of_tighter {l : Level} {e : Expr ν} (hl : l ≠ .primary) (hd : Derives l.tighter ts e)
    (h : Complete l.tighter ts e) : Parses l ts e := by
  intro eof rest n i reports hend hn
  have hpos : 1 ≤ n := by cases l <;> simp only [budget] at hn <;> omega
  obtain ⟨n, rfl⟩ : ∃ m, n = m + 1 := ⟨n - 1, by omega⟩
  cases l with
  | primary => exact absurd rfl hl
  | assignment =>
    simp only [budget] at hn
    obtain ⟨e', i', he, hp⟩ := h eof rest n i reports (hend.mono (by decide))
      (by simp only [Level.tighter, budget]; omega)
    have hequal : ∀ t ∈ rest.head?, t.is .equal = false := by
      intro t ht
      have := hend t ht
      rw [List.any_eq_false] at this
      simpa using this .equal (by decide)
    refine ⟨16 * rest.length + 1, e', i', Nat.le_refl _, he, ?_⟩
    simp only [Level.tighter, parseAt] at hp
    rw [parseAt, expression, bind_of_ok hp, bind_of_ok (take_of_head hequal)]
    rfl
  | factor =>
    simp only [budget] at hn
    obtain ⟨n, rfl⟩ : ∃ m, n = m + 1 := ⟨n - 1, by omega⟩
    obtain ⟨e', i', he, hp⟩ := h eof rest n i reports (hend.mono (by decide))
      (by simp only [Level.tighter, budget]; omega)
    have hb : binary (n + 1) 6 eof ⟨ts ++ rest, i, reports⟩ = .ok e' ⟨rest, i', reports⟩ := by
      rw [binary, if_neg (by decide)]
      exact hp
    refine ⟨n + 1, e', i', by omega, he, ?_⟩
    rw [parseAt, binary, if_pos (by decide), bind_of_ok hb]
    rfl
  | unary =>
    simp only [budget] at hn
    obtain ⟨e', i', he, hp⟩ := h eof rest n i reports (hend.mono (by decide))
      (by simp only [Level.tighter, budget]; omega)
    have hprefix : Ended [.bang, .minus] (ts ++ rest) := ended_of_derives hd (by decide)
    refine ⟨16 * rest.length + 1, e', i', Nat.le_refl _, he, ?_⟩
    rw [parseAt, unary, bind_of_ok (takeAny_of_head hprefix)]
    exact hp
  | call =>
    simp only [budget] at hn
    obtain ⟨e', i', he, hp⟩ := h eof rest (n + 1) i reports (hend.mono (by decide))
      (by simp only [Level.tighter, budget]; omega)
    refine ⟨n + 1, e', i', by omega, he, ?_⟩
    simp only [Level.tighter, parseAt] at hp
    rw [parseAt, bind_of_ok hp]
    rfl
  | _ =>
    simp only [budget] at hn
    obtain ⟨e', i', he, hp⟩ := h eof rest n i reports (hend.mono (by decide))
      (by simp only [Level.tighter, budget]; omega)
    refine ⟨n, e', i', by omega, he, ?_⟩
    rw [parseAt, binary, if_pos (by decide)]
    exact bind_of_ok hp

/-- What a call reads, a whole right-hand side does. -/
theorem complete_of_call {e : Expr ν} (hd : Derives .call ts e) (h : Complete .call ts e) :
    Complete .disjunction ts e := by
  have hu := parses_of_tighter (l := .unary) (by decide) hd h
  have hdu : Derives .unary ts e := .tighter (by decide) hd
  have hf := parses_of_tighter (l := .factor) (by decide) hdu hu.complete
  have hdf : Derives .factor ts e := .tighter (by decide) hdu
  have ht := parses_of_tighter (l := .term) (by decide) hdf hf.complete
  have hdt : Derives .term ts e := .tighter (by decide) hdf
  have hc := parses_of_tighter (l := .comparison) (by decide) hdt ht.complete
  have hdc : Derives .comparison ts e := .tighter (by decide) hdt
  have he := parses_of_tighter (l := .equality) (by decide) hdc hc.complete
  have hde : Derives .equality ts e := .tighter (by decide) hdc
  have ha := parses_of_tighter (l := .conjunction) (by decide) hde he.complete
  have hda : Derives .conjunction ts e := .tighter (by decide) hde
  exact (parses_of_tighter (l := .disjunction) (by decide) hda ha.complete).complete

/-! ## Primary expressions -/

theorem parses_literal {t : Token} {v : Literal} (hv : literal? t.kind = some v) :
    Parses .primary [t] (.literal v : Expr ν) := by
  intro eof rest n i reports _ hn
  simp only [budget] at hn
  obtain ⟨n, rfl⟩ : ∃ m, n = m + 1 := ⟨n - 1, by omega⟩
  refine ⟨16 * rest.length + 1, .literal v, i, Nat.le_refl _, rfl, ?_⟩
  have hp : peek eof ⟨[t] ++ rest, i, reports⟩ = .ok t ⟨[t] ++ rest, i, reports⟩ := rfl
  rw [parseAt, primary, bind_of_ok hp]
  cases hk : t.kind with
  | number x =>
    rw [hk] at hv
    cases hv
    rfl
  | string x =>
    rw [hk] at hv
    cases hv
    rfl
  | symbol a =>
    rw [hk] at hv
    cases a <;> first | (cases hv; rfl) | cases hv

theorem parses_variable {x : Token} (k : ν) (hx : x.is .identifier = true) :
    Parses .primary [x] (.variable k x) := by
  intro eof rest n i reports _ hn
  simp only [budget] at hn
  obtain ⟨n, rfl⟩ : ∃ m, n = m + 1 := ⟨n - 1, by omega⟩
  refine ⟨16 * rest.length + 1, .variable i x, i + 1, Nat.le_refl _, rfl, ?_⟩
  have hp : peek eof ⟨[x] ++ rest, i, reports⟩ = .ok x ⟨[x] ++ rest, i, reports⟩ := rfl
  rw [parseAt, primary, bind_of_ok hp, kind_eq_of_is hx]
  rfl

theorem parses_this {keyword : Token} (k : ν) (hk : keyword.is .thisKw = true) :
    Parses .primary [keyword] (.thisRef k keyword) := by
  intro eof rest n i reports _ hn
  simp only [budget] at hn
  obtain ⟨n, rfl⟩ : ∃ m, n = m + 1 := ⟨n - 1, by omega⟩
  refine ⟨16 * rest.length + 1, .thisRef i keyword, i + 1, Nat.le_refl _, rfl, ?_⟩
  have hp : peek eof ⟨[keyword] ++ rest, i, reports⟩ = .ok keyword ⟨[keyword] ++ rest, i, reports⟩ :=
    rfl
  rw [parseAt, primary, bind_of_ok hp, kind_eq_of_is hk]
  rfl

theorem parses_super {keyword dot x : Token} (k : ν) (hk : keyword.is .superKw = true)
    (hdot : dot.is .dot = true) (hx : x.is .identifier = true) :
    Parses .primary [keyword, dot, x] (.superRef k keyword x) := by
  intro eof rest n i reports _ hn
  simp only [budget] at hn
  obtain ⟨n, rfl⟩ : ∃ m, n = m + 1 := ⟨n - 1, by omega⟩
  refine ⟨16 * rest.length + 1, .superRef i keyword x, i + 1, Nat.le_refl _, rfl, ?_⟩
  have hp : peek eof ⟨[keyword, dot, x] ++ rest, i, reports⟩ =
    .ok keyword ⟨[keyword, dot, x] ++ rest, i, reports⟩ := rfl
  have ha : advance eof ⟨keyword :: dot :: x :: rest, i, reports⟩ =
    .ok () ⟨dot :: x :: rest, i, reports⟩ := rfl
  rw [parseAt, primary, bind_of_ok hp, kind_eq_of_is hk]
  simp only [List.cons_append, List.nil_append]
  rw [bind_of_ok ha, bind_of_ok (consume_of_is hdot), bind_of_ok (consume_of_is hx)]
  rfl

theorem parses_grouping {opening closing : Token} {e : Expr ν} (ho : opening.is .leftParen = true)
    (h : Complete .assignment ts e) (hc : closing.is .rightParen = true) :
    Parses .primary (opening :: ts ++ [closing]) (.grouping e) := by
  intro eof rest n i reports _ hn
  simp only [budget, List.length_append, List.length_cons, List.length_nil] at hn
  obtain ⟨n, rfl⟩ : ∃ m, n = m + 1 := ⟨n - 1, by omega⟩
  obtain ⟨e', i', he, hp⟩ := h eof (closing :: rest) n i reports (.of_is hc (by decide))
    (by simp only [budget, List.length_cons]; omega)
  refine ⟨16 * rest.length + 1, .grouping e', i', Nat.le_refl _, ?_, ?_⟩
  · rw [Expr.unmarked, Expr.unmarked, he]
  have hpeek : peek eof ⟨opening :: (ts ++ closing :: rest), i, reports⟩ =
    .ok opening ⟨opening :: (ts ++ closing :: rest), i, reports⟩ := rfl
  have ha : advance eof ⟨opening :: (ts ++ closing :: rest), i, reports⟩ =
    .ok () ⟨ts ++ closing :: rest, i, reports⟩ := rfl
  have hts : opening :: ts ++ [closing] ++ rest = opening :: (ts ++ closing :: rest) := by simp
  simp only [parseAt] at hp
  rw [hts, parseAt, primary, bind_of_ok hpeek, kind_eq_of_is ho]
  simp only
  rw [bind_of_ok ha, bind_of_ok hp, bind_of_ok (consume_of_is hc)]
  rfl

/-! ## Operators -/

theorem parses_unary {op : Token} {e : Expr ν} (hop : op.is .bang ∨ op.is .minus)
    (h : Complete .unary ts e) : Parses .unary (op :: ts) (.unary op e) := by
  intro eof rest n i reports hend hn
  simp only [budget, List.length_cons] at hn
  obtain ⟨n, rfl⟩ : ∃ m, n = m + 1 := ⟨n - 1, by omega⟩
  obtain ⟨e', i', he, hp⟩ := h eof rest n i reports hend (by simp only [budget]; omega)
  simp only [parseAt] at hp
  refine ⟨16 * rest.length + 1, .unary op e', i', Nat.le_refl _, ?_, ?_⟩
  · rw [Expr.unmarked, Expr.unmarked, he]
  have hprefix : [Symbol.bang, .minus].any op.is = true := by simpa using hop
  rw [parseAt, unary, List.cons_append, bind_of_ok (takeAny_of_any hprefix)]
  exact bind_of_ok hp

theorem parseAt_levelOf (hk : k < binaryLevels) : parseAt (levelOf k) n = binary n k := by
  match k, hk with
  | 0, _ => rfl
  | 1, _ => rfl
  | 2, _ => rfl
  | 3, _ => rfl
  | 4, _ => rfl
  | 5, _ => rfl

theorem loopAt_levelOf (hk : k < binaryLevels) (e : Expr NodeId) :
    loopAt (levelOf k) n e = binaryRest n k e := by
  match k, hk with
  | 0, _ => rfl
  | 1, _ => rfl
  | 2, _ => rfl
  | 3, _ => rfl
  | 4, _ => rfl
  | 5, _ => rfl

theorem operators_not_bound : ∀ k < binaryLevels, ∀ a ∈ operators k, a ∉ bound (levelOf k) := by
  decide

theorem followers_bound : ∀ k < binaryLevels, ∀ a ∈ followers (levelOf (k + 1)),
    a ∈ bound (levelOf k) := by
  decide

theorem budget_levelOf : ∀ k < binaryLevels, budget (levelOf (k + 1)) ≤ 9 := by
  decide

/-- An operator ends what may stand on its left. -/
theorem ended_operator (hk : k < binaryLevels) {op : Token} (hop : (operators k).any op.is = true) :
    Ended (bound (levelOf k)) (op :: us) := by
  obtain ⟨a, ha, hop⟩ := List.any_eq_true.1 hop
  exact .of_is hop (operators_not_bound k hk a ha)

variable (eof n rest i reports) in
/-- A right operand is read whole. -/
theorem binary_of_complete (hk : k < binaryLevels) {e : Expr ν} (h : Complete (levelOf (k + 1)) ts e)
    (hend : Ended (bound (levelOf k)) rest) (hn : 16 * (ts.length + rest.length + 1) ≤ n) :
    ∃ e' i', e'.unmarked = e.unmarked ∧
      binary n (k + 1) eof ⟨ts ++ rest, i, reports⟩ = .ok e' ⟨rest, i', reports⟩ := by
  have hnext : Ended (followers (levelOf (k + 1))) rest := hend.mono (followers_bound k hk)
  have hbudget := budget_levelOf k hk
  by_cases hk' : k + 1 < binaryLevels
  · obtain ⟨e', i', he, hp⟩ := h eof rest n i reports hnext (by omega)
    rw [parseAt_levelOf hk'] at hp
    exact ⟨e', i', he, hp⟩
  · -- the operands of the last level are unary expressions
    obtain rfl : k = 5 := by
      unfold binaryLevels at hk hk'
      omega
    obtain ⟨n, rfl⟩ : ∃ m, n = m + 1 := ⟨n - 1, by omega⟩
    obtain ⟨e', i', he, hp⟩ := h eof rest n i reports hnext (by omega)
    refine ⟨e', i', he, ?_⟩
    rw [binary, if_neg (by decide)]
    exact hp

theorem unmarked_joinAt {a b : Expr NodeId} {a' b' : Expr ν} {op : Token}
    (ha : a.unmarked = a'.unmarked) (hb : b.unmarked = b'.unmarked) :
    (joinAt k a op b).unmarked =
      (if k < 2 then .logical a' op b' else .binary a' op b' : Expr ν).unmarked := by
  unfold joinAt
  split
  · rw [Expr.unmarked, Expr.unmarked, ha, hb]
  · rw [Expr.unmarked, Expr.unmarked, ha, hb]

theorem parses_join (hk : k < binaryLevels) {op : Token} {a b : Expr ν}
    (hop : (operators k).any op.is = true) (ha : Parses (levelOf k) ts a)
    (hb : Complete (levelOf (k + 1)) us b) :
    Parses (levelOf k) (ts ++ op :: us) (if k < 2 then .logical a op b else .binary a op b) := by
  intro eof rest n i reports hend hn
  obtain ⟨n', a', i', hn', ha', hp⟩ := ha eof (op :: us ++ rest) n i reports
    (ended_operator hk hop)
    (by simp only [List.length_append, List.length_cons] at hn ⊢; omega)
  simp only [List.length_append, List.length_cons] at hn'
  obtain ⟨n', rfl⟩ : ∃ m, n' = m + 1 := ⟨n' - 1, by omega⟩
  obtain ⟨b', i'', hb', hp'⟩ := binary_of_complete eof n' _ i' reports hk hb hend (by omega)
  refine ⟨n', joinAt k a' op b', i'', by omega, unmarked_joinAt ha' hb', ?_⟩
  rw [List.append_assoc, hp, loopAt_levelOf hk, loopAt_levelOf hk, binaryRest, List.cons_append,
    bind_of_ok (takeAny_of_any hop)]
  exact bind_of_ok hp'

theorem parses_logical {l : Level} {op : Token} {a b : Expr ν}
    (hop : l.connectives.any op.is = true) (ha : Parses l ts a) (hb : Complete l.tighter us b) :
    Parses l (ts ++ op :: us) (.logical a op b) := by
  cases l with
  | disjunction => exact parses_join (k := 0) (by decide) hop ha hb
  | conjunction => exact parses_join (k := 1) (by decide) hop ha hb
  | _ => exact absurd hop (by simp [Level.connectives])

theorem parses_binary {l : Level} {op : Token} {a b : Expr ν}
    (hop : l.operators.any op.is = true) (ha : Parses l ts a) (hb : Complete l.tighter us b) :
    Parses l (ts ++ op :: us) (.binary a op b) := by
  cases l with
  | equality => exact parses_join (k := 2) (by decide) hop ha hb
  | comparison => exact parses_join (k := 3) (by decide) hop ha hb
  | term => exact parses_join (k := 4) (by decide) hop ha hb
  | factor => exact parses_join (k := 5) (by decide) hop ha hb
  | _ => exact absurd hop (by simp [Level.operators])

/-! ## Calls and properties -/

theorem parses_get {dot x : Token} {o : Expr ν} (ho : Parses .call ts o) (hdot : dot.is .dot = true)
    (hx : x.is .identifier = true) : Parses .call (ts ++ [dot, x]) (.get o x) := by
  intro eof rest n i reports _ hn
  obtain ⟨n', o', i', hn', ho', hp⟩ := ho eof (dot :: x :: rest) n i reports
    (Ended.of_is hdot (by decide))
    (by simp only [List.length_append, List.length_cons, List.length_nil] at hn ⊢; omega)
  simp only [List.length_cons] at hn'
  obtain ⟨n', rfl⟩ : ∃ m, n' = m + 1 := ⟨n' - 1, by omega⟩
  refine ⟨n', .get o' x, i', by omega, ?_, ?_⟩
  · rw [Expr.unmarked, Expr.unmarked, ho']
  have hts : ts ++ [dot, x] ++ rest = ts ++ dot :: x :: rest := by simp
  have hany : [Symbol.leftParen, .dot].any dot.is = true := by simp [hdot]
  have hparen : ¬ dot.is .leftParen = true := by simp [Token.is, kind_eq_of_is hdot]
  rw [hts, hp, loopAt, loopAt, callRest, bind_of_ok (takeAny_of_any hany)]
  simp only [if_neg hparen]
  exact bind_of_ok (consume_of_is hx)

variable (eof n rest i reports) in
/-- Arguments are read up to their closing parenthesis. -/
theorem arguments_of_complete {closing : Token} (hc : closing.is .rightParen = true)
    (args : List (List Token × Expr ν)) (hne : args ≠ [])
    (hargs : ∀ p ∈ args, Complete .assignment p.1 p.2) (count : Nat)
    (hcount : count + args.length ≤ 255) (hcommas : Commas (args.map Prod.fst) us)
    (hn : 16 * (us.length + rest.length + 1) + 11 ≤ n) :
    ∃ es i', Expr.unmarkedAll es = Expr.unmarkedAll (args.map Prod.snd) ∧
      arguments n count eof ⟨us ++ closing :: rest, i, reports⟩ =
        .ok es ⟨closing :: rest, i', reports⟩ := by
  induction args generalizing us n count i with
  | nil => exact absurd rfl hne
  | cons arg args ih =>
    obtain ⟨n, rfl⟩ : ∃ m, n = m + 1 := ⟨n - 1, by omega⟩
    have hfew : ¬ maxArguments ≤ count := by
      rw [List.length_cons] at hcount
      unfold maxArguments
      omega
    have harg := hargs arg (by simp)
    rw [arguments, if_neg hfew]
    cases args with
    | nil =>
      cases hcommas
      obtain ⟨e, i', he, hp⟩ := harg eof (closing :: rest) n i reports (.of_is hc (by decide))
        (by simp only [budget, List.length_cons]; omega)
      simp only [parseAt] at hp
      have hstop : ∀ t ∈ (closing :: rest).head?, t.is .comma = false := by
        simp [Token.is, kind_eq_of_is hc]
      refine ⟨[e], i', ?_, ?_⟩
      · simp only [List.map_cons, List.map_nil, Expr.unmarkedAll, he]
      · exact (bind_of_ok hp).trans (bind_of_ok (take_of_head hstop))
    | cons arg' args =>
      cases hcommas with
      | @more _ _ vs _ comma hcomma hcommas =>
        simp only [List.length_append, List.length_cons] at hn hcount
        obtain ⟨e, i', he, hp⟩ := harg eof (comma :: (vs ++ closing :: rest)) n i reports
          (.of_is hcomma (by decide))
          (by simp only [budget, List.length_cons, List.length_append]; omega)
        simp only [parseAt] at hp
        obtain ⟨es, i'', hes, hp'⟩ := ih (i := i') (n := n) (by simp)
          (fun p hp => hargs p (List.mem_cons_of_mem _ hp)) (count + 1)
          (by simp only [List.length_cons]; omega) hcommas (by omega)
        refine ⟨e :: es, i'', ?_, ?_⟩
        · simp only [List.map_cons, Expr.unmarkedAll, he] at hes ⊢
          rw [hes]
        · have hts : arg.1 ++ comma :: vs ++ closing :: rest =
              arg.1 ++ comma :: (vs ++ closing :: rest) := by simp
          rw [hts]
          exact (bind_of_ok hp).trans ((bind_of_ok (take_of_is hcomma)).trans (bind_of_ok hp'))

theorem parses_call {opening closing : Token} {f : Expr ν} {args : List (List Token × Expr ν)}
    (hf : Parses .call ts f) (ho : opening.is .leftParen = true)
    (hd : ∀ p ∈ args, Derives .assignment p.1 p.2)
    (hargs : ∀ p ∈ args, Complete .assignment p.1 p.2) (hcount : args.length ≤ 255)
    (hcommas : Commas (args.map Prod.fst) us) (hc : closing.is .rightParen = true) :
    Parses .call (ts ++ opening :: us ++ [closing]) (.call f closing (args.map Prod.snd)) := by
  intro eof rest n i reports _ hn
  simp only [List.length_append, List.length_cons, List.length_nil] at hn
  obtain ⟨n', f', i', hn', hf', hp⟩ := hf eof (opening :: (us ++ closing :: rest)) n i reports
    (Ended.of_is ho (by decide))
    (by simp only [List.length_append, List.length_cons]; omega)
  simp only [List.length_append, List.length_cons] at hn'
  obtain ⟨n', rfl⟩ : ∃ m, n' = m + 1 := ⟨n' - 1, by omega⟩
  have hts : ts ++ opening :: us ++ [closing] ++ rest = ts ++ opening :: (us ++ closing :: rest) := by
    simp
  have hany : [Symbol.leftParen, .dot].any opening.is = true := by simp [ho]
  rw [hts, hp, loopAt, callRest, bind_of_ok (takeAny_of_any hany)]
  simp only [ho, if_true]
  cases args with
  | nil =>
    cases hcommas
    refine ⟨n', .call f' closing [], i', by omega, ?_, ?_⟩
    · simp only [List.map_nil, Expr.unmarked, Expr.unmarkedAll, hf']
    · rw [List.nil_append, bind_of_ok (check_of_is hc)]
      exact bind_of_ok (consume_of_is hc)
  | cons arg args =>
    obtain ⟨es, i'', hes, hp'⟩ := arguments_of_complete eof n' rest i' reports hc (arg :: args)
      (by simp) hargs 0 (by omega) hcommas (by omega)
    have hfirst : Ended [.rightParen] (us ++ closing :: rest) := by
      have harg := hd arg (by simp)
      rw [List.map_cons] at hcommas
      generalize args.map Prod.fst = others at hcommas
      cases hcommas with
      | one => exact ended_of_derives harg (by decide)
      | more =>
        rw [List.append_assoc]
        exact ended_of_derives harg (by decide)
    refine ⟨n', .call f' closing es, i'', by omega, ?_, ?_⟩
    · simp only [Expr.unmarked, hf', hes]
    · rw [bind_of_ok (check_of_head hfirst.head_is)]
      exact (bind_of_ok hp').trans (bind_of_ok (consume_of_is hc))

/-! ## Assignments -/

theorem eq_variable_of_unmarked {e : Expr NodeId} {x : Token}
    (h : e.unmarked = .variable () x) : ∃ k, e = .variable k x := by
  cases e with
  | «variable» k y =>
    rw [Expr.unmarked, Expr.variable.injEq] at h
    exact ⟨k, by rw [h.2]⟩
  | _ => simp [Expr.unmarked] at h

theorem eq_get_of_unmarked {e : Expr NodeId} {o : Expr Unit} {x : Token}
    (h : e.unmarked = .get o x) : ∃ o', e = .get o' x ∧ o'.unmarked = o := by
  cases e with
  | get o' y =>
    rw [Expr.unmarked, Expr.get.injEq] at h
    exact ⟨o', by rw [h.2], h.1⟩
  | _ => simp [Expr.unmarked] at h

variable (eof n rest i reports) in
/-- A target, its `=` and a value. -/
theorem expression_of_target {equal : Token} {target e : Expr ν} (ht : Complete .disjunction ts target)
    (heq : equal.is .equal = true) (he : Complete .assignment us e)
    (hend : Ended (bound .assignment) rest)
    (hn : 16 * (ts.length + us.length + 1 + rest.length) + 9 ≤ n) :
    ∃ target' e' i', target'.unmarked = target.unmarked ∧ e'.unmarked = e.unmarked ∧
      expression (n + 1) eof ⟨ts ++ equal :: (us ++ rest), i, reports⟩ =
        assignTo target' equal e' eof ⟨rest, i', reports⟩ := by
  obtain ⟨target', i', htarget, hp⟩ := ht eof (equal :: (us ++ rest)) n i reports
    (.of_is heq (by decide)) (by simp only [budget, List.length_cons, List.length_append]; omega)
  obtain ⟨e', i'', he', hp'⟩ := he eof rest n i' reports hend (by simp only [budget]; omega)
  simp only [parseAt] at hp hp'
  refine ⟨target', e', i'', htarget, he', ?_⟩
  rw [expression, bind_of_ok hp, bind_of_ok (take_of_is heq)]
  exact bind_of_ok hp'

theorem parses_assign {x equal : Token} {e : Expr ν} (k : ν) (hx : x.is .identifier = true)
    (heq : equal.is .equal = true) (he : Complete .assignment ts e) :
    Parses .assignment (x :: equal :: ts) (.assign k x e) := by
  intro eof rest n i reports hend hn
  simp only [budget, List.length_cons] at hn
  obtain ⟨n, rfl⟩ : ∃ m, n = m + 1 := ⟨n - 1, by omega⟩
  have hvar : Derives .primary [x] (.variable k x) := .variable k hx
  have hcall := parses_of_tighter (l := .call) (by decide) hvar (parses_variable k hx).complete
  have htarget := complete_of_call (.tighter (by decide) hvar) hcall.complete
  obtain ⟨t, e', i', ht, he', hp⟩ := expression_of_target eof n _ i reports htarget heq he hend
    (by simp only [List.length_cons, List.length_nil]; omega)
  obtain ⟨k', rfl⟩ := eq_variable_of_unmarked ht
  refine ⟨16 * rest.length + 1, .assign i' x e', i' + 1, Nat.le_refl _, ?_, ?_⟩
  · rw [Expr.unmarked, Expr.unmarked, he']
  · exact hp

theorem parses_set {dot x equal : Token} {o e : Expr ν} (hd : Derives .call ts o)
    (ho : Parses .call ts o) (hdot : dot.is .dot = true) (hx : x.is .identifier = true)
    (heq : equal.is .equal = true) (he : Complete .assignment us e) :
    Parses .assignment (ts ++ dot :: x :: equal :: us) (.set o x e) := by
  intro eof rest n i reports hend hn
  simp only [budget, List.length_append, List.length_cons] at hn
  obtain ⟨n, rfl⟩ : ∃ m, n = m + 1 := ⟨n - 1, by omega⟩
  have htarget := complete_of_call (.get hd hdot hx) (parses_get ho hdot hx).complete
  obtain ⟨t, e', i', ht, he', hp⟩ := expression_of_target eof n _ i reports htarget heq he hend
    (by simp only [List.length_append, List.length_cons, List.length_nil]; omega)
  obtain ⟨o', rfl, ho'⟩ := eq_get_of_unmarked ht
  refine ⟨16 * rest.length + 1, .set o' x e', i', Nat.le_refl _, ?_, ?_⟩
  · rw [Expr.unmarked, Expr.unmarked, ho', he']
  · have hts : ts ++ dot :: x :: equal :: us ++ rest =
        ts ++ [dot, x] ++ equal :: (us ++ rest) := by simp
    rw [hts]
    exact hp

/-! ## All expressions -/

/-- Whatever the grammar derives is read, up to the loop of its level. -/
theorem parses_of_derives {l : Level} {e : Expr ν} (h : Derives l ts e) : Parses l ts e := by
  induction h with
  | tighter hl hd ih => exact parses_of_tighter hl hd ih.complete
  | assign k hx heq _ ih => exact parses_assign k hx heq ih.complete
  | set hd hdot hx heq _ iho ihe => exact parses_set hd iho hdot hx heq ihe.complete
  | logical hop _ _ iha ihb => exact parses_logical hop iha ihb.complete
  | binary hop _ _ iha ihb => exact parses_binary hop iha ihb.complete
  | unary hop _ ih => exact parses_unary hop ih.complete
  | call _ ho hd hcount hcommas hc ihf ihargs =>
    exact parses_call ihf ho hd (fun p hp => (ihargs p hp).complete) hcount hcommas hc
  | get _ hdot hx ih => exact parses_get ih hdot hx
  | literal hv => exact parses_literal hv
  | superRef k hk hdot hx => exact parses_super k hk hdot hx
  | thisRef k hk => exact parses_this k hk
  | «variable» k hx => exact parses_variable k hx
  | grouping ho _ hc ih => exact parses_grouping ho ih.complete hc

variable (eof n rest i reports) in
/-- The closing symbols of expressions in statements. -/
theorem expression_of_derives {e : Expr ν} {closing : Token} (h : Derives .assignment ts e)
    (hc : closing.is .semicolon ∨ closing.is .rightParen)
    (hn : 16 * (ts.length + rest.length + 1) + 10 ≤ n) :
    ∃ e' i', e'.unmarked = e.unmarked ∧
      expression n eof ⟨ts ++ closing :: rest, i, reports⟩ = .ok e' ⟨closing :: rest, i', reports⟩ := by
  refine (parses_of_derives h).complete eof (closing :: rest) n i reports ?_
    (by simp only [budget, List.length_cons]; omega)
  rcases hc with hc | hc
  · exact .of_is hc (by decide)
  · exact .of_is hc (by decide)

end Lox.Parser
