import Lox.Proofs.Parser.CompleteExpressions
import Lox.Parser.Statement

/-!
# What the grammar derives, the parser accepts: statements

A statement is read to its end, if no `else` follows one that could still take it. No declaration
starts with an `else` or a closing brace, so the declarations of a block are read one by one, and a
fault is never met.
-/

namespace Lox.Parser

open Grammar

variable {eof : Token} {n : Nat} {ts us vs rest : List Token} {i : NodeId} {reports : List Report}

/-! ## Clauses -/

variable (eof n rest i reports) in
theorem parameters_of_commas {closing : Token} (hc : closing.is .rightParen = true)
    (params : List Token) (hne : params ≠ []) (hps : ∀ p ∈ params, p.is .identifier) (count : Nat)
    (hcount : count + params.length ≤ 255) (hcommas : Commas (params.map ([·])) us)
    (hn : 16 * us.length + 1 ≤ n) :
    parameters n count eof ⟨us ++ closing :: rest, i, reports⟩ =
      .ok params ⟨closing :: rest, i, reports⟩ := by
  induction params generalizing us n count with
  | nil => exact absurd rfl hne
  | cons p params ih =>
    obtain ⟨n, rfl⟩ : ∃ m, n = m + 1 := ⟨n - 1, by omega⟩
    have hfew : ¬ maxArguments ≤ count := by
      rw [List.length_cons] at hcount
      unfold maxArguments
      omega
    have hp : p.is .identifier = true := hps p (by simp)
    rw [parameters, if_neg hfew]
    cases params with
    | nil =>
      cases hcommas
      have hstop : ∀ t ∈ (closing :: rest).head?, t.is .comma = false := by
        simp [is_eq_decide hc]
      exact (bind_of_ok (consume_of_is hp)).trans (bind_of_ok (take_of_head hstop))
    | cons q params =>
      cases hcommas with
      | more hcomma hcommas =>
        simp only [List.length_append, List.length_cons] at hn hcount
        have hrest := ih (n := n) (by simp)
          (fun r hr => hps r (List.mem_cons_of_mem _ hr)) (count + 1)
          (by simp only [List.length_cons]; omega) hcommas (by omega)
        exact (bind_of_ok (consume_of_is hp)).trans
          ((bind_of_ok (take_of_is hcomma)).trans (bind_of_ok hrest))

variable (eof n rest i reports) in
theorem varDeclaration_of_phrase {s : Stmt ν} (h : VarPhrase ts s)
    (hn : 16 * (ts.length + rest.length) ≤ n) :
    ∃ keyword us s' i', ts = keyword :: us ∧ keyword.is .varKw = true ∧ s'.unmarked = s.unmarked ∧
      varDeclaration n eof ⟨us ++ rest, i, reports⟩ = .ok s' ⟨rest, i', reports⟩ := by
  cases h with
  | @bare keyword x semicolon hk hx hsemi =>
    have hstop : ∀ t ∈ (semicolon :: rest).head?, t.is .equal = false := by
      simp [is_eq_decide hsemi]
    refine ⟨keyword, [x, semicolon], .varDecl x none, i, rfl, hk, rfl, ?_⟩
    rw [varDeclaration]
    exact (bind_of_ok (consume_of_is hx)).trans
      ((bind_of_ok (take_of_head hstop)).trans (bind_of_ok (consume_of_is hsemi)))
  | @valued keyword x equal semicolon us e hk hx heq hd hsemi =>
    simp only [List.length_append, List.length_cons, List.length_nil] at hn
    obtain ⟨e', i', he, hp⟩ := expression_of_derives eof n rest i reports hd (.inl hsemi) (by omega)
    refine ⟨keyword, x :: equal :: us ++ [semicolon], .varDecl x (some e'), i', rfl, hk, ?_, ?_⟩
    · rw [Stmt.unmarked, Stmt.unmarked, Expr.unmarkedOpt, Expr.unmarkedOpt, he]
    · have hts : x :: equal :: us ++ [semicolon] ++ rest =
          x :: equal :: (us ++ semicolon :: rest) := by simp
      rw [hts, varDeclaration, bind_of_ok (consume_of_is hx), bind_of_ok (take_of_is heq)]
      exact (bind_of_ok hp).trans (bind_of_ok (consume_of_is hsemi))

variable (eof n rest i reports) in
theorem expressionStatement_of_phrase {s : Stmt ν} (h : ExprPhrase ts s)
    (hn : 16 * (ts.length + rest.length) + 10 ≤ n) :
    ∃ s' i', s'.unmarked = s.unmarked ∧
      expressionStatement n eof ⟨ts ++ rest, i, reports⟩ = .ok s' ⟨rest, i', reports⟩ := by
  cases h with
  | @mk semicolon us e hd hsemi =>
    simp only [List.length_append, List.length_cons, List.length_nil] at hn
    obtain ⟨e', i', he, hp⟩ := expression_of_derives eof n rest i reports hd (.inl hsemi) (by omega)
    refine ⟨.expression e', i', by rw [Stmt.unmarked, Stmt.unmarked, he], ?_⟩
    rw [List.append_assoc, expressionStatement]
    exact (bind_of_ok hp).trans (bind_of_ok (consume_of_is hsemi))

variable (eof n rest i reports) in
theorem expressionUnless_of_optional {k : Symbol} {closing : Token} {e : Option (Expr ν)}
    (h : Optional ts e) (hc : closing.is k = true) (hk : k = .semicolon ∨ k = .rightParen)
    (hn : 16 * (ts.length + rest.length + 1) + 10 ≤ n) :
    ∃ e' i', Expr.unmarkedOpt e' = Expr.unmarkedOpt e ∧
      expressionUnless n k eof ⟨ts ++ closing :: rest, i, reports⟩ =
        .ok e' ⟨closing :: rest, i', reports⟩ := by
  rw [expressionUnless]
  cases h with
  | none => exact ⟨none, i, rfl, bind_of_ok (check_of_is hc)⟩
  | @some _ e hd =>
    have hclosing : closing.is .semicolon ∨ closing.is .rightParen := by
      rcases hk with rfl | rfl
      · exact .inl hc
      · exact .inr hc
    obtain ⟨e', i', he, hp⟩ := expression_of_derives eof n rest i reports hd hclosing (by omega)
    have hfirst : Ended [k] (ts ++ closing :: rest) := by
      rcases hk with rfl | rfl
      · exact ended_of_derives hd (by decide)
      · exact ended_of_derives hd (by decide)
    refine ⟨some e', i', by rw [Expr.unmarkedOpt, Expr.unmarkedOpt, he], ?_⟩
    exact (bind_of_ok (check_of_head hfirst.head_is)).trans (bind_of_ok hp)

variable (eof n rest i reports) in
theorem condition_of_derives {opening closing : Token} {c : Expr ν} {a b : SyntaxFault}
    (ho : opening.is .leftParen = true) (hd : Derives .assignment ts c)
    (hc : closing.is .rightParen = true) (hn : 16 * (ts.length + rest.length + 1) + 10 ≤ n) :
    ∃ c' i', c'.unmarked = c.unmarked ∧
      condition n a b eof ⟨opening :: (ts ++ closing :: rest), i, reports⟩ =
        .ok c' ⟨rest, i', reports⟩ := by
  obtain ⟨c', i', he, hp⟩ := expression_of_derives eof n rest i reports hd (.inr hc) hn
  refine ⟨c', i', he, ?_⟩
  rw [condition, bind_of_ok (consume_of_is ho), bind_of_ok hp]
  exact bind_of_ok (consume_of_is hc)

variable (eof n rest i reports) in
/-- What follows the first clause of a `for` loop. -/
theorem forClauses_of_optionals (first : Option (Stmt NodeId)) {semicolon closing : Token}
    {c u : Option (Expr ν)} (hc : Optional us c) (hsemi : semicolon.is .semicolon = true)
    (hu : Optional vs u) (hclose : closing.is .rightParen = true)
    (hn : 16 * (us.length + vs.length + rest.length + 2) + 10 ≤ n) :
    ∃ c' u' i', Expr.unmarkedOpt c' = Expr.unmarkedOpt c ∧ Expr.unmarkedOpt u' = Expr.unmarkedOpt u ∧
      (do
        let condition ← expressionUnless n .semicolon
        let _ ← consume .semicolon .loopCondition
        let increment ← expressionUnless n .rightParen
        let _ ← consume .rightParen .forClausesEnd
        return (first, condition, increment) :
        Parser (Option (Stmt NodeId) × Option (Expr NodeId) × Option (Expr NodeId)))
        eof ⟨us ++ semicolon :: (vs ++ closing :: rest), i, reports⟩ =
        .ok (first, c', u') ⟨rest, i', reports⟩ := by
  obtain ⟨c', i', hc', hp⟩ := expressionUnless_of_optional eof n (vs ++ closing :: rest) i reports
    hc hsemi (.inl rfl)
    (by simp only [List.length_append, List.length_cons]; omega)
  obtain ⟨u', i'', hu', hp'⟩ := expressionUnless_of_optional eof n rest i' reports hu hclose
    (.inr rfl) (by omega)
  refine ⟨c', u', i'', hc', hu', ?_⟩
  rw [bind_of_ok hp, bind_of_ok (consume_of_is hsemi), bind_of_ok hp']
  exact bind_of_ok (consume_of_is hclose)

variable (eof n rest i reports) in
theorem forClauses_of_phrases {opening semicolon closing : Token} {first : Option (Stmt ν)}
    {c u : Option (Expr ν)} (ho : opening.is .leftParen = true) (hi : ForInit ts first)
    (hc : Optional us c) (hsemi : semicolon.is .semicolon = true) (hu : Optional vs u)
    (hclose : closing.is .rightParen = true)
    (hn : 16 * (ts.length + us.length + vs.length + rest.length + 2) + 10 ≤ n) :
    ∃ first' c' u' i', Stmt.unmarkedOpt first' = Stmt.unmarkedOpt first ∧
      Expr.unmarkedOpt c' = Expr.unmarkedOpt c ∧ Expr.unmarkedOpt u' = Expr.unmarkedOpt u ∧
      forClauses n eof ⟨opening :: (ts ++ (us ++ semicolon :: (vs ++ closing :: rest))), i, reports⟩ =
        .ok (first', c', u') ⟨rest, i', reports⟩ := by
  rw [forClauses, bind_of_ok (consume_of_is ho)]
  cases hi with
  | @none initial hinit =>
    have hany : [Symbol.semicolon, .varKw].any initial.is = true := by simp [hinit]
    obtain ⟨c', u', i', hc', hu', hp⟩ := forClauses_of_optionals eof n rest i reports none
      hc hsemi hu hclose (by omega)
    refine ⟨none, c', u', i', rfl, hc', hu', ?_⟩
    rw [List.cons_append, List.nil_append, bind_of_ok (takeAny_of_any hany)]
    simp only [hinit, if_true]
    exact hp
  | @declared _ s hvar =>
    obtain ⟨keyword, ws, s', i', rfl, hk, hs, hp⟩ := varDeclaration_of_phrase eof n
      (us ++ semicolon :: (vs ++ closing :: rest)) i reports hvar
      (by simp only [List.length_append, List.length_cons]; omega)
    have hany : [Symbol.semicolon, .varKw].any keyword.is = true := by simp [hk]
    have hinit : ¬ keyword.is .semicolon = true := by simp [is_eq_decide hk]
    obtain ⟨c', u', i'', hc', hu', hp'⟩ := forClauses_of_optionals eof n rest i' reports
      (some s') hc hsemi hu hclose (by omega)
    refine ⟨some s', c', u', i'', by rw [Stmt.unmarkedOpt, Stmt.unmarkedOpt, hs], hc', hu', ?_⟩
    rw [List.cons_append, bind_of_ok (takeAny_of_any hany)]
    simp only [if_neg hinit]
    exact (bind_of_ok hp).trans hp'
  | @evaluated _ s hexpr =>
    obtain ⟨s', i', hs, hp⟩ := expressionStatement_of_phrase eof n
      (us ++ semicolon :: (vs ++ closing :: rest)) i reports hexpr
      (by simp only [List.length_append, List.length_cons]; omega)
    obtain ⟨c', u', i'', hc', hu', hp'⟩ := forClauses_of_optionals eof n rest i' reports
      (some s') hc hsemi hu hclose (by omega)
    have hfirst : Ended [.semicolon, .varKw]
        (ts ++ (us ++ semicolon :: (vs ++ closing :: rest))) := by
      cases hexpr with
      | mk hd =>
        rw [List.append_assoc]
        exact ended_of_derives hd (by decide)
    refine ⟨some s', c', u', i'', by rw [Stmt.unmarkedOpt, Stmt.unmarkedOpt, hs], hc', hu', ?_⟩
    rw [bind_of_ok (takeAny_of_head hfirst)]
    exact (bind_of_ok hp).trans hp'

theorem unmarked_forLoop {first : Option (Stmt ν)} {first' : Option (Stmt μ)}
    {c u : Option (Expr ν)} {c' u' : Option (Expr μ)} {s : Stmt ν} {s' : Stmt μ}
    (hi : Stmt.unmarkedOpt first' = Stmt.unmarkedOpt first)
    (hc : Expr.unmarkedOpt c' = Expr.unmarkedOpt c) (hu : Expr.unmarkedOpt u' = Expr.unmarkedOpt u)
    (hs : s'.unmarked = s.unmarked) :
    (Stmt.forLoop first' c' u' s').unmarked = (Stmt.forLoop first c u s).unmarked := by
  have hcond : (c'.getD (.literal (.bool true))).unmarked =
      (c.getD (.literal (.bool true))).unmarked := by
    cases c <;> cases c' <;> simp_all [Expr.unmarkedOpt, Expr.unmarked]
  cases u <;> cases u' <;> cases first <;> cases first' <;>
    simp_all [Expr.unmarkedOpt, Stmt.unmarkedOpt, Stmt.forLoop, Stmt.unmarked, Stmt.unmarkedAll]

/-! ## First tokens -/

/-- The symbols that no phrase of a rank starts with. -/
def notFirst : Rank → List Symbol
  | .declaration => [.elseKw, .rightBrace]
  | .statement _ => [.elseKw, .rightBrace, .classKw, .funKw, .varKw]

theorem ended_of_varPhrase {s : Stmt ν} (h : VarPhrase ts s) :
    Ended (notFirst .declaration) (ts ++ rest) := by
  cases h with
  | bare hk => exact .of_is hk (by decide)
  | valued hk => exact .of_is hk (by decide)

theorem ended_of_forms {r : Rank} {s : Stmt ν} (h : Forms r ts s) : Ended (notFirst r) (ts ++ rest) := by
  induction h with
  | classDecl hk => exact .of_is hk (by decide)
  | function _ hk => exact .of_is hk (by decide)
  | varDecl h => exact ended_of_varPhrase h
  | statement _ ih => exact ih.mono (by simp [notFirst])
  | expression h =>
    cases h with
    | mk hd =>
      rw [List.append_assoc]
      exact ended_of_derives hd (by decide)
  | print hk => exact .of_is hk (by decide)
  | returning hk => exact .of_is hk (by decide)
  | block hk => exact .of_is hk (by decide)
  | loop hk => exact .of_is hk (by simp [notFirst])
  | forLoop hk => exact .of_is hk (by simp [notFirst])
  | ifThen hk => exact .of_is hk (by decide)
  | ifElse hk => exact .of_is hk (by simp [notFirst])

theorem ne_nil_of_forms {r : Rank} {s : Stmt ν} (h : Forms r ts s) : ts ≠ [] := by
  induction h with
  | varDecl h => cases h <;> simp
  | statement _ ih => exact ih
  | expression h =>
    cases h
    simp
  | _ => simp

/-! ## Statements -/

/-- The phrase is read whole, unless an `else` follows one that could take it. -/
def Accepted : Rank → List Token → Stmt ν → Prop
  | .declaration, ts, s => ∀ eof rest n i reports, Ended [.elseKw] rest →
      16 * (ts.length + rest.length) + 12 ≤ n →
      ∃ s' i', s'.unmarked = s.unmarked ∧
        declaration n eof ⟨ts ++ rest, i, reports⟩ = .ok s' ⟨rest, i', reports⟩
  | .statement dangling, ts, s => ∀ eof rest n i reports, (dangling = true → Ended [.elseKw] rest) →
      16 * (ts.length + rest.length) + 11 ≤ n →
      ∃ s' i', s'.unmarked = s.unmarked ∧
        statement n eof ⟨ts ++ rest, i, reports⟩ = .ok s' ⟨rest, i', reports⟩

theorem statement_word {keyword : Token} {k : Symbol} (hk : keyword.is k = true)
    (hw : k ∈ statementWords) :
    takeAny? statementWords eof ⟨keyword :: ts, i, reports⟩ =
      .ok (some keyword) ⟨ts, i, reports⟩ :=
  takeAny_of_any (List.any_eq_true.2 ⟨k, hw, hk⟩)

theorem accepted_expression {s : Stmt ν} (h : ExprPhrase ts s) : Accepted (.statement false) ts s := by
  intro eof rest n i reports _ hn
  obtain ⟨n, rfl⟩ : ∃ m, n = m + 1 := ⟨n - 1, by omega⟩
  have hfirst : Ended statementWords (ts ++ rest) := by
    cases h with
    | mk hd =>
      rw [List.append_assoc]
      exact ended_of_derives hd (by decide)
  rw [statement, bind_of_ok (takeAny_of_head hfirst)]
  exact expressionStatement_of_phrase _ _ _ _ _ h (by omega)

theorem accepted_print {keyword semicolon : Token} {e : Expr ν} (hk : keyword.is .printKw = true)
    (hd : Derives .assignment ts e) (hsemi : semicolon.is .semicolon = true) :
    Accepted (.statement false) (keyword :: ts ++ [semicolon]) (.print keyword e) := by
  intro eof rest n i reports _ hn
  simp only [List.length_append, List.length_cons, List.length_nil] at hn
  obtain ⟨n, rfl⟩ : ∃ m, n = m + 1 := ⟨n - 1, by omega⟩
  obtain ⟨e', i', he, hp⟩ := expression_of_derives eof n rest i reports hd (.inl hsemi) (by omega)
  refine ⟨.print keyword e', i', by rw [Stmt.unmarked, Stmt.unmarked, he], ?_⟩
  have hts : keyword :: ts ++ [semicolon] ++ rest = keyword :: (ts ++ semicolon :: rest) := by simp
  rw [hts, statement, bind_of_ok (statement_word hk (by decide))]
  simp only [is_eq_decide hk, reduceCtorEq, decide_false, decide_true, Bool.false_eq_true, if_false,
    if_true]
  exact (bind_of_ok hp).trans (bind_of_ok (consume_of_is hsemi))

theorem accepted_return {keyword semicolon : Token} {e : Option (Expr ν)}
    (hk : keyword.is .returnKw = true) (he : Optional ts e) (hsemi : semicolon.is .semicolon = true) :
    Accepted (.statement false) (keyword :: ts ++ [semicolon]) (.returning keyword e) := by
  intro eof rest n i reports _ hn
  simp only [List.length_append, List.length_cons, List.length_nil] at hn
  obtain ⟨n, rfl⟩ : ∃ m, n = m + 1 := ⟨n - 1, by omega⟩
  obtain ⟨e', i', he', hp⟩ := expressionUnless_of_optional eof n rest i reports he hsemi
    (.inl rfl) (by omega)
  refine ⟨.returning keyword e', i', by rw [Stmt.unmarked, Stmt.unmarked, he'], ?_⟩
  have hts : keyword :: ts ++ [semicolon] ++ rest = keyword :: (ts ++ semicolon :: rest) := by simp
  rw [hts, statement, bind_of_ok (statement_word hk (by decide))]
  simp only [is_eq_decide hk, reduceCtorEq, decide_false, decide_true, Bool.false_eq_true, if_false,
    if_true]
  exact (bind_of_ok hp).trans (bind_of_ok (consume_of_is hsemi))

theorem accepted_loop {dangling : Bool} {keyword opening closing : Token} {c : Expr ν} {s : Stmt ν}
    (hk : keyword.is .whileKw = true) (ho : opening.is .leftParen = true)
    (hd : Derives .assignment ts c) (hc : closing.is .rightParen = true)
    (hs : Accepted (.statement dangling) us s) :
    Accepted (.statement dangling) (keyword :: opening :: ts ++ closing :: us) (.loop c s) := by
  intro eof rest n i reports hend hn
  simp only [List.length_append, List.length_cons] at hn
  obtain ⟨n, rfl⟩ : ∃ m, n = m + 1 := ⟨n - 1, by omega⟩
  obtain ⟨c', i', hc', hp⟩ := condition_of_derives eof n (us ++ rest) i reports
    (a := .whileCondition) (b := .whileConditionEnd) ho hd hc
    (by simp only [List.length_append]; omega)
  obtain ⟨s', i'', hs', hp'⟩ := hs eof rest n i' reports hend (by omega)
  refine ⟨.loop c' s', i'', by rw [Stmt.unmarked, Stmt.unmarked, hc', hs'], ?_⟩
  have hts : keyword :: opening :: ts ++ closing :: us ++ rest =
      keyword :: opening :: (ts ++ closing :: (us ++ rest)) := by simp
  rw [hts, statement, bind_of_ok (statement_word hk (by decide))]
  simp only [is_eq_decide hk, reduceCtorEq, decide_false, decide_true, Bool.false_eq_true, if_false,
    if_true]
  exact (bind_of_ok hp).trans (bind_of_ok hp')

theorem accepted_for {dangling : Bool} {keyword opening semicolon closing : Token}
    {ws : List Token} {first : Option (Stmt ν)} {c u : Option (Expr ν)} {s : Stmt ν}
    (hk : keyword.is .forKw = true) (ho : opening.is .leftParen = true) (hi : ForInit ts first)
    (hc : Optional us c) (hsemi : semicolon.is .semicolon = true) (hu : Optional vs u)
    (hclose : closing.is .rightParen = true) (hs : Accepted (.statement dangling) ws s) :
    Accepted (.statement dangling)
      (keyword :: opening :: ts ++ us ++ semicolon :: vs ++ closing :: ws) (.forLoop first c u s) := by
  intro eof rest n i reports hend hn
  simp only [List.length_append, List.length_cons] at hn
  obtain ⟨n, rfl⟩ : ∃ m, n = m + 1 := ⟨n - 1, by omega⟩
  obtain ⟨first', c', u', i', hi', hc', hu', hp⟩ := forClauses_of_phrases eof n (ws ++ rest) i
    reports ho hi hc hsemi hu hclose
    (by simp only [List.length_append]; omega)
  obtain ⟨s', i'', hs', hp'⟩ := hs eof rest n i' reports hend (by omega)
  refine ⟨.forLoop first' c' u' s', i'', unmarked_forLoop hi' hc' hu' hs', ?_⟩
  have hts : keyword :: opening :: ts ++ us ++ semicolon :: vs ++ closing :: ws ++ rest =
      keyword :: opening :: (ts ++ (us ++ semicolon :: (vs ++ closing :: (ws ++ rest)))) := by simp
  rw [hts, statement, bind_of_ok (statement_word hk (by decide))]
  simp only [is_eq_decide hk, decide_true, if_true]
  exact (bind_of_ok hp).trans (bind_of_ok hp')

/-- An `if` without an `else` takes none from what follows. -/
theorem accepted_ifThen {dangling : Bool} {keyword opening closing : Token} {c : Expr ν} {s : Stmt ν}
    (hk : keyword.is .ifKw = true) (ho : opening.is .leftParen = true)
    (hd : Derives .assignment ts c) (hc : closing.is .rightParen = true)
    (hs : Accepted (.statement dangling) us s) :
    Accepted (.statement true) (keyword :: opening :: ts ++ closing :: us)
      (.conditional c s none) := by
  intro eof rest n i reports hend hn
  simp only [List.length_append, List.length_cons] at hn
  obtain ⟨n, rfl⟩ : ∃ m, n = m + 1 := ⟨n - 1, by omega⟩
  obtain ⟨c', i', hc', hp⟩ := condition_of_derives eof n (us ++ rest) i reports
    (a := .ifCondition) (b := .ifConditionEnd) ho hd hc
    (by simp only [List.length_append]; omega)
  obtain ⟨s', i'', hs', hp'⟩ := hs eof rest n i' reports (fun _ => hend rfl) (by omega)
  refine ⟨.conditional c' s' none, i'', by rw [Stmt.unmarked, Stmt.unmarked, hc', hs']; rfl, ?_⟩
  have hts : keyword :: opening :: ts ++ closing :: us ++ rest =
      keyword :: opening :: (ts ++ closing :: (us ++ rest)) := by simp
  have helse : ∀ t ∈ rest.head?, t.is .elseKw = false := by simpa [Ended] using hend rfl
  rw [hts, statement, bind_of_ok (statement_word hk (by decide))]
  simp only [is_eq_decide hk, reduceCtorEq, decide_false, decide_true, Bool.false_eq_true, if_false,
    if_true]
  exact (bind_of_ok hp).trans ((bind_of_ok hp').trans (bind_of_ok (take_of_head helse)))

/-- An `else` is read with the nearest `if`: what stands between them cannot take it. -/
theorem accepted_ifElse {dangling : Bool} {keyword opening closing other : Token} {c : Expr ν}
    {s t : Stmt ν} (hk : keyword.is .ifKw = true) (ho : opening.is .leftParen = true)
    (hd : Derives .assignment ts c) (hc : closing.is .rightParen = true)
    (hs : Accepted (.statement false) us s) (hother : other.is .elseKw = true)
    (ht : Accepted (.statement dangling) vs t) :
    Accepted (.statement dangling) (keyword :: opening :: ts ++ closing :: us ++ other :: vs)
      (.conditional c s (some t)) := by
  intro eof rest n i reports hend hn
  simp only [List.length_append, List.length_cons] at hn
  obtain ⟨n, rfl⟩ : ∃ m, n = m + 1 := ⟨n - 1, by omega⟩
  obtain ⟨c', i', hc', hp⟩ := condition_of_derives eof n (us ++ other :: (vs ++ rest)) i reports
    (a := .ifCondition) (b := .ifConditionEnd) ho hd hc
    (by simp only [List.length_append, List.length_cons]; omega)
  obtain ⟨s', i₂, hs', hp'⟩ := hs eof (other :: (vs ++ rest)) n i' reports (fun hf => nomatch hf)
    (by simp only [List.length_append, List.length_cons]; omega)
  obtain ⟨t', i₃, ht', hp''⟩ := ht eof rest n i₂ reports hend (by omega)
  refine ⟨.conditional c' s' (some t'), i₃, ?_, ?_⟩
  · rw [Stmt.unmarked, Stmt.unmarked, hc', hs', Stmt.unmarkedOpt, Stmt.unmarkedOpt, ht']
  have hts : keyword :: opening :: ts ++ closing :: us ++ other :: vs ++ rest =
      keyword :: opening :: (ts ++ closing :: (us ++ other :: (vs ++ rest))) := by simp
  rw [hts, statement, bind_of_ok (statement_word hk (by decide))]
  simp only [is_eq_decide hk, reduceCtorEq, decide_false, decide_true, Bool.false_eq_true, if_false,
    if_true]
  exact (bind_of_ok hp).trans ((bind_of_ok hp').trans
    ((bind_of_ok (take_of_is hother)).trans (bind_of_ok hp'')))

/-! ## Blocks -/

variable (eof n rest i reports) in
/-- Declarations are read up to the end of what encloses them. -/
theorem declarations_of_accepted (inBlock : Bool)
    (hstop : if inBlock then ∃ right us, rest = right :: us ∧ right.is .rightBrace = true else rest = [])
    (parts : List (List Token × Stmt ν)) (hforms : ∀ p ∈ parts, Forms .declaration p.1 p.2)
    (hparts : ∀ p ∈ parts, Accepted .declaration p.1 p.2)
    (hn : 16 * ((parts.map Prod.fst).flatten.length + rest.length) + 13 ≤ n) :
    ∃ body i', Stmt.unmarkedAll body = Stmt.unmarkedAll (parts.map Prod.snd) ∧
      declarations n inBlock eof ⟨(parts.map Prod.fst).flatten ++ rest, i, reports⟩ =
        .ok body ⟨rest, i', reports⟩ := by
  induction parts generalizing n i with
  | nil =>
    obtain ⟨n, rfl⟩ : ∃ m, n = m + 1 := ⟨n - 1, by omega⟩
    refine ⟨[], i, rfl, ?_⟩
    rw [declarations]
    cases inBlock with
    | true =>
      obtain ⟨right, us, rfl, hright⟩ := hstop
      have hatEnd : atEnd eof ⟨right :: us, i, reports⟩ = .ok false ⟨right :: us, i, reports⟩ := rfl
      exact (bind_of_ok hatEnd).trans (bind_of_ok (check_of_is hright))
    | false =>
      obtain rfl : rest = [] := hstop
      rfl
  | cons p parts ih =>
    simp only [List.map_cons, List.flatten_cons, List.length_append] at hn ⊢
    obtain ⟨n, rfl⟩ : ∃ m, n = m + 1 := ⟨n - 1, by omega⟩
    have hform := hforms p (by simp)
    have hfirst : Ended [.rightBrace] (p.1 ++ ((parts.map Prod.fst).flatten ++ rest)) :=
      (ended_of_forms hform).mono (by decide)
    have hnext : Ended [.elseKw] ((parts.map Prod.fst).flatten ++ rest) := by
      cases parts with
      | nil =>
        cases inBlock with
        | true =>
          obtain ⟨right, us, rfl, hright⟩ := hstop
          exact .of_is hright (by decide)
        | false =>
          obtain rfl : rest = [] := hstop
          intro t ht
          cases ht
      | cons q parts =>
        rw [List.map_cons, List.flatten_cons, List.append_assoc]
        exact (ended_of_forms (hforms q (by simp))).mono (by decide)
    obtain ⟨s, i₁, hs, hp⟩ := hparts p (by simp) eof ((parts.map Prod.fst).flatten ++ rest) n i reports
      hnext (by simp only [List.length_append]; omega)
    have hlen : 1 ≤ p.1.length := List.length_pos_iff.2 (ne_nil_of_forms hform)
    obtain ⟨body, i₂, hbody, hp'⟩ := ih (n := n) (i := i₁)
      (fun q hq => hforms q (List.mem_cons_of_mem _ hq))
      (fun q hq => hparts q (List.mem_cons_of_mem _ hq)) (by omega)
    refine ⟨s :: body, i₂, by rw [Stmt.unmarkedAll, Stmt.unmarkedAll, hs, hbody], ?_⟩
    have hr : recover (declaration n) dropBroken eof
        ⟨p.1 ++ ((parts.map Prod.fst).flatten ++ rest), i, reports⟩ =
        .ok (some s) ⟨(parts.map Prod.fst).flatten ++ rest, i₁, reports⟩ := by
      rw [recover, hp]
    have hend : (p.1 ++ ((parts.map Prod.fst).flatten ++ rest)).isEmpty = false := by
      simp [ne_nil_of_forms hform]
    have hatEnd : atEnd eof ⟨p.1 ++ ((parts.map Prod.fst).flatten ++ rest), i, reports⟩ =
        .ok false ⟨p.1 ++ ((parts.map Prod.fst).flatten ++ rest), i, reports⟩ := by
      rw [atEnd, hend]
    rw [List.append_assoc, declarations, bind_of_ok hatEnd, bind_of_ok (check_of_head hfirst.head_is)]
    simp only [Bool.and_false, Bool.or_self, Bool.false_eq_true, if_false]
    exact (bind_of_ok hr).trans (bind_of_ok hp')

variable (eof n rest i reports) in
theorem block_of_accepted {right : Token} (parts : List (List Token × Stmt ν))
    (hforms : ∀ p ∈ parts, Forms .declaration p.1 p.2)
    (hparts : ∀ p ∈ parts, Accepted .declaration p.1 p.2) (hright : right.is .rightBrace = true)
    (hn : 16 * ((parts.map Prod.fst).flatten.length + rest.length + 1) + 14 ≤ n) :
    ∃ body i', Stmt.unmarkedAll body = Stmt.unmarkedAll (parts.map Prod.snd) ∧
      block n eof ⟨(parts.map Prod.fst).flatten ++ right :: rest, i, reports⟩ =
        .ok body ⟨rest, i', reports⟩ := by
  obtain ⟨n, rfl⟩ : ∃ m, n = m + 1 := ⟨n - 1, by omega⟩
  obtain ⟨body, i', hbody, hp⟩ := declarations_of_accepted eof n (right :: rest) i reports true
    ⟨right, rest, rfl, hright⟩ parts hforms hparts
    (by simp only [List.length_cons]; omega)
  refine ⟨body, i', hbody, ?_⟩
  rw [block, bind_of_ok hp]
  exact bind_of_ok (consume_of_is hright)

theorem accepted_block {left right : Token} {parts : List (List Token × Stmt ν)}
    (hleft : left.is .leftBrace = true) (hforms : ∀ p ∈ parts, Forms .declaration p.1 p.2)
    (hparts : ∀ p ∈ parts, Accepted .declaration p.1 p.2) (hright : right.is .rightBrace = true) :
    Accepted (.statement false) (left :: (parts.map Prod.fst).flatten ++ [right])
      (.block (parts.map Prod.snd)) := by
  intro eof rest n i reports _ hn
  simp only [List.length_append, List.length_cons, List.length_nil] at hn
  obtain ⟨n, rfl⟩ : ∃ m, n = m + 1 := ⟨n - 1, by omega⟩
  obtain ⟨body, i', hbody, hp⟩ := block_of_accepted eof n rest i reports parts hforms hparts hright
    (by omega)
  refine ⟨.block body, i', by rw [Stmt.unmarked, Stmt.unmarked, hbody], ?_⟩
  have hts : left :: (parts.map Prod.fst).flatten ++ [right] ++ rest =
      left :: ((parts.map Prod.fst).flatten ++ right :: rest) := by simp
  rw [hts, statement, bind_of_ok (statement_word hleft (by decide))]
  simp only [is_eq_decide hleft, reduceCtorEq, decide_false, Bool.false_eq_true, if_false]
  exact bind_of_ok hp

/-! ## Functions and classes -/

variable (eof n rest i reports) in
theorem function_of_accepted (f : FunPhrase ν) (role : Role)
    (hforms : ∀ p ∈ f.body, Forms .declaration p.1 p.2)
    (hparts : ∀ p ∈ f.body, Accepted .declaration p.1 p.2)
    (hn : 16 * (f.tokens.length + rest.length) + 1 ≤ n) :
    ∃ d i', Stmt.unmarkedFun d = Stmt.unmarkedFun f.decl ∧
      function n role eof ⟨f.tokens ++ rest, i, reports⟩ = .ok d ⟨rest, i', reports⟩ := by
  obtain ⟨n, rfl⟩ : ∃ m, n = m + 1 := ⟨n - 1, by omega⟩
  have hts : f.tokens ++ rest = f.name :: f.opening :: (f.listed ++ f.closing :: f.left ::
      ((f.body.map Prod.fst).flatten ++ f.right :: rest)) := by simp [FunPhrase.tokens]
  have hlen := congrArg List.length hts
  simp only [List.length_append, List.length_cons] at hlen
  obtain ⟨body, i', hbody, hp⟩ := block_of_accepted eof n rest i reports f.body hforms hparts
    f.right_is (by omega)
  refine ⟨⟨f.name, f.params, body⟩, i', ?_, ?_⟩
  · rw [FunPhrase.decl, Stmt.unmarkedFun, Stmt.unmarkedFun, hbody]
  rw [hts, function, bind_of_ok (consume_of_is f.name_is), bind_of_ok (consume_of_is f.opening_is)]
  have hrest : ∀ ts, (do
      let _ ← consume .rightParen .parameterEnd
      let _ ← consume .leftBrace (.functionBody role)
      let body ← block n
      return ⟨f.name, f.params, body⟩ : Parser (FunDecl (Stmt NodeId)))
      eof ⟨f.closing :: f.left :: ts, i, reports⟩ =
      (do return ⟨f.name, f.params, ← block n⟩ : Parser (FunDecl (Stmt NodeId)))
        eof ⟨ts, i, reports⟩ := fun ts =>
    (bind_of_ok (consume_of_is f.closing_is)).trans (bind_of_ok (consume_of_is f.left_is))
  cases hparams : f.params with
  | nil =>
    have hlisted := f.listed_is
    rw [hparams] at hlisted hrest
    cases hlisted' : f.listed with
    | nil =>
      rw [List.nil_append, bind_of_ok (check_of_is f.closing_is)]
      exact (hrest _).trans (bind_of_ok hp)
    | cons t ts =>
      rw [hlisted'] at hlisted
      cases hlisted
  | cons p params =>
    have hfirst : ∀ t ∈ (f.listed ++ f.closing :: f.left ::
        ((f.body.map Prod.fst).flatten ++ f.right :: rest)).head?, t.is .rightParen = false := by
      have hp := f.params_are p (by simp [hparams])
      have hlisted := f.listed_is
      rw [hparams, List.map_cons] at hlisted
      generalize f.listed = listed at hlisted ⊢
      generalize params.map ([·]) = others at hlisted
      cases hlisted <;> simp [is_eq_decide hp]
    have hps := parameters_of_commas eof n
      (f.left :: ((f.body.map Prod.fst).flatten ++ f.right :: rest)) i reports f.closing_is f.params
      (by simp [hparams]) f.params_are 0 (by simpa using f.few_params) f.listed_is (by omega)
    rw [bind_of_ok (check_of_head hfirst), ← hparams]
    exact (bind_of_ok hps).trans ((hrest _).trans (bind_of_ok hp))

variable (eof n rest i reports) in
theorem methods_of_accepted {right : Token} (hright : right.is .rightBrace = true)
    (fs : List (FunPhrase ν)) (hforms : ∀ f ∈ fs, ∀ p ∈ f.body, Forms .declaration p.1 p.2)
    (hparts : ∀ f ∈ fs, ∀ p ∈ f.body, Accepted .declaration p.1 p.2)
    (hn : 16 * ((fs.map FunPhrase.tokens).flatten.length + rest.length + 1) + 2 ≤ n) :
    ∃ ms i', Stmt.unmarkedMethods ms = Stmt.unmarkedMethods (fs.map FunPhrase.decl) ∧
      methods n eof ⟨(fs.map FunPhrase.tokens).flatten ++ right :: rest, i, reports⟩ =
        .ok ms ⟨right :: rest, i', reports⟩ := by
  induction fs generalizing n i with
  | nil =>
    obtain ⟨n, rfl⟩ : ∃ m, n = m + 1 := ⟨n - 1, by omega⟩
    refine ⟨[], i, rfl, ?_⟩
    rw [methods]
    exact bind_of_ok (check_of_is hright)
  | cons f fs ih =>
    simp only [List.map_cons, List.flatten_cons, List.length_append] at hn ⊢
    obtain ⟨n, rfl⟩ : ∃ m, n = m + 1 := ⟨n - 1, by omega⟩
    have hlen : 1 ≤ f.tokens.length := by
      simp only [FunPhrase.tokens, List.length_append, List.length_cons, List.length_nil]
      omega
    obtain ⟨d, i₁, hd, hp⟩ := function_of_accepted eof n
      ((fs.map FunPhrase.tokens).flatten ++ right :: rest) i reports f .method (hforms f (by simp))
      (hparts f (by simp)) (by simp only [List.length_append, List.length_cons]; omega)
    obtain ⟨ms, i₂, hms, hp'⟩ := ih (n := n) (i := i₁)
      (fun g hg => hforms g (List.mem_cons_of_mem _ hg))
      (fun g hg => hparts g (List.mem_cons_of_mem _ hg)) (by omega)
    refine ⟨d :: ms, i₂, by rw [Stmt.unmarkedMethods, Stmt.unmarkedMethods, hd, hms], ?_⟩
    have hfirst : ∀ t ∈ (f.tokens ++ ((fs.map FunPhrase.tokens).flatten ++ right :: rest)).head?,
        t.is .rightBrace = false := by
      simp [FunPhrase.tokens, is_eq_decide f.name_is]
    have hatEnd : atEnd eof ⟨f.tokens ++ ((fs.map FunPhrase.tokens).flatten ++ right :: rest), i,
        reports⟩ = .ok false ⟨f.tokens ++ ((fs.map FunPhrase.tokens).flatten ++ right :: rest), i,
        reports⟩ := rfl
    rw [List.append_assoc, methods, bind_of_ok (check_of_head hfirst), bind_of_ok hatEnd]
    simp only [Bool.or_self, Bool.false_eq_true, if_false]
    exact (bind_of_ok hp).trans (bind_of_ok hp')

theorem accepted_class {keyword x left right : Token} {parent : Option (Expr ν)}
    {fs : List (FunPhrase ν)} (hk : keyword.is .classKw = true) (hx : x.is .identifier = true)
    (hparent : Superclass ts parent) (hleft : left.is .leftBrace = true)
    (hforms : ∀ f ∈ fs, ∀ p ∈ f.body, Forms .declaration p.1 p.2)
    (hparts : ∀ f ∈ fs, ∀ p ∈ f.body, Accepted .declaration p.1 p.2)
    (hright : right.is .rightBrace = true) :
    Accepted .declaration
      (keyword :: x :: ts ++ left :: (fs.map FunPhrase.tokens).flatten ++ [right])
      (.classDecl x parent (fs.map FunPhrase.decl)) := by
  intro eof rest n i reports _ hn
  simp only [List.length_append, List.length_cons, List.length_nil] at hn
  obtain ⟨n, rfl⟩ : ∃ m, n = m + 2 := ⟨n - 2, by omega⟩
  have hany : [Symbol.classKw, .funKw, .varKw].any keyword.is = true := by simp [hk]
  have hts : keyword :: x :: ts ++ left :: (fs.map FunPhrase.tokens).flatten ++ [right] ++ rest =
      keyword :: x :: (ts ++ left :: ((fs.map FunPhrase.tokens).flatten ++ right :: rest)) := by simp
  -- the superclass takes an identity of its own, so the methods start from another one
  have hmethods := fun i => methods_of_accepted eof n rest i reports hright fs hforms hparts (by omega)
  rw [hts, declaration, bind_of_ok (takeAny_of_any hany)]
  simp only [hk, if_true]
  rw [classDeclaration, bind_of_ok (consume_of_is hx)]
  cases hparent with
  | none =>
    obtain ⟨ms, i', hms, hp⟩ := hmethods i
    have hless : ∀ t ∈ (left :: ((fs.map FunPhrase.tokens).flatten ++ right :: rest)).head?,
        t.is .less = false := by simp [is_eq_decide hleft]
    refine ⟨.classDecl x none ms, i', by rw [Stmt.unmarked, Stmt.unmarked, hms]; rfl, ?_⟩
    rw [List.nil_append, bind_of_ok (take_of_head hless)]
    exact (bind_of_ok (consume_of_is hleft)).trans
      ((bind_of_ok hp).trans (bind_of_ok (consume_of_is hright)))
  | @some less y k hless hy =>
    obtain ⟨ms, i', hms, hp⟩ := hmethods (i + 1)
    refine ⟨.classDecl x (some (.variable i y)) ms, i', ?_, ?_⟩
    · rw [Stmt.unmarked, Stmt.unmarked, hms]
      rfl
    rw [List.cons_append, List.cons_append, List.nil_append, bind_of_ok (take_of_is hless)]
    exact (bind_of_ok (consume_of_is hy)).trans ((bind_of_ok (consume_of_is hleft)).trans
      ((bind_of_ok hp).trans (bind_of_ok (consume_of_is hright))))

theorem accepted_function {keyword : Token} (f : FunPhrase ν) (hk : keyword.is .funKw = true)
    (hforms : ∀ p ∈ f.body, Forms .declaration p.1 p.2)
    (hparts : ∀ p ∈ f.body, Accepted .declaration p.1 p.2) :
    Accepted .declaration (keyword :: f.tokens) (.function f.decl) := by
  intro eof rest n i reports _ hn
  simp only [List.length_cons] at hn
  obtain ⟨n, rfl⟩ : ∃ m, n = m + 1 := ⟨n - 1, by omega⟩
  obtain ⟨d, i', hd, hp⟩ := function_of_accepted eof n rest i reports f .function hforms hparts
    (by omega)
  have hany : [Symbol.classKw, .funKw, .varKw].any keyword.is = true := by simp [hk]
  refine ⟨.function d, i', by rw [Stmt.unmarked, Stmt.unmarked, hd], ?_⟩
  rw [List.cons_append, declaration, bind_of_ok (takeAny_of_any hany)]
  simp only [is_eq_decide hk, reduceCtorEq, decide_false, decide_true, Bool.false_eq_true, if_false,
    if_true]
  exact bind_of_ok hp

theorem accepted_var {s : Stmt ν} (h : VarPhrase ts s) : Accepted .declaration ts s := by
  intro eof rest n i reports _ hn
  obtain ⟨n, rfl⟩ : ∃ m, n = m + 1 := ⟨n - 1, by omega⟩
  obtain ⟨keyword, us, s', i', rfl, hk, hs, hp⟩ := varDeclaration_of_phrase eof n rest i reports
    h (by omega)
  have hany : [Symbol.classKw, .funKw, .varKw].any keyword.is = true := by simp [hk]
  refine ⟨s', i', hs, ?_⟩
  rw [List.cons_append, declaration, bind_of_ok (takeAny_of_any hany)]
  simp only [is_eq_decide hk, reduceCtorEq, decide_false, Bool.false_eq_true, if_false]
  exact hp

theorem accepted_statement {dangling : Bool} {s : Stmt ν} (hf : Forms (.statement dangling) ts s)
    (h : Accepted (.statement dangling) ts s) : Accepted .declaration ts s := by
  intro eof rest n i reports hend hn
  obtain ⟨n, rfl⟩ : ∃ m, n = m + 1 := ⟨n - 1, by omega⟩
  have hfirst : Ended [.classKw, .funKw, .varKw] (ts ++ rest) :=
    (ended_of_forms hf).mono (by simp [notFirst])
  rw [declaration, bind_of_ok (takeAny_of_head hfirst)]
  exact h eof rest n i reports (fun _ => hend) (by omega)

/-! ## All statements -/

theorem accepted_of_forms {r : Rank} {s : Stmt ν} (h : Forms r ts s) : Accepted r ts s := by
  induction h with
  | classDecl hk hx hparent hleft hforms hright ih =>
    exact accepted_class hk hx hparent hleft hforms ih hright
  | function f hk hforms ih => exact accepted_function f hk hforms ih
  | varDecl h => exact accepted_var h
  | statement hf ih => exact accepted_statement hf ih
  | expression h => exact accepted_expression h
  | print hk hd hsemi => exact accepted_print hk hd hsemi
  | returning hk he hsemi => exact accepted_return hk he hsemi
  | block hleft hforms hright ih => exact accepted_block hleft hforms ih hright
  | loop hk ho hd hc _ ih => exact accepted_loop hk ho hd hc ih
  | forLoop hk ho hi hc hsemi hu hclose _ htree ih =>
    obtain rfl := forTree_iff.1 htree
    exact accepted_for hk ho hi hc hsemi hu hclose ih
  | ifThen hk ho hd hc _ ih => exact accepted_ifThen hk ho hd hc ih
  | ifElse hk ho hd hc _ hother _ ihs iht => exact accepted_ifElse hk ho hd hc ihs hother iht

end Lox.Parser
