import Lox.Proofs.Parser.BlameExpressions

/-!
# Where a statement goes wrong

The parsers of statements meet their expectations as those of expressions do, up to the first fault that
is reported: a fault inside braces is made good on the spot, and what comes after it no longer tells
anything about the grammar (`Recovered`). What may follow a statement may itself begin with `else`, the
one that belongs to an outer `if`; this does no harm, since the inner `if` could have taken it as well
(`Absorbs`).
-/

namespace Lox.Parser

open Grammar (Commas)
open Loose (Forms)

variable {K J : Expected} {w : List Token} {ks : List Symbol}

/-! ## Statements from the left -/

abbrev ThenExpr (K : Expected) : Expected := Then (Loose.Derives .assignment) K

/-- A variable declaration behind its keyword. -/
abbrev VarRest (K : Expected) : Expected :=
  Sym .identifier (Either (Sym .equal (ThenExpr (Sym .semicolon K))) (Sym .semicolon K))

/-- A condition between parentheses. -/
abbrev Conditioned (K : Expected) : Expected := Sym .leftParen (ThenExpr (Sym .rightParen K))

/-- The clauses of a `for` loop. -/
abbrev Clauses (K : Expected) : Expected :=
  Sym .leftParen (Then Loose.ForInit (Then Loose.Optional (Sym .semicolon
    (Then Loose.Optional (Sym .rightParen K)))))

/-- Phrases one after another. -/
inductive Many (P K : Expected) : Expected
  | stop {w : List Token} : K w → Many P K w
  | more {ts w : List Token} : P ts → Many P K w → Many P K (ts ++ w)

abbrev Lines (K : Expected) : Expected := Many (Forms .declaration) K

abbrev Methods (K : Expected) : Expected := Many (Forms .function) K

/-- The braces of a class with its methods. -/
abbrev ClassBody (K : Expected) : Expected := Sym .leftBrace (Methods (Sym .rightBrace K))

/-- A class behind its keyword. -/
abbrev ClassRest (K : Expected) : Expected :=
  Sym .identifier (Either (Sym .less (Sym .identifier (ClassBody K))) (ClassBody K))

/-- The body of a function or of a block, behind its opening brace. -/
abbrev BlockRest (K : Expected) : Expected := Lines (Sym .rightBrace K)

/-- What may follow the parameters of a function. -/
abbrev AfterParameters (K : Expected) : Expected := Sym .rightParen (Sym .leftBrace (BlockRest K))

/-- A parameter. -/
abbrev Parameter : Expected := fun ts => ∃ x : Token, ts = [x] ∧ x.is .identifier = true

/-- What may follow the first branch of an `if`. -/
abbrev AfterBranch (K : Expected) : Expected := Either (Sym .elseKw (Then (Forms .statement) K)) K

theorem then_optional : Then Loose.Optional K w ↔ Either K (ThenExpr K) w := by
  constructor
  · rintro ⟨us, vs, rfl, hus, hvs⟩
    cases hus with
    | none => exact .inl hvs
    | some h => exact .inr ⟨us, vs, rfl, h, hvs⟩
  · rintro (hw | ⟨us, vs, rfl, hus, hvs⟩)
    · exact ⟨[], w, rfl, .none, hw⟩
    · exact ⟨us, vs, rfl, .some hus, hvs⟩

theorem then_varPhrase : Then Loose.VarPhrase K w ↔ Sym .varKw (VarRest K) w := by
  constructor
  · rintro ⟨us, vs, rfl, hus, hvs⟩
    cases hus with
    | bare hk hx hs => exact ⟨hk, hx, .inr ⟨hs, hvs⟩⟩
    | @valued _ _ _ semicolon ts hk hx he hd hs =>
      have hrest : Sym .semicolon K (semicolon :: vs) := ⟨hs, hvs⟩
      exact ⟨hk, hx, .inl ⟨he, ts, _, by simp, hd, hrest⟩⟩
  · intro hw
    obtain ⟨keyword, v, rfl, hk, hv⟩ := exists_of_sym hw
    obtain ⟨x, v, rfl, hx, hv⟩ := exists_of_sym hv
    rcases hv with hv | hv
    · obtain ⟨equal, v, rfl, he, ts, us, rfl, hts, hus⟩ := exists_of_sym hv
      obtain ⟨semicolon, v, rfl, hs, hv⟩ := exists_of_sym hus
      exact ⟨keyword :: x :: equal :: ts ++ [semicolon], v, by simp, .valued hk hx he hts hs, hv⟩
    · obtain ⟨semicolon, v, rfl, hs, hv⟩ := exists_of_sym hv
      exact ⟨[keyword, x, semicolon], v, rfl, .bare hk hx hs, hv⟩

theorem then_exprPhrase : Then Loose.ExprPhrase K w ↔ ThenExpr (Sym .semicolon K) w := by
  constructor
  · rintro ⟨us, vs, rfl, hus, hvs⟩
    cases hus with
    | @mk semicolon ts hd hs =>
      have hrest : Sym .semicolon K (semicolon :: vs) := ⟨hs, hvs⟩
      exact ⟨ts, _, by simp, hd, hrest⟩
  · rintro ⟨us, vs, rfl, hus, hvs⟩
    obtain ⟨semicolon, v, rfl, hs, hv⟩ := exists_of_sym hvs
    exact ⟨us ++ [semicolon], v, by simp, .mk hus hs, hv⟩

theorem then_forInit : Then Loose.ForInit K w ↔
    Sym .semicolon K w ∨ Sym .varKw (VarRest K) w ∨ ThenExpr (Sym .semicolon K) w := by
  rw [← then_varPhrase, ← then_exprPhrase]
  constructor
  · rintro ⟨us, vs, rfl, hus, hvs⟩
    cases hus with
    | none hs => exact .inl ⟨hs, hvs⟩
    | declared h => exact .inr (.inl ⟨us, vs, rfl, h, hvs⟩)
    | evaluated h => exact .inr (.inr ⟨us, vs, rfl, h, hvs⟩)
  · rintro (hw | ⟨us, vs, rfl, hus, hvs⟩ | ⟨us, vs, rfl, hus, hvs⟩)
    · obtain ⟨semicolon, v, rfl, hs, hv⟩ := exists_of_sym hw
      exact ⟨[semicolon], v, rfl, .none hs, hv⟩
    · exact ⟨us, vs, rfl, .declared hus, hvs⟩
    · exact ⟨us, vs, rfl, .evaluated hus, hvs⟩

theorem many_iff {P : Expected} : Many P K w ↔
    ∃ parts : List (List Token), ∃ v, w = parts.flatten ++ v ∧ (∀ ts ∈ parts, P ts) ∧ K v := by
  constructor
  · intro h
    induction h with
    | stop hw => exact ⟨[], _, rfl, by simp, hw⟩
    | @more ts w hts _ ih =>
      obtain ⟨parts, v, rfl, hparts, hv⟩ := ih
      exact ⟨ts :: parts, v, by simp, List.forall_mem_cons.2 ⟨hts, hparts⟩, hv⟩
  · rintro ⟨parts, v, rfl, hparts, hv⟩
    induction parts with
    | nil => exact .stop hv
    | cons ts parts ih =>
      rw [List.forall_mem_cons] at hparts
      rw [List.flatten_cons, List.append_assoc]
      exact .more hparts.1 (ih hparts.2)

theorem then_braces : Then (Forms .braces) K w ↔ Sym .leftBrace (BlockRest K) w := by
  constructor
  · rintro ⟨us, vs, rfl, hus, hvs⟩
    cases hus with
    | @block left right body hleft hbody hright =>
      have hrest : Sym .rightBrace K (right :: vs) := ⟨hright, hvs⟩
      exact ⟨hleft, many_iff.2 ⟨body, _, by simp, hbody, hrest⟩⟩
  · intro hw
    obtain ⟨left, v, rfl, hleft, hv⟩ := exists_of_sym hw
    obtain ⟨body, v, rfl, hbody, hv⟩ := many_iff.1 hv
    obtain ⟨right, v, rfl, hright, hv⟩ := exists_of_sym hv
    exact ⟨left :: body.flatten ++ [right], v, by simp, .block hleft hbody hright, hv⟩

/-- What may follow a `while` or an `if` with its condition. -/
theorem then_conditioned : Conditioned K w ↔ ∃ (opening closing : Token) (ts v : List Token),
    w = opening :: ts ++ closing :: v ∧ opening.is .leftParen = true ∧
      Loose.Derives .assignment ts ∧ closing.is .rightParen = true ∧ K v := by
  constructor
  · intro hw
    obtain ⟨opening, v, rfl, ho, ts, us, rfl, hts, hus⟩ := exists_of_sym hw
    obtain ⟨closing, v, rfl, hc, hv⟩ := exists_of_sym hus
    exact ⟨opening, closing, ts, v, rfl, ho, hts, hc, hv⟩
  · rintro ⟨opening, closing, ts, v, rfl, ho, hts, hc, hv⟩
    have hrest : Sym .rightParen K (closing :: v) := ⟨hc, hv⟩
    exact ⟨ho, ts, _, rfl, hts, hrest⟩

theorem then_clauses : Clauses K w ↔ ∃ (opening semicolon closing : Token) (ts us vs v : List Token),
    w = opening :: ts ++ us ++ semicolon :: vs ++ closing :: v ∧ opening.is .leftParen = true ∧
      Loose.ForInit ts ∧ Loose.Optional us ∧ semicolon.is .semicolon = true ∧ Loose.Optional vs ∧
      closing.is .rightParen = true ∧ K v := by
  constructor
  · intro hw
    obtain ⟨opening, v, rfl, ho, ts, _, rfl, hts, us, v, rfl, hus, hv⟩ := exists_of_sym hw
    obtain ⟨semicolon, v, rfl, hs, vs, v, rfl, hvs, hv⟩ := exists_of_sym hv
    obtain ⟨closing, v, rfl, hc, hv⟩ := exists_of_sym hv
    exact ⟨opening, semicolon, closing, ts, us, vs, v, by simp, ho, hts, hus, hs, hvs, hc, hv⟩
  · rintro ⟨opening, semicolon, closing, ts, us, vs, v, rfl, ho, hts, hus, hs, hvs, hc, hv⟩
    have hlast : Sym .rightParen K (closing :: v) := ⟨hc, hv⟩
    have hmiddle : Sym .semicolon (Then Loose.Optional (Sym .rightParen K))
        (semicolon :: (vs ++ closing :: v)) := ⟨hs, vs, _, rfl, hvs, hlast⟩
    have hrest : Then Loose.Optional (Sym .semicolon (Then Loose.Optional (Sym .rightParen K)))
        (us ++ semicolon :: (vs ++ closing :: v)) := ⟨us, _, rfl, hus, hmiddle⟩
    exact ⟨ho, ts, us ++ semicolon :: (vs ++ closing :: v), by simp, hts, hrest⟩

/-- A statement, by the token that decides of what kind it is. -/
theorem then_statement : Then (Forms .statement) K w ↔
    Sym .forKw (Clauses (Then (Forms .statement) K)) w ∨
    Sym .ifKw (Conditioned (Then (Forms .statement) (AfterBranch K))) w ∨
    Sym .printKw (ThenExpr (Sym .semicolon K)) w ∨
    Sym .returnKw (Then Loose.Optional (Sym .semicolon K)) w ∨
    Sym .whileKw (Conditioned (Then (Forms .statement) K)) w ∨
    Sym .leftBrace (BlockRest K) w ∨
    ThenExpr (Sym .semicolon K) w := by
  rw [← then_braces, ← then_exprPhrase]
  constructor
  · rintro ⟨us, vs, rfl, hus, hvs⟩
    cases hus with
    | braces h => exact .inr (.inr (.inr (.inr (.inr (.inl ⟨us, vs, rfl, h, hvs⟩)))))
    | expression h => exact .inr (.inr (.inr (.inr (.inr (.inr ⟨us, vs, rfl, h, hvs⟩)))))
    | @print keyword semicolon ts hk hd hs =>
      have hrest : Sym .semicolon K (semicolon :: vs) := ⟨hs, hvs⟩
      exact .inr (.inr (.inl ⟨hk, ts, _, by simp, hd, hrest⟩))
    | @returning keyword semicolon ts hk ho hs =>
      have hrest : Sym .semicolon K (semicolon :: vs) := ⟨hs, hvs⟩
      exact .inr (.inr (.inr (.inl ⟨hk, ts, _, by simp, ho, hrest⟩)))
    | @loop keyword opening closing ts us hk ho hd hc h =>
      refine .inr (.inr (.inr (.inr (.inl ⟨hk, then_conditioned.2 ?_⟩))))
      exact ⟨opening, closing, ts, us ++ vs, by simp, ho, hd, hc, us, vs, rfl, h, hvs⟩
    | @forLoop keyword opening semicolon closing ts us vs' ws hk ho hi hcond hs hu hc h =>
      refine .inl ⟨hk, then_clauses.2 ?_⟩
      exact ⟨opening, semicolon, closing, ts, us, vs', ws ++ vs, by simp, ho, hi, hcond, hs, hu, hc,
        ws, vs, rfl, h, hvs⟩
    | @ifThen keyword opening closing ts us hk ho hd hc h =>
      refine .inr (.inl ⟨hk, then_conditioned.2 ?_⟩)
      exact ⟨opening, closing, ts, us ++ vs, by simp, ho, hd, hc, us, vs, rfl, h, .inr hvs⟩
    | @ifElse keyword opening closing other ts us vs' hk ho hd hc h he h' =>
      have hbranch : AfterBranch K (other :: (vs' ++ vs)) := .inl ⟨he, vs', vs, rfl, h', hvs⟩
      refine .inr (.inl ⟨hk, then_conditioned.2 ?_⟩)
      exact ⟨opening, closing, ts, us ++ other :: (vs' ++ vs), by simp, ho, hd, hc, us, _, rfl, h, hbranch⟩
  · rintro (hw | hw | hw | hw | hw | ⟨us, vs, rfl, h, hvs⟩ | ⟨us, vs, rfl, h, hvs⟩)
    · obtain ⟨keyword, v, rfl, hk, hv⟩ := exists_of_sym hw
      obtain ⟨opening, semicolon, closing, ts, us, vs, _, rfl, ho, hts, hus, hs, hvs, hc, ws, v, rfl, hws, hv⟩ :=
        then_clauses.1 hv
      exact ⟨_, v, by simp, .forLoop hk ho hts hus hs hvs hc hws, hv⟩
    · obtain ⟨keyword, v, rfl, hk, hv⟩ := exists_of_sym hw
      obtain ⟨opening, closing, ts, _, rfl, ho, hts, hc, us, v, rfl, hus, hv⟩ := then_conditioned.1 hv
      rcases hv with hv | hv
      · obtain ⟨other, v, rfl, he, vs, v, rfl, hvs, hv⟩ := exists_of_sym hv
        exact ⟨_, v, by simp, .ifElse hk ho hts hc hus he hvs, hv⟩
      · exact ⟨_, v, by simp, .ifThen hk ho hts hc hus, hv⟩
    · obtain ⟨keyword, v, rfl, hk, ts, v, rfl, hts, hv⟩ := exists_of_sym hw
      obtain ⟨semicolon, v, rfl, hs, hv⟩ := exists_of_sym hv
      exact ⟨_, v, by simp, .print hk hts hs, hv⟩
    · obtain ⟨keyword, v, rfl, hk, ts, v, rfl, hts, hv⟩ := exists_of_sym hw
      obtain ⟨semicolon, v, rfl, hs, hv⟩ := exists_of_sym hv
      exact ⟨_, v, by simp, .returning hk hts hs, hv⟩
    · obtain ⟨keyword, v, rfl, hk, hv⟩ := exists_of_sym hw
      obtain ⟨opening, closing, ts, _, rfl, ho, hts, hc, us, v, rfl, hus, hv⟩ := then_conditioned.1 hv
      exact ⟨_, v, by simp, .loop hk ho hts hc hus, hv⟩
    · exact ⟨us, vs, rfl, .braces h, hvs⟩
    · exact ⟨us, vs, rfl, .expression h, hvs⟩

theorem exists_parameters {args : List (List Token)} (h : ∀ arg ∈ args, Parameter arg) :
    ∃ params : List Token, args = params.map ([·]) ∧ ∀ p ∈ params, p.is .identifier = true := by
  induction args with
  | nil => exact ⟨[], rfl, by simp⟩
  | cons arg args ih =>
    rw [List.forall_mem_cons] at h
    obtain ⟨⟨x, rfl, hx⟩, hargs⟩ := h
    obtain ⟨params, rfl, hparams⟩ := ih hargs
    exact ⟨x :: params, rfl, List.forall_mem_cons.2 ⟨hx, hparams⟩⟩

theorem then_parameter : Then Parameter K w ↔ Sym .identifier K w := by
  constructor
  · rintro ⟨_, vs, rfl, ⟨x, rfl, hx⟩, hvs⟩
    exact ⟨hx, hvs⟩
  · intro hw
    obtain ⟨x, v, rfl, hx, hv⟩ := exists_of_sym hw
    exact ⟨[x], v, rfl, ⟨x, rfl, hx⟩, hv⟩

theorem then_function : Then (Forms .function) K w ↔
    Sym .identifier (Sym .leftParen (Either (AfterParameters K)
      (Listing Parameter (AfterParameters K)))) w := by
  constructor
  · rintro ⟨us, vs, rfl, hus, hvs⟩
    cases hus with
    | @signature name opening closing params listed body hx ho hparams hcommas hc hbody =>
      have hafter : AfterParameters K (closing :: (body ++ vs)) :=
        ⟨hc, then_braces.1 ⟨body, vs, rfl, hbody, hvs⟩⟩
      cases params with
      | nil =>
        cases hcommas
        exact ⟨hx, ho, .inl hafter⟩
      | cons p params =>
        refine ⟨hx, ho, .inr ⟨_, listed, _, by simp, fun arg harg => ?_, hcommas, hafter, by simp⟩⟩
        obtain ⟨x, hmem, rfl⟩ := List.mem_map.1 harg
        exact ⟨x, rfl, hparams x hmem⟩
  · intro hw
    obtain ⟨name, v, rfl, hx, hv⟩ := exists_of_sym hw
    obtain ⟨opening, v, rfl, ho, hv⟩ := exists_of_sym hv
    rcases hv with hv | ⟨args, listed, v, _, hargs, hcommas, hafter, rfl⟩
    · obtain ⟨closing, v, rfl, hc, hv⟩ := exists_of_sym hv
      obtain ⟨body, v, rfl, hbody, hv⟩ := then_braces.2 hv
      exact ⟨name :: opening :: [] ++ closing :: body, v, by simp,
        Forms.signature hx ho (fun _ hp => absurd hp List.not_mem_nil) .none hc hbody, hv⟩
    · obtain ⟨params, rfl, hparams⟩ := exists_parameters hargs
      obtain ⟨closing, v, rfl, hc, hv⟩ := exists_of_sym hafter
      obtain ⟨body, v, rfl, hbody, hv⟩ := then_braces.2 hv
      exact ⟨_, v, by simp, .signature hx ho hparams hcommas hc hbody, hv⟩

theorem then_superclass : Then Loose.Superclass K w ↔
    Either (Sym .less (Sym .identifier K)) K w := by
  constructor
  · rintro ⟨us, vs, rfl, hus, hvs⟩
    cases hus with
    | none => exact .inr hvs
    | some hless hx => exact .inl ⟨hless, hx, hvs⟩
  · rintro (hw | hw)
    · obtain ⟨less, v, rfl, hless, hv⟩ := exists_of_sym hw
      obtain ⟨x, v, rfl, hx, hv⟩ := exists_of_sym hv
      exact ⟨[less, x], v, rfl, .some hless hx, hv⟩
    · exact ⟨[], w, rfl, .none, hw⟩

/-- A declaration, by its first token. -/
theorem then_declaration : Then (Forms .declaration) K w ↔
    Sym .classKw (ClassRest K) w ∨ Sym .funKw (Then (Forms .function) K) w ∨
      Sym .varKw (VarRest K) w ∨ Then (Forms .statement) K w := by
  rw [← then_varPhrase]
  constructor
  · rintro ⟨us, vs, rfl, hus, hvs⟩
    cases hus with
    | @classDecl keyword x left right ts methods hk hx hparent hleft hmethods hright =>
      have hlast : Sym .rightBrace K (right :: vs) := ⟨hright, hvs⟩
      have hbody : ClassBody K (left :: (methods.flatten ++ right :: vs)) :=
        ⟨hleft, many_iff.2 ⟨methods, _, rfl, hmethods, hlast⟩⟩
      have hrest := then_superclass.1 ⟨ts, _, rfl, hparent, hbody⟩
      exact .inl ⟨hk, hx, by simpa using hrest⟩
    | @function keyword ts hk h => exact .inr (.inl ⟨hk, ts, vs, rfl, h, hvs⟩)
    | varDecl h => exact .inr (.inr (.inl ⟨us, vs, rfl, h, hvs⟩))
    | statement h => exact .inr (.inr (.inr ⟨us, vs, rfl, h, hvs⟩))
  · rintro (hw | hw | ⟨us, vs, rfl, h, hvs⟩ | ⟨us, vs, rfl, h, hvs⟩)
    · obtain ⟨keyword, v, rfl, hk, hv⟩ := exists_of_sym hw
      obtain ⟨x, v, rfl, hx, hv⟩ := exists_of_sym hv
      obtain ⟨ts, v, rfl, hts, hv⟩ := then_superclass.2 hv
      obtain ⟨left, v, rfl, hleft, hv⟩ := exists_of_sym hv
      obtain ⟨methods, v, rfl, hmethods, hv⟩ := many_iff.1 hv
      obtain ⟨right, v, rfl, hright, hv⟩ := exists_of_sym hv
      exact ⟨_, v, by simp, .classDecl hk hx hts hleft hmethods hright, hv⟩
    · obtain ⟨keyword, v, rfl, hk, ts, v, rfl, hts, hv⟩ := exists_of_sym hw
      exact ⟨keyword :: ts, v, rfl, .function hk hts, hv⟩
    · exact ⟨us, vs, rfl, .varDecl h, hvs⟩
    · exact ⟨us, vs, rfl, .statement h, hvs⟩

/-! ## First tokens -/

/-- A symbol that starts no statement does not come before one. -/
theorem avoids_statement
    (hks : ∀ a ∈ ks, a ∉ statementWords ∧ a ∉ primaryStarts ∧ a ≠ .bang ∧ a ≠ .minus) :
    Avoids (Then (Forms .statement) K) ks := by
  intro w hw
  have hword : ∀ {a}, a ∈ statementWords → a ∉ ks := fun ha hmem => (hks _ hmem).1 ha
  rcases then_statement.1 hw with hw | hw | hw | hw | hw | hw | hw
  case inr.inr.inr.inr.inr.inr =>
    exact avoids_expression (fun a ha => ⟨(hks a ha).2.1, .inl (hks a ha).2.2⟩) w hw
  all_goals exact Avoids.sym (hword (by decide)) w hw

theorem avoids_declaration : Avoids (Then (Forms .declaration) K) [.rightBrace, .elseKw] := by
  intro w hw
  rcases then_declaration.1 hw with hw | hw | hw | hw
  case inr.inr.inr => exact avoids_statement (by decide) w hw
  all_goals exact Avoids.sym (by decide) w hw

/-- A statement that starts with a word of its own or a brace. -/
theorem statement_cons {t : Token} (ht : statementWords.any t.is = true) :
    Then (Forms .statement) K (t :: w) ↔
      t.is .forKw = true ∧ Clauses (Then (Forms .statement) K) w ∨
      t.is .ifKw = true ∧ Conditioned (Then (Forms .statement) (AfterBranch K)) w ∨
      t.is .printKw = true ∧ ThenExpr (Sym .semicolon K) w ∨
      t.is .returnKw = true ∧ Then Loose.Optional (Sym .semicolon K) w ∨
      t.is .whileKw = true ∧ Conditioned (Then (Forms .statement) K) w ∨
      t.is .leftBrace = true ∧ BlockRest K w := by
  have hwords : Avoids (ThenExpr (Sym .semicolon K)) statementWords := avoids_expression (by decide)
  have hno : ¬ ThenExpr (Sym .semicolon K) (t :: w) := hwords.not_cons ht
  simp [then_statement, hno]

theorem statement_ne_nil : ¬ Then (Forms .statement) K [] := by
  intro h
  have hexpr : ¬ ThenExpr (Sym .semicolon K) [] := by
    rintro ⟨us, vs, hnil, hus, _⟩
    obtain ⟨t, us, rfl, _⟩ := starts_of_loose hus
    cases hnil
  rcases then_statement.1 h with h | h | h | h | h | h | h
  case inr.inr.inr.inr.inr.inr => exact hexpr h
  all_goals exact sym_nil h

theorem declaration_ne_nil : ¬ Then (Forms .declaration) K [] := by
  intro h
  rcases then_declaration.1 h with h | h | h | h
  case inr.inr.inr => exact statement_ne_nil h
  all_goals exact sym_nil h

theorem live_statement : Live (Forms .statement) := by
  obtain ⟨ts, hts⟩ := live_expression .assignment
  exact ⟨ts ++ [.ofSymbol .semicolon "" 1], .expression (.mk hts rfl)⟩

theorem live_many {P : Expected} (h : Live K) : Live (Many P K) := h.imp fun _ => .stop

theorem live_optional (hK : Live K) : Live (Then Loose.Optional K) :=
  hK.imp fun _ hw => then_optional.2 (.inl hw)

/-! ## Parts of statements -/

section
variable {eof : Token} {braced : Bool} {s : ParseState} (heof : eof.is .eof = true) (n : Nat)
include heof

theorem expressionStatement_meets (hK : Live K) :
    Meets eof braced (ThenExpr (Sym .semicolon K)) K s (expressionStatement n eof s) := by
  refine .bind ((exprMeets heof n).expression s hK.sym (.sym (by decide))) fun e s₁ => ?_
  exact .consume rfl hK fun semicolon s₂ _ => .pure _

theorem varDeclaration_meets (hK : Live K) :
    Meets eof braced (VarRest K) K s (varDeclaration n eof s) := by
  refine .consume rfl hK.sym.right fun x s₁ _ => ?_
  have hend : ∀ e s', Meets eof braced (Sym .semicolon K) K s' ((do
      let _ ← consume .semicolon .variableEnd
      return Stmt.varDecl x e : Parser (Stmt NodeId)) eof s') :=
    fun e s' => .consume rfl hK fun semicolon s'' _ => .pure _
  refine .take (.sym (by decide)) (fun equal s₂ _ => ?_) fun s₂ => .bind (.pure none) hend
  refine .bind ((exprMeets heof n).expression s₂ hK.sym (.sym (by decide))) fun e s₃ => ?_
  exact .bind (.pure (some e)) hend

theorem expressionUnless_meets {k : Symbol} (hstart : k ∉ primaryStarts ∧ k ≠ .bang ∧ k ≠ .minus)
    (hend : k ∉ followers .assignment) (hK : Live K) :
    Meets eof braced (Then Loose.Optional (Sym k K)) (Sym k K) s (expressionUnless n k eof s) := by
  refine .congr (fun _ => then_optional) (.checkOr (fun _ => head_of_sym) ?_ (.pure _) ?_)
  · exact avoids_expression fun a ha => by
      rw [List.mem_singleton.1 ha]
      exact ⟨hstart.1, .inl hstart.2⟩
  · exact .bind ((exprMeets heof n).expression s hK.sym (.sym hend)) fun e s₁ => .pure _

theorem condition_meets {opening closing : SyntaxFault} (ho : opening.inPassing = false)
    (hc : closing.inPassing = false) (hK : Live K) :
    Meets eof braced (Conditioned K) K s (condition n opening closing eof s) := by
  refine .consume ho ((live_expression _).then hK.sym) fun t s₁ _ => ?_
  refine .bind ((exprMeets heof n).expression s₁ hK.sym (.sym (by decide))) fun e s₂ => ?_
  exact .consume hc hK fun t s₃ _ => .pure _

theorem forClauses_meets (hK : Live K) : Meets eof braced (Clauses K) K s (forClauses n eof s) := by
  have hincrement : Live (Then Loose.Optional (Sym .rightParen K)) := live_optional hK.sym
  have hcondition : Live (Then Loose.Optional (Sym .semicolon
      (Then Loose.Optional (Sym .rightParen K)))) := live_optional hincrement.sym
  have hrest : ∀ initializer s', Meets eof braced
      (Then Loose.Optional (Sym .semicolon (Then Loose.Optional (Sym .rightParen K)))) K s' ((do
      let condition ← expressionUnless n .semicolon
      let _ ← consume .semicolon .loopCondition
      let increment ← expressionUnless n .rightParen
      let _ ← consume .rightParen .forClausesEnd
      return (initializer, condition, increment) :
        Parser (Option (Stmt NodeId) × Option (Expr NodeId) × Option (Expr NodeId))) eof s') := by
    intro initializer s'
    refine .bind (expressionUnless_meets heof n (by decide) (by decide) hincrement) fun c s₁ => ?_
    refine .consume rfl hincrement fun semicolon s₂ _ => ?_
    refine .bind (expressionUnless_meets heof n (by decide) (by decide) hK) fun u s₃ => ?_
    exact .consume rfl hK fun closing s₄ _ => .pure _
  have hlive : Live (Then Loose.ForInit (Then Loose.Optional (Sym .semicolon
      (Then Loose.Optional (Sym .rightParen K))))) := hcondition.sym.imp fun _ hw => then_forInit.2 (.inl hw)
  refine .consume rfl hlive fun opening s₁ _ => ?_
  generalize Then Loose.Optional (Sym .semicolon (Then Loose.Optional (Sym .rightParen K))) = J
    at hcondition hrest
  have hexpr : Avoids (ThenExpr (Sym .semicolon J)) [.semicolon, .varKw] := avoids_expression (by decide)
  refine .takeAny (fun t rest hs ht => .token hs (.ite (fun hsemi => ?_) fun hother => ?_)) fun hno => ?_
  · refine .congr (fun w => ?_) (.bind (.pure none) hrest)
    have hnone : ¬ ThenExpr (Sym .semicolon J) (t :: w) := hexpr.not_cons ht
    simp [then_forInit, hsemi, hnone, is_eq_decide hsemi]
  · have hvar : t.is .varKw = true := by simpa [hother] using ht
    refine .congr (fun w => ?_) (.bind (varDeclaration_meets heof n hcondition) fun s s₂ =>
      .bind (.pure (some s)) hrest)
    have hnone : ¬ ThenExpr (Sym .semicolon J) (t :: w) := hexpr.not_cons ht
    simp [then_forInit, hvar, hnone, is_eq_decide hvar]
  · refine .without hno (fun w hw => then_forInit.2 (.inr (.inr hw))) (fun w hw hM => ?_)
      (.bind (expressionStatement_meets heof n hcondition) fun s s₂ => .bind (.pure (some s)) hrest)
    rcases then_forInit.1 hM with h | h | h
    · exact absurd h (not_sym_of_ended hw (by simp))
    · exact absurd h (not_sym_of_ended hw (by simp))
    · exact h

end

theorem parameters_meets {eof : Token} {braced : Bool} {s : ParseState} (n : Nat) (hJ : Live J)
    (hend : Avoids J [.comma]) (count : Nat) :
    Meets eof braced (Listing Parameter J) J s (parameters n count eof s) := by
  induction n generalizing count s with
  | zero => exact .outOfFuel
  | succ n ih =>
    rw [parameters]
    refine .ite (fun _ => .bind .peek fun t s₁ => .bind (.note t rfl) fun _ s₂ => ?_) fun _ => ?_
    all_goals
      refine .congr (fun _ => listing_iff.trans then_parameter) (.consume rfl hJ.right fun x s₃ _ => ?_)
      refine .take hend (fun comma s₄ _ => ?_) fun s₄ => .pure _
      exact .bind (ih _) fun others s₅ => .pure _

/-! ## The parsers -/

/-- Where an `else` may come next, the `if` before it may take it. -/
def Absorbs (K : Expected) : Prop :=
  ∀ t w, K (t :: w) → t.is .elseKw = true → Then (Forms .statement) K w

/-- Declarations end before a closing brace if they are in a block, and at the end of the input. -/
def Closes (inBlock : Bool) (K : Expected) : Prop :=
  ∀ w, K w → w = [] ∨ inBlock = true ∧ ∃ t ∈ w.head?, t.is .rightBrace = true

/-- What holds of the parsers of statements with some fuel. -/
structure StmtMeets (eof : Token) (n : Nat) : Prop where
  declarations {K : Expected} {inBlock : Bool} (s : ParseState) : Live K → Closes inBlock K →
    Meets eof false (Lines K) K s (declarations n inBlock eof s)
  declaration {K : Expected} (s : ParseState) : Live K → Absorbs K →
    Meets eof true (Then (Forms .declaration) K) K s (declaration n eof s)
  classDeclaration {K : Expected} (s : ParseState) : Live K →
    Meets eof true (ClassRest K) K s (classDeclaration n eof s)
  methods {K : Expected} (s : ParseState) : Live K →
    Meets eof true (Methods (Sym .rightBrace K)) (Sym .rightBrace K) s (methods n eof s)
  function {K : Expected} (s : ParseState) (role : Role) : Live K →
    Meets eof true (Then (Forms .function) K) K s (function n role eof s)
  block {K : Expected} (s : ParseState) : Live K →
    Meets eof false (BlockRest K) K s (block n eof s)
  statement {K : Expected} (s : ParseState) : Live K → Absorbs K →
    Meets eof true (Then (Forms .statement) K) K s (statement n eof s)

section
variable {eof : Token} {n : Nat} {s : ParseState} {inBlock : Bool}

theorem many_cases {P : Expected} (h : Many P K w) : K w ∨ Then P (Many P K) w := by
  cases h with
  | stop hw => exact .inl hw
  | more hts hw => exact .inr ⟨_, _, rfl, hts, hw⟩

/-- Where none of the phrases can come next, they are over. -/
theorem many_stops {P : Expected} (a : α) {braced : Bool}
    (hno : ∀ w, w.head? = s.rest.head? → ¬ Then P (Many P K) w) :
    Meets eof braced (Many P K) K s (Pure.pure (f := Parser) a eof s) :=
  (Meets.pure a).weaken (fun _ => .stop) fun w hw hM => (many_cases hM).resolve_right (hno w hw)

/-- Where what is behind them cannot come next, there is one more. -/
theorem many_goes_on {P : Expected} {braced : Bool} {r : Parsed α}
    (hno : ∀ w, w.head? = s.rest.head? → ¬ K w) (h : Meets eof braced (Then P (Many P K)) K s r) :
    Meets eof braced (Many P K) K s r := by
  refine h.weaken ?_ fun w hw hM => (many_cases hM).resolve_left (hno w hw)
  rintro _ ⟨us, vs, rfl, hus, hvs⟩
  exact .more hus hvs

theorem absorbs_lines (h : Closes inBlock K) : Absorbs (Lines K) := by
  intro t w hw ht
  rcases many_cases hw with hw | hw
  · obtain ⟨-, u, hu, hbrace⟩ := (h _ hw).resolve_left (List.cons_ne_nil _ _)
    obtain rfl : t = u := by simpa using hu
    simp [is_eq_decide hbrace] at ht
  · exact absurd hw (avoids_declaration.not_cons (by simp [ht]))

theorem absorbs_afterBranch (h : Absorbs K) : Absorbs (AfterBranch K) := by
  have hmono : ∀ {v}, Then (Forms .statement) K v → Then (Forms .statement) (AfterBranch K) v := by
    rintro _ ⟨us, vs, rfl, hus, hvs⟩
    exact ⟨us, vs, rfl, hus, .inr hvs⟩
  rintro t w (⟨-, hw⟩ | hw) ht
  · exact hmono hw
  · exact hmono (h t w hw ht)

theorem declarations_meets (ih : StmtMeets eof n) (hK : Live K) (hclose : Closes inBlock K) :
    Meets eof false (Lines K) K s (declarations (n + 1) inBlock eof s) := by
  have hmore : s.rest ≠ [] → (inBlock = true → Ended [.rightBrace] s.rest) →
      Meets eof false (Lines K) K s ((do
        let first ← recover (declaration n) dropBroken
        let rest ← declarations n inBlock
        return first.toList ++ rest : Parser (List (Stmt NodeId))) eof s) := by
    intro hne hbrace
    have hlive : Live (Lines K) := live_many hK
    refine many_goes_on (fun w hw h => ?_)
      (.bind ((ih.declaration s hlive (absorbs_lines hclose)).recover dropBroken) fun first s₁ =>
        .bind (ih.declarations s₁ hK hclose) fun rest s₂ => .pure (first.toList ++ rest))
    rcases hclose w h with rfl | ⟨hin, t, ht, hright⟩
    · exact hne (List.head?_eq_none_iff.1 hw.symm)
    · simpa [hright] using hbrace hin t (hw ▸ ht)
  rw [declarations]
  refine .atEnd (fun hend => ?_) fun hne => ?_
  · have hnil : ∀ w, w.head? = s.rest.head? → ¬ Then (Forms .declaration) (Lines K) w :=
      not_of_nil declaration_ne_nil hend
    exact .check (fun _ => many_stops [] hnil) fun _ => many_stops [] hnil
  · refine .check (fun hright => ?_) fun hend => ?_
    · cases inBlock with
      | true => exact many_stops [] (avoids_declaration.not_of_head (by simp) hright)
      | false => exact hmore hne (by simp)
    · rw [if_neg (by simp)]
      exact hmore hne fun _ => hend

theorem declaration_meets (heof : eof.is .eof = true) (ih : StmtMeets eof n) (hK : Live K) (habs : Absorbs K) :
    Meets eof true (Then (Forms .declaration) K) K s (declaration (n + 1) eof s) := by
  rw [declaration]
  refine .takeAny (fun t rest hs ht => .token hs ?_) fun hno => ?_
  · have hwords : Avoids (Then (Forms .statement) K) [.classKw, .funKw, .varKw] := avoids_statement (by decide)
    have hstatement : ∀ {w}, ¬ Then (Forms .statement) K (t :: w) := hwords.not_cons ht
    refine .ite (fun hclass => ?_) fun hother => .ite (fun hfun => ?_) fun hother' => ?_
    · refine .congr (fun w => ?_) (ih.classDeclaration _ hK)
      simp [then_declaration, hclass, is_eq_decide hclass, hstatement]
    · refine .congr (fun w => ?_) (.bind (ih.function _ _ hK) fun f s₁ => .pure _)
      simp [then_declaration, hfun, is_eq_decide hfun, hstatement]
    · have hvar : t.is .varKw = true := by simpa [hother, hother'] using ht
      refine .congr (fun w => ?_) (varDeclaration_meets heof n hK)
      simp [then_declaration, hvar, is_eq_decide hvar, hstatement]
  · refine (ih.statement s hK habs).without hno (fun w h => then_declaration.2 (.inr (.inr (.inr h)))) ?_
    intro w hw hM
    rcases then_declaration.1 hM with h | h | h | h
    case inr.inr.inr => exact h
    all_goals exact absurd h (not_sym_of_ended hw (by simp))

theorem classDeclaration_meets (ih : StmtMeets eof n) (hK : Live K) :
    Meets eof true (ClassRest K) K s (classDeclaration (n + 1) eof s) := by
  have hbody : Live (ClassBody K) := (live_many hK.sym).sym
  have hrest : ∀ name superclass s', Meets eof true (ClassBody K) K s' ((do
      let _ ← consume .leftBrace .classBody
      let methods ← methods n
      let _ ← consume .rightBrace .classEnd
      return Stmt.classDecl name superclass methods : Parser (Stmt NodeId)) eof s') := by
    intro name superclass s'
    refine .consume rfl (live_many hK.sym) fun left s₁ _ => .bind (ih.methods s₁ hK) fun methods s₂ => ?_
    exact .consume rfl hK fun right s₃ _ => .pure _
  rw [classDeclaration]
  refine .consume rfl hbody.right fun name s₁ _ => ?_
  refine .take (.sym (by decide)) (fun less s₂ _ => ?_) fun s₂ => .bind (.pure none) (hrest name)
  refine .consume rfl hbody fun parent s₃ _ => .bind .freshId fun k s₄ => ?_
  exact .bind (.pure _) (hrest name)

theorem avoids_function (hk : Symbol.identifier ∉ ks) : Avoids (Then (Forms .function) K) ks :=
  fun w hw => Avoids.sym hk w (then_function.1 hw)

theorem function_ne_nil : ¬ Then (Forms .function) K [] := fun h => sym_nil (then_function.1 h)

theorem methods_meets (ih : StmtMeets eof n) (hK : Live K) :
    Meets eof true (Methods (Sym .rightBrace K)) (Sym .rightBrace K) s (methods (n + 1) eof s) := by
  have hfunction : Avoids (Then (Forms .function) (Methods (Sym .rightBrace K))) [.rightBrace] :=
    avoids_function (by decide)
  rw [methods]
  refine .check (fun hright => ?_) fun hend => .atEnd (fun hnil => ?_) fun hne => ?_
  · exact many_stops [] (hfunction.not_of_head List.mem_cons_self hright)
  · exact many_stops [] (not_of_nil function_ne_nil hnil)
  · refine many_goes_on (fun w hw => not_sym_of_ended (fun t ht => hend t (hw ▸ ht)) List.mem_cons_self) ?_
    exact .bind (ih.function s .method (live_many hK.sym)) fun first s₁ =>
      .bind (ih.methods s₁ hK) fun rest s₂ => .pure (first :: rest)

theorem function_meets (ih : StmtMeets eof n) (hK : Live K) (role : Role) :
    Meets eof true (Then (Forms .function) K) K s (function (n + 1) role eof s) := by
  have hbody : Live (BlockRest K) := live_many hK.sym
  have hafter : Live (AfterParameters K) := hbody.sym.sym
  have hrest : ∀ name params s', Meets eof true (AfterParameters K) K s' ((do
      let _ ← consume .rightParen .parameterEnd
      let _ ← consume .leftBrace (.functionBody role)
      let body ← block n
      return ⟨name, params, body⟩ : Parser (FunDecl (Stmt NodeId))) eof s') := by
    intro name params s'
    refine .consume rfl hbody.sym fun closing s₁ _ => .consumeBrace (by cases role <;> rfl) hbody ?_
    exact fun left s₂ => .bind (ih.block s₂ hK) fun body s₃ => .pure _
  rw [function]
  refine .congr (fun w => then_function) (.consume rfl hafter.left.sym fun name s₁ _ => ?_)
  refine .consume rfl hafter.left fun opening s₂ _ => .checkOr (fun _ => head_of_sym) ?_ ?_ ?_
  · exact fun w hw => Avoids.sym (by decide) w (then_parameter.1 (listing_iff.1 hw))
  · exact .bind (.pure []) (hrest name)
  · exact .bind (parameters_meets n hafter (.sym (by decide)) 0) (hrest name)

theorem block_meets (ih : StmtMeets eof n) (hK : Live K) :
    Meets eof false (BlockRest K) K s (block (n + 1) eof s) := by
  rw [block]
  have hclose : Closes true (Sym .rightBrace K) := fun _ hw => .inr ⟨rfl, head_of_sym hw⟩
  refine .bind (ih.declarations s hK.sym hclose) fun body s₁ => ?_
  exact .consume rfl hK fun right s₂ _ => .pure _

/-- The branches of an `if`. -/
theorem branches_meets (ih : StmtMeets eof n) (hK : Live K) (habs : Absorbs K) (test : Expr NodeId) :
    Meets eof true (Then (Forms .statement) (AfterBranch K)) K s ((do
      let thenBranch ← statement n
      let elseBranch ← match ← take? .elseKw with
        | some _ => do pure (some (← statement n))
        | none => pure none
      return .conditional test thenBranch elseBranch : Parser (Stmt NodeId)) eof s) := by
  refine .bind (ih.statement s hK.right (absorbs_afterBranch habs)) fun thenBranch s₁ => ?_
  refine .takeAny (fun other rest hs hother => ?_) fun hno => ?_
  · have helse : other.is .elseKw = true := by simpa using hother
    refine .token hs (.congr (fun w => ?_) (.bind (ih.statement _ hK habs) fun elseBranch s₂ => ?_))
    · exact ⟨fun h => h.elim And.right fun h => habs _ _ h helse, fun h => .inl ⟨helse, h⟩⟩
    · exact .bind (.pure (some elseBranch)) fun _ _ => .pure _
  · refine .without hno (fun _ => .inr) (fun w hw hM => hM.resolve_left fun h => ?_)
      (.bind (.pure none) fun _ _ => .pure _)
    exact not_sym_of_ended hw List.mem_cons_self h

theorem statement_meets (heof : eof.is .eof = true) (ih : StmtMeets eof n) (hK : Live K)
    (habs : Absorbs K) : Meets eof true (Then (Forms .statement) K) K s (statement (n + 1) eof s) := by
  have hlive : ∀ {J}, Live J → Live (Then (Forms .statement) J) := live_statement.then
  rw [statement]
  refine .takeAny (fun t rest hs ht => ?_) fun hno => ?_
  · refine .ite (fun hfor => ?_) fun hfor => .ite (fun hif => ?_) fun hif => .ite (fun hprint => ?_)
      fun hprint => .ite (fun hreturn => ?_) fun hreturn => .ite (fun hwhile => ?_) fun hwhile => ?_
    · refine .token hs (.congr (fun w => ?_) (.bind (forClauses_meets heof n (hlive hK)) ?_))
      · simp [statement_cons ht, is_eq_decide hfor]
      · rintro ⟨initializer, condition, increment⟩ s₁
        exact .bind (ih.statement s₁ hK habs) fun body s₂ => .pure _
    · have hbranch : Live (AfterBranch K) := hK.right
      refine .token hs (.congr (fun w => ?_) (.bind (condition_meets heof n rfl rfl (hlive hbranch)) ?_))
      · simp [statement_cons ht, is_eq_decide hif]
      · exact fun test s₁ => branches_meets ih hK habs test
    · have hend : Live (Sym .semicolon K) := hK.sym
      refine .token hs (.congr (fun w => ?_) (.bind ((exprMeets heof n).expression _ hend
        (.sym (by decide))) ?_))
      · simp [statement_cons ht, is_eq_decide hprint]
      · exact fun value s₁ => .consume rfl hK fun semicolon s₂ _ => .pure _
    · refine .token hs (.congr (fun w => ?_) (.bind (expressionUnless_meets (k := .semicolon) heof n (by decide)
        (by decide) hK) ?_))
      · simp [statement_cons ht, is_eq_decide hreturn]
      · exact fun value s₁ => .consume rfl hK fun semicolon s₂ _ => .pure _
    · refine .token hs (.congr (fun w => ?_) (.bind (condition_meets heof n rfl rfl (hlive hK)) ?_))
      · simp [statement_cons ht, is_eq_decide hwhile]
      · exact fun test s₁ => .bind (ih.statement s₁ hK habs) fun body s₂ => .pure _
    · have hbrace : t.is .leftBrace = true := by
        simpa [statementWords, hfor, hif, hprint, hreturn, hwhile] using ht
      refine .brace hs hbrace (.congr (fun w => ?_) (.bind (ih.block _ hK) fun body s₁ => .pure _))
      simp [statement_cons ht, is_eq_decide hbrace]
  · refine (expressionStatement_meets heof n hK).without hno (fun w h => ?_) fun w hw hM => ?_
    · exact then_statement.2 (.inr (.inr (.inr (.inr (.inr (.inr h))))))
    · rcases then_statement.1 hM with h | h | h | h | h | h | h
      case inr.inr.inr.inr.inr.inr => exact h
      all_goals exact absurd h (not_sym_of_ended hw (by decide))

end

theorem stmtMeets {eof : Token} (heof : eof.is .eof = true) (n : Nat) : StmtMeets eof n := by
  induction n with
  | zero =>
    constructor <;> intros
    · rw [declarations]; exact .outOfFuel
    · rw [declaration]; exact .outOfFuel
    · rw [classDeclaration]; exact .outOfFuel
    · rw [methods]; exact .outOfFuel
    · rw [function]; exact .outOfFuel
    · rw [block]; exact .outOfFuel
    · rw [statement]; exact .outOfFuel
  | succ n ih =>
    exact ⟨fun _ => declarations_meets ih, fun _ => declaration_meets heof ih,
      fun _ => classDeclaration_meets ih, fun _ => methods_meets ih,
      fun _ role h => function_meets ih h role, fun _ => block_meets ih,
      fun _ => statement_meets heof ih⟩

end Lox.Parser
