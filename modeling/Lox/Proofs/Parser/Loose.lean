import Lox.Proofs.Parser.Steps

/-!
# A looser grammar

The grammar with two of its rules dropped: any expression of the level of `or` may stand left of `=`,
and a call may have any number of arguments, a function any number of parameters. A parser only notes
where these are broken and goes on as if they were not there, so all its other faults are faults against
the looser grammar. Only the tokens matter here, not the trees; and since an `else` that may belong to
either of two `if`s makes no difference to the tokens, nothing is said of where it belongs.
-/

namespace Lox.Loose

open Grammar

/-- The expressions of a level. -/
inductive Derives : Level → List Token → Prop
  | tighter {l : Level} {ts : List Token} : l ≠ .primary → Derives l.tighter ts → Derives l ts
  | assign {equal : Token} {ts us : List Token} : Derives .disjunction ts → equal.is .equal →
      Derives .assignment us → Derives .assignment (ts ++ equal :: us)
  | operator {l : Level} {op : Token} {ts us : List Token} :
      (l.connectives ++ l.operators).any op.is → Derives l ts → Derives l.tighter us →
      Derives l (ts ++ op :: us)
  | unary {op : Token} {ts : List Token} : op.is .bang ∨ op.is .minus → Derives .unary ts →
      Derives .unary (op :: ts)
  | call {opening closing : Token} {ts us : List Token} {args : List (List Token)} :
      Derives .call ts → opening.is .leftParen → (∀ arg ∈ args, Derives .assignment arg) →
      Commas args us → closing.is .rightParen → Derives .call (ts ++ opening :: us ++ [closing])
  | get {dot x : Token} {ts : List Token} : Derives .call ts → dot.is .dot → x.is .identifier →
      Derives .call (ts ++ [dot, x])
  | literal {t : Token} : (literal? t.kind).isSome → Derives .primary [t]
  | superRef {keyword dot x : Token} : keyword.is .superKw → dot.is .dot → x.is .identifier →
      Derives .primary [keyword, dot, x]
  | thisRef {keyword : Token} : keyword.is .thisKw → Derives .primary [keyword]
  | variable {x : Token} : x.is .identifier → Derives .primary [x]
  | grouping {opening closing : Token} {ts : List Token} : opening.is .leftParen →
      Derives .assignment ts → closing.is .rightParen → Derives .primary (opening :: ts ++ [closing])

/-- An expression that may be left out. -/
inductive Optional : List Token → Prop
  | none : Optional []
  | some {ts : List Token} : Derives .assignment ts → Optional ts

/-- A variable declaration. -/
inductive VarPhrase : List Token → Prop
  | bare {keyword x semicolon : Token} : keyword.is .varKw → x.is .identifier →
      semicolon.is .semicolon → VarPhrase [keyword, x, semicolon]
  | valued {keyword x equal semicolon : Token} {ts : List Token} : keyword.is .varKw →
      x.is .identifier → equal.is .equal → Derives .assignment ts → semicolon.is .semicolon →
      VarPhrase (keyword :: x :: equal :: ts ++ [semicolon])

/-- An expression statement. -/
inductive ExprPhrase : List Token → Prop
  | mk {semicolon : Token} {ts : List Token} : Derives .assignment ts → semicolon.is .semicolon →
      ExprPhrase (ts ++ [semicolon])

/-- The first clause of a `for` loop, with its semicolon. -/
inductive ForInit : List Token → Prop
  | none {semicolon : Token} : semicolon.is .semicolon → ForInit [semicolon]
  | declared {ts : List Token} : VarPhrase ts → ForInit ts
  | evaluated {ts : List Token} : ExprPhrase ts → ForInit ts

/-- The superclass clause of a class. -/
inductive Superclass : List Token → Prop
  | none : Superclass []
  | some {less x : Token} : less.is .less → x.is .identifier → Superclass [less, x]

/-- What a phrase is: a declaration, a function from its name on, a statement, or statements in
braces. -/
inductive Part where
  | declaration
  | function
  | statement
  | braces
deriving DecidableEq, Repr

/-- Declarations, statements and their parts. -/
inductive Forms : Part → List Token → Prop
  | classDecl {keyword x left right : Token} {ts : List Token} {methods : List (List Token)} :
      keyword.is .classKw → x.is .identifier → Superclass ts → left.is .leftBrace →
      (∀ f ∈ methods, Forms .function f) → right.is .rightBrace →
      Forms .declaration (keyword :: x :: ts ++ left :: methods.flatten ++ [right])
  | function {keyword : Token} {ts : List Token} : keyword.is .funKw → Forms .function ts →
      Forms .declaration (keyword :: ts)
  | varDecl {ts : List Token} : VarPhrase ts → Forms .declaration ts
  | statement {ts : List Token} : Forms .statement ts → Forms .declaration ts
  | signature {name opening closing : Token} {params listed body : List Token} :
      name.is .identifier → opening.is .leftParen → (∀ p ∈ params, p.is .identifier) →
      Commas (params.map ([·])) listed → closing.is .rightParen → Forms .braces body →
      Forms .function (name :: opening :: listed ++ closing :: body)
  | block {left right : Token} {body : List (List Token)} : left.is .leftBrace →
      (∀ ts ∈ body, Forms .declaration ts) → right.is .rightBrace →
      Forms .braces (left :: body.flatten ++ [right])
  | braces {ts : List Token} : Forms .braces ts → Forms .statement ts
  | expression {ts : List Token} : ExprPhrase ts → Forms .statement ts
  | print {keyword semicolon : Token} {ts : List Token} : keyword.is .printKw →
      Derives .assignment ts → semicolon.is .semicolon →
      Forms .statement (keyword :: ts ++ [semicolon])
  | returning {keyword semicolon : Token} {ts : List Token} : keyword.is .returnKw → Optional ts →
      semicolon.is .semicolon → Forms .statement (keyword :: ts ++ [semicolon])
  | loop {keyword opening closing : Token} {ts us : List Token} : keyword.is .whileKw →
      opening.is .leftParen → Derives .assignment ts → closing.is .rightParen →
      Forms .statement us → Forms .statement (keyword :: opening :: ts ++ closing :: us)
  | forLoop {keyword opening semicolon closing : Token} {ts us vs ws : List Token} :
      keyword.is .forKw → opening.is .leftParen → ForInit ts → Optional us →
      semicolon.is .semicolon → Optional vs → closing.is .rightParen → Forms .statement ws →
      Forms .statement (keyword :: opening :: ts ++ us ++ semicolon :: vs ++ closing :: ws)
  | ifThen {keyword opening closing : Token} {ts us : List Token} : keyword.is .ifKw →
      opening.is .leftParen → Derives .assignment ts → closing.is .rightParen →
      Forms .statement us → Forms .statement (keyword :: opening :: ts ++ closing :: us)
  | ifElse {keyword opening closing other : Token} {ts us vs : List Token} : keyword.is .ifKw →
      opening.is .leftParen → Derives .assignment ts → closing.is .rightParen →
      Forms .statement us → other.is .elseKw → Forms .statement vs →
      Forms .statement (keyword :: opening :: ts ++ closing :: us ++ other :: vs)

/-- A whole program. -/
inductive Program : List Token → Prop
  | mk (parts : List (List Token)) : (∀ ts ∈ parts, Forms .declaration ts) → Program parts.flatten

/-! ## The grammar is part of it -/

variable {ts : List Token}

theorem derives_of_grammar {l : Level} {e : Expr ν} (h : Grammar.Derives l ts e) : Derives l ts := by
  have below : ∀ {l} {ts : List Token}, Derives .call ts → l = Level.disjunction → Derives l ts := by
    rintro l ts h rfl
    exact .tighter (by decide) (.tighter (by decide) (.tighter (by decide) (.tighter (by decide)
      (.tighter (by decide) (.tighter (by decide) (.tighter (by decide) h))))))
  induction h with
  | tighter hl _ ih => exact .tighter hl ih
  | assign k hx hequal _ ih =>
    have hvariable : Derives .call [_] := .tighter (by decide) (.variable hx)
    exact .assign (below hvariable rfl) hequal ih
  | @set dot x equal ts us _ _ _ hdot hx hequal _ iho ih =>
    have hget : Derives .call (ts ++ [dot, x]) := .get iho hdot hx
    have hassign : Derives .assignment (ts ++ [dot, x] ++ equal :: us) :=
      .assign (below hget rfl) hequal ih
    simpa using hassign
  | logical hop _ _ iha ihb => exact .operator (by simp [hop]) iha ihb
  | binary hop _ _ iha ihb => exact .operator (by simp [hop]) iha ihb
  | unary hop _ ih => exact .unary hop ih
  | call _ hopen _ _ hcommas hclose ihf ihargs =>
    refine .call ihf hopen ?_ hcommas hclose
    intro arg harg
    obtain ⟨p, hp, rfl⟩ := List.mem_map.1 harg
    exact ihargs p hp
  | get _ hdot hx ih => exact .get ih hdot hx
  | literal hv => exact .literal (by simp [hv])
  | superRef _ hk hdot hx => exact .superRef hk hdot hx
  | thisRef _ hk => exact .thisRef hk
  | «variable» _ hx => exact .variable hx
  | grouping hopen _ hclose ih => exact .grouping hopen ih hclose

theorem optional_of_grammar {e : Option (Expr ν)} (h : Grammar.Optional ts e) : Optional ts := by
  cases h with
  | none => exact .none
  | some h => exact .some (derives_of_grammar h)

theorem varPhrase_of_grammar {s : Stmt ν} (h : Grammar.VarPhrase ts s) : VarPhrase ts := by
  cases h with
  | bare hk hx hs => exact .bare hk hx hs
  | valued hk hx he hd hs => exact .valued hk hx he (derives_of_grammar hd) hs

theorem exprPhrase_of_grammar {s : Stmt ν} (h : Grammar.ExprPhrase ts s) : ExprPhrase ts := by
  cases h with
  | mk hd hs => exact .mk (derives_of_grammar hd) hs

theorem forInit_of_grammar {s : Option (Stmt ν)} (h : Grammar.ForInit ts s) : ForInit ts := by
  cases h with
  | none hs => exact .none hs
  | declared h => exact .declared (varPhrase_of_grammar h)
  | evaluated h => exact .evaluated (exprPhrase_of_grammar h)

theorem superclass_of_grammar {e : Option (Expr ν)} (h : Grammar.Superclass ts e) : Superclass ts := by
  cases h with
  | none => exact .none
  | some _ hless hx => exact .some hless hx

/-- The part that a phrase of the grammar is. -/
def partOf : Rank → Part
  | .declaration => .declaration
  | .statement _ => .statement

theorem function_of_grammar (f : FunPhrase ν) (h : ∀ p ∈ f.body, Forms .declaration p.1) :
    Forms .function f.tokens := by
  have hbody : Forms .braces (f.left :: (f.body.map Prod.fst).flatten ++ [f.right]) := by
    refine .block f.left_is ?_ f.right_is
    intro ts hts
    obtain ⟨p, hp, rfl⟩ := List.mem_map.1 hts
    exact h p hp
  have hfun := Forms.signature f.name_is f.opening_is f.params_are f.listed_is f.closing_is hbody
  simpa [FunPhrase.tokens] using hfun

theorem forms_of_grammar {r : Rank} {s : Stmt ν} (h : Grammar.Forms r ts s) : Forms (partOf r) ts := by
  induction h with
  | classDecl hk hx hparent hleft _ hright ih =>
    refine .classDecl hk hx (superclass_of_grammar hparent) hleft ?_ hright
    intro ts hts
    obtain ⟨f, hf, rfl⟩ := List.mem_map.1 hts
    exact function_of_grammar f (ih f hf)
  | function f hk _ ih => exact .function hk (function_of_grammar f ih)
  | varDecl h => exact .varDecl (varPhrase_of_grammar h)
  | statement _ ih => exact .statement ih
  | expression h => exact .expression (exprPhrase_of_grammar h)
  | print hk hd hs => exact .print hk (derives_of_grammar hd) hs
  | returning hk ho hs => exact .returning hk (optional_of_grammar ho) hs
  | block hleft _ hright ih =>
    refine .braces (.block hleft ?_ hright)
    intro ts hts
    obtain ⟨p, hp, rfl⟩ := List.mem_map.1 hts
    exact ih p hp
  | loop hk ho hd hc _ ih => exact .loop hk ho (derives_of_grammar hd) hc ih
  | forLoop hk ho hi hcond hs hu hc _ _ ih =>
    exact .forLoop hk ho (forInit_of_grammar hi) (optional_of_grammar hcond) hs
      (optional_of_grammar hu) hc ih
  | ifThen hk ho hd hc _ ih => exact .ifThen hk ho (derives_of_grammar hd) hc ih
  | ifElse hk ho hd hc _ he _ ih ih' => exact .ifElse hk ho (derives_of_grammar hd) hc ih he ih'

/-- Every program of the grammar is one of the looser grammar. -/
theorem program_of_grammar {tree : List (Stmt ν)} (h : Grammar.Program ts tree) : Program ts := by
  cases h with
  | mk parts hparts =>
    refine .mk _ ?_
    intro ts hts
    obtain ⟨p, hp, rfl⟩ := List.mem_map.1 hts
    exact forms_of_grammar (hparts p hp)

/-! ## What occurs in a phrase -/

/-- The symbols that occur in no expression. -/
def outsiders : List Symbol := [.leftBrace, .rightBrace, .semicolon, .eof]

/-- A symbol does not occur. -/
def Free (k : Symbol) (ts : List Token) : Prop := ∀ t ∈ ts, t.is k = false

section
variable {k a : Symbol} {t : Token} {us : List Token} {l : Level} {p : Part}

instance : Decidable (Free k ts) := inferInstanceAs (Decidable (∀ t ∈ ts, t.is k = false))

@[simp] theorem free_nil : Free k [] := by simp [Free]

@[simp] theorem free_cons : Free k (t :: ts) ↔ t.is k = false ∧ Free k ts := List.forall_mem_cons

@[simp] theorem free_append : Free k (ts ++ us) ↔ Free k ts ∧ Free k us := List.forall_mem_append

theorem free_flatten {parts : List (List Token)} (h : ∀ ts ∈ parts, Free k ts) : Free k parts.flatten := by
  intro t ht
  obtain ⟨ts, hts, ht⟩ := List.mem_flatten.1 ht
  exact h ts hts t ht

theorem not_is_of_is (h : t.is a = true) (ha : a ≠ k) : t.is k = false := by
  simpa [Parser.is_eq_decide h] using ha

theorem not_is_of_any {ks : List Symbol} (h : ks.any t.is = true) (hk : k ∉ ks) : t.is k = false := by
  obtain ⟨a, ha, hta⟩ := List.any_eq_true.1 h
  exact not_is_of_is hta fun hak => hk (hak ▸ ha)

theorem free_of_commas {args : List (List Token)} (h : Commas args us) (hk : k ≠ .comma)
    (hargs : ∀ ts ∈ args, Free k ts) : Free k us := by
  induction h with
  | none => exact free_nil
  | one => exact hargs _ (by simp)
  | more hcomma _ ih =>
    rw [List.forall_mem_cons] at hargs
    simp [hargs.1, not_is_of_is hcomma hk.symm, ih hargs.2]

/-- An outsider is not the symbol of a token that has another one. -/
theorem not_outsider (hk : k ∈ outsiders) (h : t.is a = true) (ha : a ∉ outsiders) : t.is k = false :=
  not_is_of_is h fun hak => ha (hak ▸ hk)

theorem free_of_derives (hk : k ∈ outsiders) (h : Derives l ts) : Free k ts := by
  have hcomma : k ≠ .comma := fun h => absurd (h ▸ hk) (by decide)
  have hoperators : ∀ l : Level, k ∉ l.connectives ++ l.operators := by
    intro l
    revert k
    cases l <;> decide
  induction h with
  | tighter _ _ ih => exact ih
  | assign _ he _ ih ih' => simp [ih, ih', not_outsider hk he (by decide)]
  | @operator l _ _ _ hop _ _ ih ih' => simp [ih, ih', not_is_of_any hop (hoperators l)]
  | unary hop _ ih =>
    rcases hop with hop | hop <;> simp [ih, not_outsider hk hop (by decide)]
  | call _ ho _ hcommas hc ih ihargs =>
    simp [ih, not_outsider hk ho (by decide), not_outsider hk hc (by decide),
      free_of_commas hcommas hcomma ihargs]
  | get _ hdot hx ih => simp [ih, not_outsider hk hdot (by decide), not_outsider hk hx (by decide)]
  | @literal t hv =>
    rw [free_cons]
    refine ⟨?_, free_nil⟩
    cases ht : t.is k with
    | false => rfl
    | true =>
      have hnone : ∀ a ∈ outsiders, (literal? (.symbol a)).isSome = false := by decide
      simp [Parser.kind_eq_of_is ht, hnone k hk] at hv
  | superRef ht hdot hx =>
    simp [not_outsider hk ht (by decide), not_outsider hk hdot (by decide), not_outsider hk hx (by decide)]
  | thisRef ht => simp [not_outsider hk ht (by decide)]
  | «variable» hx => simp [not_outsider hk hx (by decide)]
  | grouping ho _ hc ih => simp [ih, not_outsider hk ho (by decide), not_outsider hk hc (by decide)]

/-- No part of a program has an end marker in it. -/
theorem unended_of_forms (h : Forms p ts) : Free .eof ts := by
  have hexpr : ∀ {l ts}, Derives l ts → Free .eof ts := free_of_derives (by decide)
  have hopt : ∀ {ts}, Optional ts → Free .eof ts := by
    rintro _ (_ | h)
    · exact free_nil
    · exact hexpr h
  have hvar : ∀ {ts}, VarPhrase ts → Free .eof ts := by
    intro ts h
    cases h with
    | bare hk hx hs =>
      simp [not_is_of_is hk, not_is_of_is hx, not_is_of_is hs]
    | valued hk hx he hd hs =>
      simp [hexpr hd, not_is_of_is hk, not_is_of_is hx, not_is_of_is he, not_is_of_is hs]
  have hphrase : ∀ {ts}, ExprPhrase ts → Free .eof ts := by
    rintro _ ⟨hd, hs⟩
    simp [hexpr hd, not_is_of_is hs]
  have hinit : ∀ {ts}, ForInit ts → Free .eof ts := by
    rintro _ (hs | h | h)
    · simp [not_is_of_is hs]
    · exact hvar h
    · exact hphrase h
  have hsuper : ∀ {ts}, Superclass ts → Free .eof ts := by
    rintro _ (_ | ⟨hless, hx⟩)
    · exact free_nil
    · simp [not_is_of_is hless, not_is_of_is hx]
  induction h with
  | classDecl hk hx hparent hleft _ hright ih =>
    simp [hsuper hparent, free_flatten ih, not_is_of_is hk, not_is_of_is hx, not_is_of_is hleft, not_is_of_is hright]
  | function hk _ ih => simp [ih, not_is_of_is hk]
  | varDecl h => exact hvar h
  | statement _ ih => exact ih
  | signature hx ho hparams hcommas hc _ ih =>
    have hlisted := free_of_commas (k := .eof) hcommas (by decide) fun ts hts => by
      obtain ⟨x, hmem, rfl⟩ := List.mem_map.1 hts
      simp [not_is_of_is (hparams x hmem)]
    simp [ih, hlisted, not_is_of_is hx, not_is_of_is ho, not_is_of_is hc]
  | block hleft _ hright ih => simp [free_flatten ih, not_is_of_is hleft, not_is_of_is hright]
  | braces _ ih => exact ih
  | expression h => exact hphrase h
  | print hk hd hs => simp [hexpr hd, not_is_of_is hk, not_is_of_is hs]
  | returning hk ho hs => simp [hopt ho, not_is_of_is hk, not_is_of_is hs]
  | loop hk ho hd hc _ ih =>
    simp [hexpr hd, ih, not_is_of_is hk, not_is_of_is ho, not_is_of_is hc]
  | forLoop hk ho hi hcond hs hu hc _ ih =>
    simp [hinit hi, hopt hcond, hopt hu, ih, not_is_of_is hk, not_is_of_is ho, not_is_of_is hs, not_is_of_is hc]
  | ifThen hk ho hd hc _ ih =>
    simp [hexpr hd, ih, not_is_of_is hk, not_is_of_is ho, not_is_of_is hc]
  | ifElse hk ho hd hc _ he _ ih ih' =>
    simp [hexpr hd, ih, ih', not_is_of_is hk, not_is_of_is ho, not_is_of_is hc, not_is_of_is he]

end

end Lox.Loose
