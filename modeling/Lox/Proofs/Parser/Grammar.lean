import Lox.Tree.Basic

/-!
# The grammar

Which token lists make up which trees. The relations say nothing of how a tree is found: an
expression has a precedence level, a binary operator is left associative because its left operand
may be of its own level, and an `else` belongs to the nearest `if` because what stands before it may
not end in an `if` that still lacks one. The marks of a tree are free, and every token in a tree is
the token of the list that it was made from.
-/

namespace Lox.Grammar

/-- The precedence levels of expressions, loosest first. -/
inductive Level where
  | assignment
  | disjunction
  | conjunction
  | equality
  | comparison
  | term
  | factor
  | unary
  | call
  | primary
deriving DecidableEq, Repr

namespace Level

/-- The next tighter level. -/
def tighter : Level → Level
  | .assignment => .disjunction
  | .disjunction => .conjunction
  | .conjunction => .equality
  | .equality => .comparison
  | .comparison => .term
  | .term => .factor
  | .factor => .unary
  | .unary => .call
  | .call => .primary
  | .primary => .primary

/-- The binary operators of a level whose operands are both evaluated. -/
def operators : Level → List Symbol
  | .equality => [.bangEqual, .equalEqual]
  | .comparison => [.greater, .greaterEqual, .less, .lessEqual]
  | .term => [.minus, .plus]
  | .factor => [.slash, .star]
  | _ => []

/-- The binary operators of a level that may leave out their right operand. -/
def connectives : Level → List Symbol
  | .disjunction => [.orKw]
  | .conjunction => [.andKw]
  | _ => []

end Level

/-- The value of a token that is a literal. -/
def literal? : Kind → Option Literal
  | .number x => some (.number x)
  | .string text => some (.string text)
  | .symbol .falseKw => some (.bool false)
  | .symbol .trueKw => some (.bool true)
  | .symbol .nilKw => some .nil
  | .symbol _ => none

/-- Phrases divided by commas. -/
inductive Commas : List (List Token) → List Token → Prop
  | none : Commas [] []
  | one {ts : List Token} : Commas [ts] ts
  | more {ts us vs : List Token} {rest : List (List Token)} {comma : Token} :
      comma.is .comma → Commas (us :: rest) vs → Commas (ts :: us :: rest) (ts ++ comma :: vs)

/-- The expressions of a level. -/
inductive Derives : Level → List Token → Expr ν → Prop
  | tighter {l : Level} {ts : List Token} {e : Expr ν} : l ≠ .primary → Derives l.tighter ts e →
      Derives l ts e
  | assign {x equal : Token} {ts : List Token} {e : Expr ν} (k : ν) : x.is .identifier →
      equal.is .equal → Derives .assignment ts e →
      Derives .assignment (x :: equal :: ts) (.assign k x e)
  | set {dot x equal : Token} {ts us : List Token} {o e : Expr ν} : Derives .call ts o →
      dot.is .dot → x.is .identifier → equal.is .equal → Derives .assignment us e →
      Derives .assignment (ts ++ dot :: x :: equal :: us) (.set o x e)
  | logical {l : Level} {op : Token} {ts us : List Token} {a b : Expr ν} :
      l.connectives.any op.is → Derives l ts a → Derives l.tighter us b →
      Derives l (ts ++ op :: us) (.logical a op b)
  | binary {l : Level} {op : Token} {ts us : List Token} {a b : Expr ν} :
      l.operators.any op.is → Derives l ts a → Derives l.tighter us b →
      Derives l (ts ++ op :: us) (.binary a op b)
  | unary {op : Token} {ts : List Token} {e : Expr ν} : op.is .bang ∨ op.is .minus →
      Derives .unary ts e → Derives .unary (op :: ts) (.unary op e)
  | call {opening closing : Token} {ts us : List Token} {f : Expr ν}
      {args : List (List Token × Expr ν)} : Derives .call ts f → opening.is .leftParen →
      (∀ p ∈ args, Derives .assignment p.1 p.2) → args.length ≤ 255 →
      Commas (args.map Prod.fst) us → closing.is .rightParen →
      Derives .call (ts ++ opening :: us ++ [closing]) (.call f closing (args.map Prod.snd))
  | get {dot x : Token} {ts : List Token} {o : Expr ν} : Derives .call ts o → dot.is .dot →
      x.is .identifier → Derives .call (ts ++ [dot, x]) (.get o x)
  | literal {t : Token} {v : Literal} : literal? t.kind = some v →
      Derives .primary [t] (.literal v)
  | superRef {keyword dot x : Token} (k : ν) : keyword.is .superKw → dot.is .dot →
      x.is .identifier → Derives .primary [keyword, dot, x] (.superRef k keyword x)
  | thisRef {keyword : Token} (k : ν) : keyword.is .thisKw →
      Derives .primary [keyword] (.thisRef k keyword)
  | variable {x : Token} (k : ν) : x.is .identifier → Derives .primary [x] (.variable k x)
  | grouping {opening closing : Token} {ts : List Token} {e : Expr ν} : opening.is .leftParen →
      Derives .assignment ts e → closing.is .rightParen →
      Derives .primary (opening :: ts ++ [closing]) (.grouping e)

/-- An expression that may be left out. -/
inductive Optional : List Token → Option (Expr ν) → Prop
  | none : Optional [] none
  | some {ts : List Token} {e : Expr ν} : Derives .assignment ts e → Optional ts (some e)

/-- A variable declaration. -/
inductive VarPhrase : List Token → Stmt ν → Prop
  | bare {keyword x semicolon : Token} : keyword.is .varKw → x.is .identifier →
      semicolon.is .semicolon → VarPhrase [keyword, x, semicolon] (.varDecl x none)
  | valued {keyword x equal semicolon : Token} {ts : List Token} {e : Expr ν} :
      keyword.is .varKw → x.is .identifier → equal.is .equal → Derives .assignment ts e →
      semicolon.is .semicolon →
      VarPhrase (keyword :: x :: equal :: ts ++ [semicolon]) (.varDecl x (some e))

/-- An expression statement. -/
inductive ExprPhrase : List Token → Stmt ν → Prop
  | mk {semicolon : Token} {ts : List Token} {e : Expr ν} : Derives .assignment ts e →
      semicolon.is .semicolon → ExprPhrase (ts ++ [semicolon]) (.expression e)

/-- The first clause of a `for` loop, with its semicolon. -/
inductive ForInit : List Token → Option (Stmt ν) → Prop
  | none {semicolon : Token} : semicolon.is .semicolon → ForInit [semicolon] none
  | declared {ts : List Token} {s : Stmt ν} : VarPhrase ts s → ForInit ts (some s)
  | evaluated {ts : List Token} {s : Stmt ν} : ExprPhrase ts s → ForInit ts (some s)

/-- The superclass clause of a class. -/
inductive Superclass : List Token → Option (Expr ν) → Prop
  | none : Superclass [] none
  | some {less x : Token} (k : ν) : less.is .less → x.is .identifier →
      Superclass [less, x] (some (.variable k x))

/-- The tokens of a function from its name on; what stands in its braces is not looked at. -/
structure FunPhrase (ν : Type) where
  name    : Token
  opening : Token
  params  : List Token
  /-- The parameters with the commas between them. -/
  listed  : List Token
  closing : Token
  left    : Token
  body    : List (List Token × Stmt ν)
  right   : Token
  name_is    : name.is .identifier
  opening_is : opening.is .leftParen
  params_are : ∀ p ∈ params, p.is .identifier
  few_params : params.length ≤ 255
  listed_is  : Commas (params.map ([·])) listed
  closing_is : closing.is .rightParen
  left_is    : left.is .leftBrace
  right_is   : right.is .rightBrace

namespace FunPhrase

def tokens (f : FunPhrase ν) : List Token :=
  f.name :: f.opening :: f.listed ++
    f.closing :: f.left :: (f.body.map Prod.fst).flatten ++ [f.right]

def decl (f : FunPhrase ν) : FunDecl (Stmt ν) := ⟨f.name, f.params, f.body.map Prod.snd⟩

end FunPhrase

/-- What a statement may stand for: a declaration too, or only a statement proper. `dangling` tells
whether it ends in an `if` that an `else` could still be added to. -/
inductive Rank where
  | declaration
  | statement (dangling : Bool)
deriving DecidableEq, Repr

/-- The tree of a `for` loop with these clauses and this body. It is made of other statements: the
increment comes after the body, in a block with it, a loop without a condition has `true` for one, and
the first clause stands before the loop, in a block with it. -/
inductive ForTree : Option (Stmt ν) → Option (Expr ν) → Option (Expr ν) → Stmt ν → Stmt ν → Prop
  | conditional {c : Expr ν} {s : Stmt ν} : ForTree none (some c) none s (.loop c s)
  | endless {s : Stmt ν} : ForTree none none none s (.loop (.literal (.bool true)) s)
  | increment {c : Option (Expr ν)} {u : Expr ν} {s t : Stmt ν} :
      ForTree none c none (.block [s, .expression u]) t → ForTree none c (some u) s t
  | first {i : Stmt ν} {c u : Option (Expr ν)} {s t : Stmt ν} : ForTree none c u s t →
      ForTree (some i) c u s (.block [i, t])

/-- What the parser builds for a loop is its tree. -/
theorem forTree_iff {i : Option (Stmt ν)} {c u : Option (Expr ν)} {s t : Stmt ν} :
    ForTree i c u s t ↔ t = .forLoop i c u s := by
  constructor
  · intro h
    induction h with
    | conditional | endless => rfl
    | increment _ ih => exact ih
    | first _ ih =>
      rw [ih]
      rfl
  · have htested : ∀ (c : Option (Expr ν)) (s : Stmt ν), ForTree none c none s (.forLoop none c none s)
      | some _, _ => .conditional
      | none, _ => .endless
    have hloop : ∀ u : Option (Expr ν), ForTree none c u s (.forLoop none c u s)
      | some _ => .increment (htested c _)
      | none => htested c s
    rintro rfl
    cases i with
    | none => exact hloop u
    | some _ => exact .first (hloop u)

/-- Declarations and statements. -/
inductive Forms : Rank → List Token → Stmt ν → Prop
  | classDecl {keyword x left right : Token} {ts : List Token} {parent : Option (Expr ν)}
      {methods : List (FunPhrase ν)} : keyword.is .classKw → x.is .identifier →
      Superclass ts parent → left.is .leftBrace →
      (∀ f ∈ methods, ∀ p ∈ f.body, Forms .declaration p.1 p.2) → right.is .rightBrace →
      Forms .declaration
        (keyword :: x :: ts ++ left :: (methods.map FunPhrase.tokens).flatten ++ [right])
        (.classDecl x parent (methods.map FunPhrase.decl))
  | function {keyword : Token} (f : FunPhrase ν) : keyword.is .funKw →
      (∀ p ∈ f.body, Forms .declaration p.1 p.2) →
      Forms .declaration (keyword :: f.tokens) (.function f.decl)
  | varDecl {ts : List Token} {s : Stmt ν} : VarPhrase ts s → Forms .declaration ts s
  | statement {dangling : Bool} {ts : List Token} {s : Stmt ν} : Forms (.statement dangling) ts s →
      Forms .declaration ts s
  | expression {ts : List Token} {s : Stmt ν} : ExprPhrase ts s → Forms (.statement false) ts s
  | print {keyword semicolon : Token} {ts : List Token} {e : Expr ν} : keyword.is .printKw →
      Derives .assignment ts e → semicolon.is .semicolon →
      Forms (.statement false) (keyword :: ts ++ [semicolon]) (.print keyword e)
  | returning {keyword semicolon : Token} {ts : List Token} {e : Option (Expr ν)} :
      keyword.is .returnKw → Optional ts e → semicolon.is .semicolon →
      Forms (.statement false) (keyword :: ts ++ [semicolon]) (.returning keyword e)
  | block {left right : Token} {body : List (List Token × Stmt ν)} : left.is .leftBrace →
      (∀ p ∈ body, Forms .declaration p.1 p.2) → right.is .rightBrace →
      Forms (.statement false) (left :: (body.map Prod.fst).flatten ++ [right])
        (.block (body.map Prod.snd))
  | loop {dangling : Bool} {keyword opening closing : Token} {ts us : List Token} {c : Expr ν}
      {s : Stmt ν} : keyword.is .whileKw → opening.is .leftParen → Derives .assignment ts c →
      closing.is .rightParen → Forms (.statement dangling) us s →
      Forms (.statement dangling) (keyword :: opening :: ts ++ closing :: us) (.loop c s)
  | forLoop {dangling : Bool} {keyword opening semicolon closing : Token}
      {ts us vs ws : List Token} {i : Option (Stmt ν)} {c u : Option (Expr ν)} {s t : Stmt ν} :
      keyword.is .forKw → opening.is .leftParen → ForInit ts i → Optional us c →
      semicolon.is .semicolon → Optional vs u → closing.is .rightParen →
      Forms (.statement dangling) ws s → ForTree i c u s t →
      Forms (.statement dangling)
        (keyword :: opening :: ts ++ us ++ semicolon :: vs ++ closing :: ws) t
  | ifThen {dangling : Bool} {keyword opening closing : Token} {ts us : List Token} {c : Expr ν}
      {s : Stmt ν} : keyword.is .ifKw → opening.is .leftParen → Derives .assignment ts c →
      closing.is .rightParen → Forms (.statement dangling) us s →
      Forms (.statement true) (keyword :: opening :: ts ++ closing :: us) (.conditional c s none)
  | ifElse {dangling : Bool} {keyword opening closing other : Token} {ts us vs : List Token}
      {c : Expr ν} {s t : Stmt ν} : keyword.is .ifKw → opening.is .leftParen →
      Derives .assignment ts c → closing.is .rightParen → Forms (.statement false) us s →
      other.is .elseKw → Forms (.statement dangling) vs t →
      Forms (.statement dangling) (keyword :: opening :: ts ++ closing :: us ++ other :: vs)
        (.conditional c s (some t))

/-- A whole program. -/
inductive Program : List Token → List (Stmt ν) → Prop
  | mk (parts : List (List Token × Stmt ν)) : (∀ p ∈ parts, Forms .declaration p.1 p.2) →
      Program (parts.map Prod.fst).flatten (parts.map Prod.snd)

end Lox.Grammar
