import Lox.Parser.Expression

/-!
# Parsing statements

Declarations, statements and whole programs. A fault inside a declaration is reported, the tokens up
to the next likely start of a statement are dropped, and parsing goes on: one pass reports every
broken statement.
-/

namespace Lox.Parser

/-- Whether a token starts a declaration or statement by a word of its own. -/
def startsStatement (t : Token) : Bool :=
  [Symbol.classKw, .funKw, .varKw, .forKw, .ifKw, .whileKw, .printKw, .returnKw].any t.is

/-- Drops a broken statement: the token at fault, and then everything up to a semicolon or to the
start of another statement. -/
def dropBroken : List Token → List Token
  | [] => []
  | t :: rest =>
    match rest with
    | [] => []
    | next :: _ => if t.is .semicolon || startsStatement next then rest else dropBroken rest

/-- Parameter names divided by commas, after `count` of them. -/
def parameters : Nat → Nat → Parser (List Token)
  | 0, _ => outOfFuel
  | n + 1, count => do
    if maxArguments ≤ count then note (← peek) .tooManyParameters
    let first ← consume .identifier .parameterName
    match ← take? .comma with
    | some _ => do return first :: (← parameters n (count + 1))
    | none => pure [first]

/-- A variable declaration after `var`. -/
def varDeclaration (n : Nat) : Parser (Stmt NodeId) := do
  let name ← consume .identifier .variableName
  let initializer ← match ← take? .equal with
    | some _ => do pure (some (← expression n))
    | none => pure none
  let _ ← consume .semicolon .variableEnd
  return .varDecl name initializer

def expressionStatement (n : Nat) : Parser (Stmt NodeId) := do
  let e ← expression n
  let _ ← consume .semicolon .expressionEnd
  return .expression e

/-- An expression, unless the next token is of the kind of a symbol. -/
def expressionUnless (n : Nat) (k : Symbol) : Parser (Option (Expr NodeId)) := do
  if ← check k then return none
  return some (← expression n)

/-- The clauses of a `for` loop, between its parentheses. -/
def forClauses (n : Nat) :
    Parser (Option (Stmt NodeId) × Option (Expr NodeId) × Option (Expr NodeId)) := do
  let _ ← consume .leftParen .forClauses
  let initializer ← match ← takeAny? [.semicolon, .varKw] with
    | some t => if t.is .semicolon then pure none else do pure (some (← varDeclaration n))
    | none => do pure (some (← expressionStatement n))
  let condition ← expressionUnless n .semicolon
  let _ ← consume .semicolon .loopCondition
  let increment ← expressionUnless n .rightParen
  let _ ← consume .rightParen .forClausesEnd
  return (initializer, condition, increment)

/-- A condition between parentheses. -/
def condition (n : Nat) (opening closing : SyntaxFault) : Parser (Expr NodeId) := do
  let _ ← consume .leftParen opening
  let e ← expression n
  let _ ← consume .rightParen closing
  return e

/-- The symbols that decide which kind of statement follows. -/
def statementWords : List Symbol := [.forKw, .ifKw, .printKw, .returnKw, .whileKw, .leftBrace]

mutual

/-- Declarations up to the end of the input, or up to the end of a block. -/
def declarations : Nat → Bool → Parser (List (Stmt NodeId))
  | 0, _ => outOfFuel
  | n + 1, inBlock => do
    if (← atEnd) || (inBlock && (← check .rightBrace)) then return []
    let first ← recover (declaration n) dropBroken
    let rest ← declarations n inBlock
    return first.toList ++ rest

def declaration : Nat → Parser (Stmt NodeId)
  | 0 => outOfFuel
  | n + 1 => do
    match ← takeAny? [.classKw, .funKw, .varKw] with
    | some t =>
      if t.is .classKw then classDeclaration n
      else if t.is .funKw then return .function (← function n .function)
      else varDeclaration n
    | none => statement n

def classDeclaration : Nat → Parser (Stmt NodeId)
  | 0 => outOfFuel
  | n + 1 => do
    let name ← consume .identifier .className
    let superclass ← match ← take? .less with
      | some _ => do
        let parent ← consume .identifier .superclassName
        pure (some (.variable (← freshId) parent))
      | none => pure none
    let _ ← consume .leftBrace .classBody
    let methods ← methods n
    let _ ← consume .rightBrace .classEnd
    return .classDecl name superclass methods

/-- Methods up to the end of the class body or of the input. -/
def methods : Nat → Parser (List (FunDecl (Stmt NodeId)))
  | 0 => outOfFuel
  | n + 1 => do
    if (← check .rightBrace) || (← atEnd) then return []
    let first ← function n .method
    let rest ← methods n
    return first :: rest

/-- A function or method from its name on. -/
def function : Nat → Role → Parser (FunDecl (Stmt NodeId))
  | 0, _ => outOfFuel
  | n + 1, role => do
    let name ← consume .identifier (.functionName role)
    let _ ← consume .leftParen (.parameterList role)
    let params ← if ← check .rightParen then pure [] else parameters n 0
    let _ ← consume .rightParen .parameterEnd
    let _ ← consume .leftBrace (.functionBody role)
    let body ← block n
    return ⟨name, params, body⟩

/-- The statements of a block after its opening brace, and the closing brace. -/
def block : Nat → Parser (List (Stmt NodeId))
  | 0 => outOfFuel
  | n + 1 => do
    let body ← declarations n true
    let _ ← consume .rightBrace .blockEnd
    return body

def statement : Nat → Parser (Stmt NodeId)
  | 0 => outOfFuel
  | n + 1 => do
    match ← takeAny? statementWords with
    | some t =>
      if t.is .forKw then
        let (initializer, condition, increment) ← forClauses n
        let body ← statement n
        return .forLoop initializer condition increment body
      else if t.is .ifKw then
        let test ← condition n .ifCondition .ifConditionEnd
        let thenBranch ← statement n
        let elseBranch ← match ← take? .elseKw with
          | some _ => do pure (some (← statement n))
          | none => pure none
        return .conditional test thenBranch elseBranch
      else if t.is .printKw then
        let value ← expression n
        let _ ← consume .semicolon .printEnd
        return .print t value
      else if t.is .returnKw then
        let value ← expressionUnless n .semicolon
        let _ ← consume .semicolon .returnEnd
        return .returning t value
      else if t.is .whileKw then
        let test ← condition n .whileCondition .whileConditionEnd
        let body ← statement n
        return .loop test body
      else return .block (← block n)
    | none => expressionStatement n

end

/-- A single expression that takes up the whole input. -/
def wholeExpression (n : Nat) : Parser (Expr NodeId) := do
  let e ← expression n
  if ← atEnd then return e
  fail (← peek) .inputEnd

/-- Enough fuel for a token list: between two tokens taken, fewer than 16 calls are nested. -/
def fuelFor (tokens : List Token) : Nat := 16 * (tokens.length + 2)

/-- What parsing gives: a tree, the reports in order, and the next free node identity. -/
structure Result (α : Type) where
  tree    : α
  reports : List Report
  nextId  : NodeId
deriving Repr

/-- Parses a program; broken statements are reported and left out. -/
def program (nextId : NodeId) (tokens : List Token) : Result (List (Stmt NodeId)) :=
  let (rest, eof) := splitEnd tokens
  match declarations (fuelFor tokens) false eof ⟨rest, nextId, []⟩ with
  | .ok statements s => ⟨statements, s.reports, s.nextId⟩
  | .fault t cause s => ⟨[], s.reports ++ [cause.report t], s.nextId⟩
  | .outOfFuel => ⟨[], [], nextId⟩

/-- Parses the input as one expression. -/
def single (nextId : NodeId) (tokens : List Token) : Result (Option (Expr NodeId)) :=
  let (rest, eof) := splitEnd tokens
  match wholeExpression (fuelFor tokens) eof ⟨rest, nextId, []⟩ with
  | .ok e s => ⟨some e, s.reports, s.nextId⟩
  | .fault t cause s => ⟨none, s.reports ++ [cause.report t], s.nextId⟩
  | .outOfFuel => ⟨none, [], nextId⟩

end Lox.Parser
