import Lox.Parser.Statement

/-!
# Parsing with a cursor

The parser once more, as a program over a vector of tokens with an index into it. It looks at a token
by reading the vector, and an index outside of it ends the run; whether the input is at its end is read
off the token under the cursor. The control flow follows the recursive descent: a token is tried against
one kind after another, and one that was taken is read back as the previous one.
-/

namespace Lox

/-- Where the cursor stands, the next node identity, and the reports so far. -/
structure Position where
  current : Nat := 0
  nextId  : NodeId
  reports : List Report := []
deriving DecidableEq, Repr

/-- How a run over a vector ends. -/
inductive Finish (α : Type) where
  | ok (value : α) (p : Position)
  | fault (blamed : Token) (cause : SyntaxFault) (p : Position)
  | outOfBounds
  | outOfFuel
deriving Repr

/-- A parser over a vector of tokens. -/
def Cursor (α : Type) := Array Token → Position → Finish α

namespace Cursor

protected def pure (a : α) : Cursor α := fun _ p => .ok a p

protected def bind (x : Cursor α) (f : α → Cursor β) : Cursor β := fun tokens p =>
  match x tokens p with
  | .ok a p => f a tokens p
  | .fault t cause p => .fault t cause p
  | .outOfBounds => .outOfBounds
  | .outOfFuel => .outOfFuel

instance : Monad Cursor where
  pure := Cursor.pure
  bind := Cursor.bind

/-- The vector a parser works on. One that does not end with an end marker gets one, on the line of its
last token. -/
def close (tokens : List Token) : Array Token :=
  if tokens.getLast?.any (·.is .eof) then tokens.toArray
  else tokens.toArray.push (.endAt (tokens.getLast?.elim 1 Token.line))

/-! ## The operations -/

def outOfFuel : Cursor α := fun _ _ => .outOfFuel

def fail (t : Token) (cause : SyntaxFault) : Cursor α := fun _ p => .fault t cause p

def note (t : Token) (cause : SyntaxFault) : Cursor Unit := fun _ p =>
  .ok () { p with reports := p.reports ++ [cause.report t] }

def freshId : Cursor NodeId := fun _ p => .ok p.nextId { p with nextId := p.nextId + 1 }

/-- The token at an index. -/
def tokenAt (i : Nat) : Cursor Token := fun tokens p =>
  match tokens[i]? with
  | some t => .ok t p
  | none => .outOfBounds

def peek : Cursor Token := fun tokens p => tokenAt p.current tokens p

/-- The token before the cursor; at the start, the one under it. -/
def previous : Cursor Token := fun tokens p => tokenAt (p.current - 1) tokens p

def atEnd : Cursor Bool := do return (← peek).is .eof

def moveOn : Cursor Unit := fun _ p => .ok () { p with current := p.current + 1 }

/-- Moves on, except at the end, and gives the token before the cursor. -/
def advance : Cursor Token := do
  if ← atEnd then previous
  else
    moveOn
    previous

def check (k : Symbol) : Cursor Bool := do
  if ← atEnd then return false
  else return (← peek).is k

/-- Whether the next token is of one of the kinds, tried in order. -/
def checkAny : List Symbol → Cursor Bool
  | [] => return false
  | k :: ks => do
    if ← check k then return true
    else checkAny ks

/-- Takes the next token if it is of the kind. -/
def accept (k : Symbol) : Cursor Bool := do
  if ← check k then
    let _ ← advance
    return true
  else return false

/-- Takes the next token if it is of one of the kinds, tried in order. -/
def acceptAny : List Symbol → Cursor Bool
  | [] => return false
  | k :: ks => do
    if ← accept k then return true
    else acceptAny ks

def consume (k : Symbol) (cause : SyntaxFault) : Cursor Token := do
  if ← check k then advance
  else fail (← peek) cause

/-- Moves on up to the likely start of a statement. -/
def skip : Nat → Cursor Unit
  | 0 => outOfFuel
  | n + 1 => do
    if ← atEnd then return ()
    else if (← previous).is .semicolon then return ()
    else if Parser.startsStatement (← peek) then return ()
    else
      let _ ← advance
      skip n

/-- Drops a broken statement. The loop takes no more rounds than there are tokens. -/
def synchronize : Cursor Unit := fun tokens p =>
  (do
    let _ ← advance
    skip tokens.size : Cursor Unit) tokens p

/-- Runs a parser whose faults are reported and followed by `synchronize`. -/
def recover (x : Cursor α) : Cursor (Option α) := fun tokens p =>
  match x tokens p with
  | .ok a p => .ok (some a) p
  | .fault t cause p =>
    (do
      note t cause
      synchronize
      return none : Cursor (Option α)) tokens p
  | .outOfBounds => .outOfBounds
  | .outOfFuel => .outOfFuel

/-! ## Expressions -/

def assignTo (target : Expr NodeId) (equals : Token) (value : Expr NodeId) : Cursor (Expr NodeId) :=
  match target with
  | .variable _ name => do return .assign (← freshId) name value
  | .get object name => pure (.set object name value)
  | other => do
    note equals .assignmentTarget
    return other

mutual

def expression : Nat → Cursor (Expr NodeId)
  | 0 => outOfFuel
  | n + 1 => do
    let target ← binary n 0
    if ← accept .equal then
      let equals ← previous
      let value ← expression n
      assignTo target equals value
    else return target

def binary : Nat → Nat → Cursor (Expr NodeId)
  | 0, _ => outOfFuel
  | n + 1, level =>
    if level < Parser.binaryLevels then do
      let left ← binary n (level + 1)
      binaryRest n level left
    else unary n

def binaryRest : Nat → Nat → Expr NodeId → Cursor (Expr NodeId)
  | 0, _, _ => outOfFuel
  | n + 1, level, left => do
    if ← checkAny (Parser.operators level) then
      let operator ← advance
      let right ← binary n (level + 1)
      binaryRest n level (Parser.joinAt level left operator right)
    else return left

def unary : Nat → Cursor (Expr NodeId)
  | 0 => outOfFuel
  | n + 1 => do
    if ← acceptAny [.bang, .minus] then
      let operator ← previous
      return .unary operator (← unary n)
    else
      let callee ← primary n
      callRest n callee

def callRest : Nat → Expr NodeId → Cursor (Expr NodeId)
  | 0, _ => outOfFuel
  | n + 1, callee => do
    if ← accept .leftParen then
      let args ← if ← check .rightParen then pure [] else arguments n 0
      let paren ← consume .rightParen .argumentsEnd
      callRest n (.call callee paren args)
    else if ← accept .dot then
      let name ← consume .identifier .propertyName
      callRest n (.get callee name)
    else return callee

def arguments : Nat → Nat → Cursor (List (Expr NodeId))
  | 0, _ => outOfFuel
  | n + 1, count => do
    if Parser.maxArguments ≤ count then note (← peek) .tooManyArguments
    let first ← expression n
    if ← accept .comma then return first :: (← arguments n (count + 1))
    else return [first]

def primary : Nat → Cursor (Expr NodeId)
  | 0 => outOfFuel
  | n + 1 => do
    let t ← peek
    match t.kind with
    | .number value => let _ ← advance; return .literal (.number value)
    | .string text => let _ ← advance; return .literal (.string text)
    | .symbol .falseKw => let _ ← advance; return .literal (.bool false)
    | .symbol .trueKw => let _ ← advance; return .literal (.bool true)
    | .symbol .nilKw => let _ ← advance; return .literal .nil
    | .symbol .superKw =>
      let _ ← advance
      let _ ← consume .dot .superDot
      let method ← consume .identifier .superMethod
      return .superRef (← freshId) t method
    | .symbol .thisKw => let _ ← advance; return .thisRef (← freshId) t
    | .symbol .identifier => let _ ← advance; return .variable (← freshId) t
    | .symbol .leftParen =>
      let _ ← advance
      let inner ← expression n
      let _ ← consume .rightParen .groupEnd
      return .grouping inner
    | _ => fail t .expression

end

/-! ## Statements -/

def parameters : Nat → Nat → Cursor (List Token)
  | 0, _ => outOfFuel
  | n + 1, count => do
    if Parser.maxArguments ≤ count then note (← peek) .tooManyParameters
    let first ← consume .identifier .parameterName
    if ← accept .comma then return first :: (← parameters n (count + 1))
    else return [first]

def varDeclaration (n : Nat) : Cursor (Stmt NodeId) := do
  let name ← consume .identifier .variableName
  let initializer ← if ← accept .equal then pure (some (← expression n)) else pure none
  let _ ← consume .semicolon .variableEnd
  return .varDecl name initializer

def expressionStatement (n : Nat) : Cursor (Stmt NodeId) := do
  let e ← expression n
  let _ ← consume .semicolon .expressionEnd
  return .expression e

/-- An expression, unless the next token is of the kind. -/
def expressionUnless (n : Nat) (k : Symbol) : Cursor (Option (Expr NodeId)) := do
  if ← check k then return none
  else return some (← expression n)

/-- The clauses of a `for` loop, between its parentheses. -/
def forClauses (n : Nat) :
    Cursor (Option (Stmt NodeId) × Option (Expr NodeId) × Option (Expr NodeId)) := do
  let _ ← consume .leftParen .forClauses
  let initializer ←
    if ← accept .semicolon then pure none
    else do
      if ← accept .varKw then pure (some (← varDeclaration n))
      else pure (some (← expressionStatement n))
  let condition ← expressionUnless n .semicolon
  let _ ← consume .semicolon .loopCondition
  let increment ← expressionUnless n .rightParen
  let _ ← consume .rightParen .forClausesEnd
  return (initializer, condition, increment)

def condition (n : Nat) (opening closing : SyntaxFault) : Cursor (Expr NodeId) := do
  let _ ← consume .leftParen opening
  let e ← expression n
  let _ ← consume .rightParen closing
  return e

def printStatement (n : Nat) : Cursor (Stmt NodeId) := do
  let keyword ← previous
  let value ← expression n
  let _ ← consume .semicolon .printEnd
  return .print keyword value

def returnStatement (n : Nat) : Cursor (Stmt NodeId) := do
  let keyword ← previous
  let value ← expressionUnless n .semicolon
  let _ ← consume .semicolon .returnEnd
  return .returning keyword value

mutual

/-- The rounds of the loop over the statements of a block. -/
def blockRest : Nat → Cursor (List (Stmt NodeId))
  | 0 => outOfFuel
  | n + 1 => do
    if ← check .rightBrace then return []
    else if ← atEnd then return []
    else
      let first ← recover (unguarded n)
      let rest ← blockRest n
      return first.toList ++ rest

/-- A declaration whose faults are not yet dealt with. Its line is logged first. -/
def unguarded : Nat → Cursor (Stmt NodeId)
  | 0 => outOfFuel
  | n + 1 => do
    let _ ← peek
    if ← accept .classKw then classDeclaration n
    else if ← accept .funKw then return .function (← function n .function)
    else if ← accept .varKw then varDeclaration n
    else statement n

def classDeclaration : Nat → Cursor (Stmt NodeId)
  | 0 => outOfFuel
  | n + 1 => do
    let name ← consume .identifier .className
    let superclass ← if ← accept .less then
        let parent ← consume .identifier .superclassName
        pure (some (.variable (← freshId) parent))
      else pure none
    let _ ← consume .leftBrace .classBody
    let methods ← methods n
    let _ ← consume .rightBrace .classEnd
    return .classDecl name superclass methods

def methods : Nat → Cursor (List (FunDecl (Stmt NodeId)))
  | 0 => outOfFuel
  | n + 1 => do
    if ← check .rightBrace then return []
    else if ← atEnd then return []
    else
      let first ← function n .method
      let rest ← methods n
      return first :: rest

def function : Nat → Role → Cursor (FunDecl (Stmt NodeId))
  | 0, _ => outOfFuel
  | n + 1, role => do
    let name ← consume .identifier (.functionName role)
    let _ ← consume .leftParen (.parameterList role)
    let params ← if ← check .rightParen then pure [] else parameters n 0
    let _ ← consume .rightParen .parameterEnd
    let _ ← consume .leftBrace (.functionBody role)
    let body ← block n
    return ⟨name, params, body⟩

def block : Nat → Cursor (List (Stmt NodeId))
  | 0 => outOfFuel
  | n + 1 => do
    let body ← blockRest n
    let _ ← consume .rightBrace .blockEnd
    return body

def statement : Nat → Cursor (Stmt NodeId)
  | 0 => outOfFuel
  | n + 1 => do
    if ← accept .forKw then
      let (initializer, condition, increment) ← forClauses n
      let body ← statement n
      return .forLoop initializer condition increment body
    else if ← accept .ifKw then
      let test ← condition n .ifCondition .ifConditionEnd
      let thenBranch ← statement n
      if ← accept .elseKw then
        let elseBranch ← statement n
        return .conditional test thenBranch (some elseBranch)
      else return .conditional test thenBranch none
    else if ← accept .printKw then printStatement n
    else if ← accept .returnKw then returnStatement n
    else if ← accept .whileKw then
      let test ← condition n .whileCondition .whileConditionEnd
      let body ← statement n
      return .loop test body
    else if ← accept .leftBrace then return .block (← block n)
    else expressionStatement n

end

/-- A declaration. A fault in it is reported, and the broken statement is dropped. -/
def declaration (n : Nat) : Cursor (Option (Stmt NodeId)) := recover (unguarded n)

/-! ## Whole inputs -/

/-- The statements up to the end of the input. -/
def parse : Nat → Cursor (List (Stmt NodeId))
  | 0 => outOfFuel
  | n + 1 => do
    if ← atEnd then return []
    else
      let first ← declaration n
      let rest ← parse n
      return first.toList ++ rest

/-- The input as a single expression. A fault is reported. -/
def parseExpression (n : Nat) : Cursor (Option (Expr NodeId)) := fun tokens p =>
  let whole : Cursor (Expr NodeId) := do
    let e ← expression n
    if ← atEnd then return e
    else fail (← peek) .inputEnd
  match whole tokens p with
  | .ok e p => .ok (some e) p
  | .fault t cause p => .ok none { p with reports := p.reports ++ [cause.report t] }
  | .outOfBounds => .outOfBounds
  | .outOfFuel => .outOfFuel

end Cursor

end Lox
