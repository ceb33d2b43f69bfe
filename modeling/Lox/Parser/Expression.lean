import Lox.Parser.Basic

/-!
# Parsing expressions

From loosest to tightest: assignment, the binary levels `or`, `and`, equality, comparison, term and
factor, then unary operators, calls and property accesses, and primary expressions. The binary
levels are left associative and numbered from 0; assignment is right associative and its target is
read as an expression first.
-/

namespace Lox.Parser

/-- The most parameters of a function and arguments of a call. -/
def maxArguments : Nat := 255

/-- The operators of a binary level. -/
def operators : Nat → List Symbol
  | 0 => [.orKw]
  | 1 => [.andKw]
  | 2 => [.bangEqual, .equalEqual]
  | 3 => [.greater, .greaterEqual, .less, .lessEqual]
  | 4 => [.minus, .plus]
  | 5 => [.slash, .star]
  | _ => []

/-- The number of binary levels. -/
def binaryLevels : Nat := 6

/-- The node of a binary level: the two loosest levels short-circuit. -/
def joinAt (level : Nat) (left : Expr NodeId) (operator : Token) (right : Expr NodeId) : Expr NodeId :=
  if level < 2 then .logical left operator right else .binary left operator right

/-- An assignment to an expression that was read before its `=`. Only variables and properties can
be assigned to; any other target is reported and left as it is. -/
def assignTo (target : Expr NodeId) (equals : Token) (value : Expr NodeId) : Parser (Expr NodeId) :=
  match target with
  | .variable _ name => do return .assign (← freshId) name value
  | .get object name => pure (.set object name value)
  | other => do
    note equals .assignmentTarget
    return other

mutual

def expression : Nat → Parser (Expr NodeId)
  | 0 => outOfFuel
  | n + 1 => do
    let target ← binary n 0
    match ← take? .equal with
    | some equals => assignTo target equals (← expression n)
    | none => pure target

/-- An expression of a binary level or tighter. -/
def binary : Nat → Nat → Parser (Expr NodeId)
  | 0, _ => outOfFuel
  | n + 1, level =>
    if level < binaryLevels then do
      let left ← binary n (level + 1)
      binaryRest n level left
    else unary n

/-- The operators of a level that follow a left operand, and their right operands. -/
def binaryRest : Nat → Nat → Expr NodeId → Parser (Expr NodeId)
  | 0, _, _ => outOfFuel
  | n + 1, level, left => do
    match ← takeAny? (operators level) with
    | some operator =>
      let right ← binary n (level + 1)
      binaryRest n level (joinAt level left operator right)
    | none => pure left

def unary : Nat → Parser (Expr NodeId)
  | 0 => outOfFuel
  | n + 1 => do
    match ← takeAny? [.bang, .minus] with
    | some operator => do return .unary operator (← unary n)
    | none =>
      let callee ← primary n
      callRest n callee

/-- The calls and property accesses that follow an expression. -/
def callRest : Nat → Expr NodeId → Parser (Expr NodeId)
  | 0, _ => outOfFuel
  | n + 1, callee => do
    match ← takeAny? [.leftParen, .dot] with
    | some t =>
      if t.is .leftParen then
        let args ← if ← check .rightParen then pure [] else arguments n 0
        let paren ← consume .rightParen .argumentsEnd
        callRest n (.call callee paren args)
      else
        let name ← consume .identifier .propertyName
        callRest n (.get callee name)
    | none => pure callee

/-- Arguments divided by commas, after `count` of them. -/
def arguments : Nat → Nat → Parser (List (Expr NodeId))
  | 0, _ => outOfFuel
  | n + 1, count => do
    if maxArguments ≤ count then note (← peek) .tooManyArguments
    let first ← expression n
    match ← take? .comma with
    | some _ => do return first :: (← arguments n (count + 1))
    | none => pure [first]

def primary : Nat → Parser (Expr NodeId)
  | 0 => outOfFuel
  | n + 1 => do
    let t ← peek
    match t.kind with
    | .number value => advance; return .literal (.number value)
    | .string text => advance; return .literal (.string text)
    | .symbol .falseKw => advance; return .literal (.bool false)
    | .symbol .trueKw => advance; return .literal (.bool true)
    | .symbol .nilKw => advance; return .literal .nil
    | .symbol .superKw =>
      advance
      let _ ← consume .dot .superDot
      let method ← consume .identifier .superMethod
      return .superRef (← freshId) t method
    | .symbol .thisKw => advance; return .thisRef (← freshId) t
    | .symbol .identifier => advance; return .variable (← freshId) t
    | .symbol .leftParen =>
      advance
      let inner ← expression n
      let _ ← consume .rightParen .groupEnd
      return .grouping inner
    | _ => fail t .expression

end

end Lox.Parser
