import Lox.Report
import Lox.Tree.Basic

/-!
# Parsers over a token list

A parser reads tokens up to the end marker, gives out node identities and collects reports. It
yields a value, or stops at a fault with its position kept; faults that do not stop it go to the
reports. Recursion is bounded by fuel, and running out of it is an outcome of its own.
-/

namespace Lox

/-- Whether a declaration is a plain function or a method. -/
inductive Role where
  | function
  | method
deriving DecidableEq, Repr

def Role.name : Role → String
  | .function => "function"
  | .method => "method"

/-- Why a token cannot stand where it does. -/
inductive SyntaxFault where
  | className
  | superclassName
  | classBody
  | classEnd
  | functionName (role : Role)
  | parameterList (role : Role)
  | parameterName
  | parameterEnd
  | functionBody (role : Role)
  | tooManyParameters
  | variableName
  | variableEnd
  | forClauses
  | loopCondition
  | forClausesEnd
  | ifCondition
  | ifConditionEnd
  | printEnd
  | returnEnd
  | whileCondition
  | whileConditionEnd
  | expressionEnd
  | blockEnd
  | propertyName
  | argumentsEnd
  | tooManyArguments
  | superDot
  | superMethod
  | groupEnd
  | expression
  | inputEnd
  | assignmentTarget
deriving DecidableEq, Repr

namespace SyntaxFault

def message : SyntaxFault → String
  | .className => "Expect class name."
  | .superclassName => "Expect superclass name."
  | .classBody => "Expect '\x7b' before class body."
  | .classEnd => "Expect '\x7d' after class body."
  | .functionName role => "Expect " ++ role.name ++ " name."
  | .parameterList role => "Expect '(' after " ++ role.name ++ " name."
  | .parameterName => "Expect parameter name."
  | .parameterEnd => "Expect ')' after parameters."
  | .functionBody role => "Expect '\x7b' before " ++ role.name ++ " body."
  | .tooManyParameters => "Can't have more than 255 parameters."
  | .variableName => "Expect variable name."
  | .variableEnd => "Expect ';' after variable declaration."
  | .forClauses => "Expect '(' after 'for'."
  | .loopCondition => "Expect ';' after loop condition."
  | .forClausesEnd => "Expect ')' after for clauses."
  | .ifCondition => "Expect '(' after 'if'."
  | .ifConditionEnd => "Expect ')' after if condition."
  | .printEnd => "Expect ';' after value."
  | .returnEnd => "Expect ';' after return value."
  | .whileCondition => "Expect '(' after 'while'."
  | .whileConditionEnd => "Expect ')' after condition."
  | .expressionEnd => "Expect ';' after expression."
  | .blockEnd => "Expect '\x7d' after block."
  | .propertyName => "Expect property name after '.'."
  | .argumentsEnd => "Expect ')' after arguments."
  | .tooManyArguments => "Can't have more than 255 arguments."
  | .superDot => "Expect '.' after 'super'."
  | .superMethod => "Expect superclass method name."
  | .groupEnd => "Expect ')' after expression."
  | .expression => "Expect expression."
  | .inputEnd => "Expect end of expression."
  | .assignmentTarget => "Invalid assignment target."

def report (fault : SyntaxFault) (t : Token) : Report := .syntactic t fault.message

end SyntaxFault

/-- Where a parser stands: the tokens before the end marker, the next node identity, and the reports
so far. -/
structure ParseState where
  rest    : List Token
  nextId  : NodeId
  reports : List Report
deriving Repr

/-- How a parser ends. -/
inductive Parsed (α : Type) where
  | ok (value : α) (s : ParseState)
  | fault (blamed : Token) (cause : SyntaxFault) (s : ParseState)
  | outOfFuel
deriving Repr

/-- A parser, given the end marker and a state. -/
def Parser (α : Type) := Token → ParseState → Parsed α

namespace Parser

@[always_inline, inline]
protected def pure (a : α) : Parser α := fun _ s => .ok a s

@[always_inline, inline]
protected def bind (x : Parser α) (f : α → Parser β) : Parser β := fun eof s =>
  match x eof s with
  | .ok a s => f a eof s
  | .fault t cause s => .fault t cause s
  | .outOfFuel => .outOfFuel

@[always_inline]
instance : Monad Parser where
  pure := Parser.pure
  bind := Parser.bind

def outOfFuel : Parser α := fun _ _ => .outOfFuel

/-- Stops at a token. -/
def fail (t : Token) (cause : SyntaxFault) : Parser α := fun _ s => .fault t cause s

/-- Reports a fault and goes on. -/
def note (t : Token) (cause : SyntaxFault) : Parser Unit := fun _ s =>
  .ok () { s with reports := s.reports ++ [cause.report t] }

def freshId : Parser NodeId := fun _ s => .ok s.nextId { s with nextId := s.nextId + 1 }

/-- The next token; the end marker when there is none. -/
def peek : Parser Token := fun eof s => .ok (s.rest.headD eof) s

def atEnd : Parser Bool := fun _ s => .ok s.rest.isEmpty s

/-- Takes the next token, if there is one. -/
def advance : Parser Unit := fun _ s => .ok () { s with rest := s.rest.tail }

/-- Whether the next token is of the kind of a symbol. -/
def check (k : Symbol) : Parser Bool := fun _ s =>
  .ok (match s.rest with
    | [] => false
    | t :: _ => t.is k) s

/-- Takes the next token if its kind is in the list. -/
def takeAny? (ks : List Symbol) : Parser (Option Token) := fun _ s =>
  match s.rest with
  | [] => .ok none s
  | t :: rest => if ks.any t.is then .ok (some t) { s with rest } else .ok none s

/-- Takes the next token if it is of the kind of a symbol. -/
def take? (k : Symbol) : Parser (Option Token) := takeAny? [k]

/-- Takes the next token, which has to be of the kind of a symbol. -/
def consume (k : Symbol) (cause : SyntaxFault) : Parser Token := fun eof s =>
  match s.rest with
  | [] => .fault eof cause s
  | t :: rest => if t.is k then .ok t { s with rest } else .fault t cause s

/-- Runs a parser whose faults are reported and then made good by `repair`. -/
@[always_inline, inline]
def recover (x : Parser α) (repair : List Token → List Token) : Parser (Option α) := fun eof s =>
  match x eof s with
  | .ok a s => .ok (some a) s
  | .fault t cause s =>
    .ok none { s with rest := repair s.rest, reports := s.reports ++ [cause.report t] }
  | .outOfFuel => .outOfFuel

/-- The tokens before the first end marker, and that marker. A list without one ends on the line of
its last token. -/
def splitEnd (tokens : List Token) : List Token × Token :=
  (tokens.takeWhile fun t => !t.is .eof,
    (tokens.find? (·.is .eof)).getD (.endAt (tokens.getLast?.elim 1 Token.line)))

end Parser

end Lox
