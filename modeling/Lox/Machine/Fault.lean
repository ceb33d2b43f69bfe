import Lox.Token.Basic

/-!
# Runtime errors

Why a run stops, and the token to blame.
-/

namespace Lox

inductive RuntimeFault where
  | undefinedVariable (name : String)
  | unresolvedVariable (name : String) (distance : Nat)
  | operandNotNumber
  | operandsNotNumbers
  | operandsNotAddable
  | unaryOperator
  | binaryOperator
  | notCallable
  | wrongArity (expected given : Nat)
  | stackOverflow
  | noProperties
  | noFields
  | undefinedProperty (name : String)
  | superclassNotClass
  | superOutsideClass
  | outputClosed
deriving DecidableEq, Repr

namespace RuntimeFault

def message : RuntimeFault → String
  | .undefinedVariable name => "Undefined variable '" ++ name ++ "'."
  | .unresolvedVariable name distance =>
    "Unresolved variable '" ++ name ++ "' at depth " ++ Nat.repr distance ++ "."
  | .operandNotNumber => "Operand must be a number."
  | .operandsNotNumbers => "Operands must be numbers."
  | .operandsNotAddable => "Operands must be two numbers or two strings."
  | .unaryOperator => "Invalid unary operator."
  | .binaryOperator => "Invalid binary operator."
  | .notCallable => "Can only call functions and classes."
  | .wrongArity expected given =>
    "Expected " ++ Nat.repr expected ++ " arguments but got " ++ Nat.repr given ++ "."
  | .stackOverflow => "Stack overflow."
  | .noProperties => "Only instances have properties."
  | .noFields => "Only instances have fields."
  | .undefinedProperty name => "Undefined property '" ++ name ++ "'."
  | .superclassNotClass => "Superclass must be a class."
  | .superOutsideClass => "Can't use 'super' outside of a class."
  | .outputClosed => "output closed"

end RuntimeFault

/-- A fault and the token to blame for it. -/
structure RuntimeError where
  blamed : Token
  cause  : RuntimeFault
deriving DecidableEq, Repr

end Lox
