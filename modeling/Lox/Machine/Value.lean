import Lox.Tree.Basic

/-!
# Values

The values of a running program. Functions, classes and objects live in the store, and a value
refers to them by number, so two references are equal exactly when they refer to the same thing.
-/

namespace Lox

abbrev FrameId := Nat
abbrev FunctionId := Nat
abbrev ClassId := Nat
abbrev ObjectId := Nat

/-- The functions that every program starts with. -/
inductive Native where
  | clock
deriving DecidableEq, Repr

namespace Native

def name : Native → String
  | .clock => "clock"

def arity : Native → Nat
  | .clock => 0

end Native

inductive Value where
  | nil
  | bool (b : Bool)
  | number (x : Float)
  | string (text : String)
  | native (f : Native)
  | functionRef (id : FunctionId)
  | classRef (id : ClassId)
  | objectRef (id : ObjectId)
deriving DecidableEq, Repr, Inhabited

namespace Value

def ofLiteral : Literal → Value
  | .number x => .number x
  | .string text => .string text
  | .bool b => .bool b
  | .nil => .nil

/-- Only `nil` and `false` are not truthy. -/
def truthy : Value → Bool
  | .nil => false
  | .bool b => b
  | _ => true

/-- Equality of the language: values of different kinds differ, a NaN differs from itself, and the
two zeros are equal. -/
def equals : Value → Value → Bool
  | .number x, .number y => x == y
  | a, b => a = b

end Value

end Lox
