import Lox.Tree.Basic

/-!
# The text of an expression

Expressions in fully parenthesised form with the operator first, such as
`(* (- 123.0) (group 45.67))`.
-/

namespace Lox

namespace Literal

def text : Literal → String
  | .number value => Number.treeText value
  | .string text => text
  | .bool b => if b then "true" else "false"
  | .nil => "nil"

end Literal

namespace Expr

/-- A head and its parts between parentheses. -/
def parenthesize (head : String) (parts : List String) : String :=
  "(" ++ " ".intercalate (head :: parts) ++ ")"

mutual

def text : Expr ν → String
  | .assign _ name value => parenthesize "=" [name.lexeme, value.text]
  | .binary left operator right => parenthesize operator.lexeme [left.text, right.text]
  | .call callee _ arguments => parenthesize "call" (callee.text :: texts arguments)
  | .get object name => parenthesize "." [object.text, name.lexeme]
  | .grouping inner => parenthesize "group" [inner.text]
  | .literal value => value.text
  | .logical left operator right => parenthesize operator.lexeme [left.text, right.text]
  | .set object name value =>
    parenthesize "=" [parenthesize "." [object.text, name.lexeme], value.text]
  | .superRef _ _ method => parenthesize "super" [method.lexeme]
  | .thisRef _ _ => "this"
  | .unary operator right => parenthesize operator.lexeme [right.text]
  | .variable _ name => name.lexeme

def texts : List (Expr ν) → List String
  | [] => []
  | e :: es => e.text :: texts es

end

end Expr

end Lox
