import Lox.Token.Basic

/-!
# Syntax trees

Expressions and statements. The nodes whose meaning depends on where a name is bound (assignment,
variable, `this`, `super`) carry a mark of type `ν`: after parsing it is the identity of the node.
There is no node for `for` loops, which are blocks and `while` loops.
-/

namespace Lox

/-- The identity of a node that names a binding. -/
abbrev NodeId := Nat

inductive Literal where
  | number (value : Float)
  | string (text : String)
  | bool (b : Bool)
  | nil
deriving DecidableEq, Repr, Inhabited

/-- An expression whose binding nodes are marked by `ν`. -/
inductive Expr (ν : Type) where
  | assign (mark : ν) (name : Token) (value : Expr ν)
  | binary (left : Expr ν) (operator : Token) (right : Expr ν)
  /-- A call and its closing parenthesis. -/
  | call (callee : Expr ν) (paren : Token) (arguments : List (Expr ν))
  | get (object : Expr ν) (name : Token)
  | grouping (inner : Expr ν)
  | literal (value : Literal)
  | logical (left : Expr ν) (operator : Token) (right : Expr ν)
  | set (object : Expr ν) (name : Token) (value : Expr ν)
  | superRef (mark : ν) (keyword method : Token)
  | thisRef (mark : ν) (keyword : Token)
  | unary (operator : Token) (right : Expr ν)
  | variable (mark : ν) (name : Token)
deriving Repr, Inhabited

/-- A function or method declaration with statements of type `σ`. -/
structure FunDecl (σ : Type) where
  name   : Token
  params : List Token
  body   : List σ
deriving Repr, Inhabited

/-- A statement whose binding nodes are marked by `ν`. -/
inductive Stmt (ν : Type) where
  | block (body : List (Stmt ν))
  | classDecl (name : Token) (superclass : Option (Expr ν)) (methods : List (FunDecl (Stmt ν)))
  | expression (e : Expr ν)
  | function (decl : FunDecl (Stmt ν))
  | conditional (condition : Expr ν) (thenBranch : Stmt ν) (elseBranch : Option (Stmt ν))
  | print (keyword : Token) (value : Expr ν)
  | returning (keyword : Token) (value : Option (Expr ν))
  | varDecl (name : Token) (initializer : Option (Expr ν))
  | loop (condition : Expr ν) (body : Stmt ν)
deriving Repr, Inhabited

namespace Stmt

/-- A `for` loop: the increment runs after the body in a block of their own, an absent condition is
true, and the initializer shares a block with the loop. -/
def forLoop (initializer : Option (Stmt ν)) (condition increment : Option (Expr ν)) (body : Stmt ν) :
    Stmt ν :=
  let body := match increment with
    | some e => .block [body, .expression e]
    | none => body
  let loop := .loop (condition.getD (.literal (.bool true))) body
  match initializer with
  | some s => .block [s, loop]
  | none => loop

end Stmt

end Lox
