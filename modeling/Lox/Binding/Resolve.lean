import Lox.Binding.Distance
import Lox.Report
import Lox.Table

/-!
# Resolving names

One walk over the statements of a program. It keeps the stack of local scopes, records for every
occurrence of a local name how many scopes out its declaration lies, and reports the uses that the
rules of scope forbid. Names found in no scope are global and get no entry. The walk never stops
early, so it reports every violation, in the order of the walk.
-/

namespace Lox

/-- Why a use of a name or keyword is forbidden. -/
inductive ScopeFault where
  | returnAtTopLevel
  | returnFromInitializer
  | inheritsFromItself
  | superOutsideClass
  | superWithoutSuperclass
  | thisOutsideClass
  | redeclared
  | ownInitializer
deriving DecidableEq, Repr

def ScopeFault.message : ScopeFault → String
  | .returnAtTopLevel => "Can't return from top-level code."
  | .returnFromInitializer => "Can't return a value from an initializer."
  | .inheritsFromItself => "A class can't inherit from itself."
  | .superOutsideClass => "Can't use 'super' outside of a class."
  | .superWithoutSuperclass => "Can't use 'super' in a class with no superclass."
  | .thisOutsideClass => "Can't use 'this' outside of a class."
  | .redeclared => "Already a variable with this name in this scope."
  | .ownInitializer => "Can't read local variable in its own initializer."

def ScopeFault.report (fault : ScopeFault) (t : Token) : Report := .scoping t fault.message

/-- The kind of function body around a node. -/
inductive FunctionContext where
  | none
  | function
  | initializer
  | method
deriving DecidableEq, Repr

/-- The kind of class body around a node. -/
inductive ClassContext where
  | none
  | plain
  | derived
deriving DecidableEq, Repr

/-- What is around a node. -/
structure Context where
  inFunction : FunctionContext := .none
  inClass    : ClassContext := .none
deriving DecidableEq, Repr

/-- The names of a local scope; a name is ready once its initializer is behind it. -/
abbrev Scope := Table Bool

/-- Where the walk stands: the local scopes, innermost first, the distances recorded and the reports
so far. -/
structure Walk where
  scopes   : List Scope := []
  bindings : Bindings
  reports  : List Report := []
deriving Repr

/-- How many scopes out a name is declared. -/
def distanceOf? (scopes : List Scope) (name : String) : Option Nat :=
  scopes.findIdx? (·.contains name)

namespace Walk

def note (w : Walk) (fault : ScopeFault) (t : Token) : Walk :=
  { w with reports := w.reports ++ [fault.report t] }

/-- Notes a fault if a condition holds. -/
def noteIf (w : Walk) (condition : Bool) (fault : ScopeFault) (t : Token) : Walk :=
  if condition then w.note fault t else w

def openScope (w : Walk) : Walk := { w with scopes := .empty :: w.scopes }

def closeScope (w : Walk) : Walk := { w with scopes := w.scopes.tail }

/-- Marks a name in the innermost scope; global names are not tracked. -/
def mark (w : Walk) (name : String) (ready : Bool) : Walk :=
  match w.scopes with
  | [] => w
  | scope :: outer => { w with scopes := scope.insert name ready :: outer }

/-- Whether the innermost scope has a name in the given state of readiness. -/
def innermost? (w : Walk) (name : String) : Option Bool :=
  w.scopes.head?.bind (·.get? name)

/-- Declares a name that is not ready yet. A second declaration in the same scope is reported. -/
def declare (w : Walk) (name : Token) : Walk :=
  (w.mark name.lexeme false).noteIf (w.innermost? name.lexeme).isSome .redeclared name

def define (w : Walk) (name : String) : Walk := w.mark name true

/-- Declares a name and makes it ready. -/
def introduce (w : Walk) (name : Token) : Walk := (w.declare name).define name.lexeme

/-- Records how far out a name is declared, if it is local. -/
def bindName (w : Walk) (id : NodeId) (name : String) : Walk :=
  match distanceOf? w.scopes name with
  | some distance => { w with bindings := w.bindings.record id distance }
  | none => w

end Walk

namespace Resolve

/-- The report due to a `super` in a class context, if any. -/
def superFault? : ClassContext → Option ScopeFault
  | .none => some .superOutsideClass
  | .plain => some .superWithoutSuperclass
  | .derived => none

mutual

def expr (c : Context) : Expr NodeId → Walk → Walk
  | .assign id name value, w => (expr c value w).bindName id name.lexeme
  | .binary left _ right, w => expr c right (expr c left w)
  | .call callee _ arguments, w => exprs c arguments (expr c callee w)
  | .get object _, w => expr c object w
  | .grouping inner, w => expr c inner w
  | .literal _, w => w
  | .logical left _ right, w => expr c right (expr c left w)
  | .set object _ value, w => expr c object (expr c value w)
  | .superRef id keyword _, w =>
    let w := match superFault? c.inClass with
      | some fault => w.note fault keyword
      | none => w
    w.bindName id keyword.lexeme
  | .thisRef id keyword, w =>
    if c.inClass = .none then w.note .thisOutsideClass keyword else w.bindName id keyword.lexeme
  | .unary _ right, w => expr c right w
  | .variable id name, w =>
    (w.noteIf (w.innermost? name.lexeme = some false) .ownInitializer name).bindName id name.lexeme

def exprs (c : Context) : List (Expr NodeId) → Walk → Walk
  | [], w => w
  | e :: es, w => exprs c es (expr c e w)

end

def optExpr (c : Context) : Option (Expr NodeId) → Walk → Walk
  | none, w => w
  | some e, w => expr c e w

/-- The token of a superclass that is the class itself. -/
def selfInheritance? (name : Token) : Option (Expr NodeId) → Option Token
  | some (.variable _ parent) => if parent.lexeme = name.lexeme then some parent else none
  | _ => none

/-- The superclass clause, with the scope that holds `super`. -/
def superclass (c : Context) (name : Token) (parent : Option (Expr NodeId)) (w : Walk) : Walk :=
  match parent with
  | none => w
  | some e =>
    let w := match selfInheritance? name parent with
      | some t => w.note .inheritsFromItself t
      | none => w
    ((expr { c with inClass := .derived } e w).openScope).define "super"

/-- The context of a method's body. -/
def methodContext (name : String) : FunctionContext := if name = "init" then .initializer else .method

mutual

def stmt (c : Context) : Stmt NodeId → Walk → Walk
  | .block body, w => (stmts c body w.openScope).closeScope
  | .classDecl name parent methods, w =>
    let w := superclass c name parent (w.introduce name)
    let inside := { c with inClass := if parent.isSome then .derived else .plain }
    let w := (methodDecls inside methods (w.openScope.define "this")).closeScope
    if parent.isSome then w.closeScope else w
  | .expression e, w => expr c e w
  | .function decl, w => funDecl { c with inFunction := .function } decl (w.introduce decl.name)
  | .conditional test thenBranch elseBranch, w =>
    optStmt c elseBranch (stmt c thenBranch (expr c test w))
  | .print _ value, w => expr c value w
  | .returning keyword value, w =>
    let w := w.noteIf (c.inFunction = .none) .returnAtTopLevel keyword
    let w := w.noteIf (value.isSome && c.inFunction = .initializer) .returnFromInitializer keyword
    optExpr c value w
  | .varDecl name initializer, w => (optExpr c initializer (w.declare name)).define name.lexeme
  | .loop test body, w => stmt c body (expr c test w)

def stmts (c : Context) : List (Stmt NodeId) → Walk → Walk
  | [], w => w
  | s :: ss, w => stmts c ss (stmt c s w)

def optStmt (c : Context) : Option (Stmt NodeId) → Walk → Walk
  | none, w => w
  | some s, w => stmt c s w

/-- The parameters and the body of a function share one scope. -/
def funDecl (c : Context) : FunDecl (Stmt NodeId) → Walk → Walk
  | ⟨_, params, body⟩, w => (stmts c body (params.foldl Walk.introduce w.openScope)).closeScope

def methodDecls (c : Context) : List (FunDecl (Stmt NodeId)) → Walk → Walk
  | [], w => w
  | m :: ms, w =>
    methodDecls c ms (funDecl { c with inFunction := methodContext m.name.lexeme } m w)

end

/-- The distances and the reports of a program, starting from the distances already known. -/
def program (bindings : Bindings) (statements : List (Stmt NodeId)) : Bindings × List Report :=
  let w := stmts {} statements { bindings }
  (w.bindings, w.reports)

end Resolve

end Lox
