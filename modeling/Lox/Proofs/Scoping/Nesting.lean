import Lox.Proofs.Scoping.Rules

/-!
# The scopes around a name

Which local scopes lie around each node that names a binding, and which names each of them declares
before the node. A scope is opened by a block, by the parameters and the body of a function, and by a
class: one for `this`, and one outside it for `super` if there is a superclass. A variable counts from
its own initializer on, a function from its own body on, a class from its own superclass clause on.
`Stmt.mentionsAll` lists the nodes of a program; `Mention.BoundAt` says how far out a node is bound.
-/

namespace Lox

/-- What stands around a node: the local scopes, innermost first, each with the names declared in it
before the node, and whether the node stands in a class. -/
structure Nesting where
  scopes  : List (List String) := []
  inClass : Bool := false
deriving DecidableEq, Repr

namespace Nesting

/-- In a further scope, with some names in it. -/
def enter (names : List String) (p : Nesting) : Nesting := { p with scopes := names :: p.scopes }

/-- Behind further declarations in the innermost scope; at the top level a declaration is global. -/
def declare (xs : List String) (p : Nesting) : Nesting :=
  { p with scopes := match p.scopes with
    | [] => []
    | names :: outer => (xs ++ names) :: outer }

/-- In a class, behind its name. -/
def enterClass (x : String) (p : Nesting) : Nesting := { p.declare [x] with inClass := true }

/-- The nearest scope that declares a name lies a number of scopes out. -/
def Declares (p : Nesting) (x : String) (distance : Nat) : Prop :=
  ∃ inner names outer, p.scopes = inner ++ names :: outer ∧ x ∈ names ∧ (∀ ns ∈ inner, x ∉ ns) ∧
    distance = inner.length

end Nesting

/-- The kinds of node that name a binding. -/
inductive Naming where
  | assigned
  | read
  | super
  | this
deriving DecidableEq, Repr

/-- A node that names a binding: its mark, the token that is the name, and what stands around it. -/
structure Mention (ν : Type) where
  kind   : Naming
  mark   : ν
  name   : Token
  around : Nesting
deriving DecidableEq, Repr

/-- A node is bound a number of scopes out. A `this` that stands in no class is bound nowhere. -/
def Mention.BoundAt (m : Mention ν) (distance : Nat) : Prop :=
  (m.kind = .this → m.around.inClass = true) ∧ m.around.Declares m.name.lexeme distance

mutual

/-- The nodes of an expression that name a binding, in the order in which they are looked up. -/
def Expr.mentions (p : Nesting) : Expr ν → List (Mention ν)
  | .assign k x e => e.mentions p ++ [⟨.assigned, k, x, p⟩]
  | .binary l _ r => l.mentions p ++ r.mentions p
  | .call f _ args => f.mentions p ++ Expr.mentionsAll p args
  | .get o _ => o.mentions p
  | .grouping e => e.mentions p
  | .literal _ => []
  | .logical l _ r => l.mentions p ++ r.mentions p
  -- the value comes before the object
  | .set o _ e => e.mentions p ++ o.mentions p
  | .superRef k kw _ => [⟨.super, k, kw, p⟩]
  | .thisRef k kw => [⟨.this, k, kw, p⟩]
  | .unary _ e => e.mentions p
  | .variable k x => [⟨.read, k, x, p⟩]

def Expr.mentionsAll (p : Nesting) : List (Expr ν) → List (Mention ν)
  | [] => []
  | e :: es => e.mentions p ++ Expr.mentionsAll p es

end

def Expr.mentionsOpt (p : Nesting) : Option (Expr ν) → List (Mention ν)
  | none => []
  | some e => e.mentions p

mutual

/-- The nodes of a statement that name a binding. -/
def Stmt.mentions (p : Nesting) : Stmt ν → List (Mention ν)
  | .block body => Stmt.mentionsAll (p.enter []) body
  | .classDecl x parent methods =>
    let inside := p.enterClass x.lexeme
    Expr.mentionsOpt inside parent ++
      Stmt.mentionsMethods (if parent.isSome then inside.enter ["super"] else inside) methods
  | .expression e => e.mentions p
  | .function f => Stmt.mentionsFun (p.declare [f.name.lexeme]) f
  | .conditional c s t => c.mentions p ++ s.mentions p ++ Stmt.mentionsOpt (p.declare s.declared) t
  | .print _ e => e.mentions p
  | .returning _ e => Expr.mentionsOpt p e
  | .varDecl x e => Expr.mentionsOpt (p.declare [x.lexeme]) e
  | .loop c s => c.mentions p ++ s.mentions p

def Stmt.mentionsAll (p : Nesting) : List (Stmt ν) → List (Mention ν)
  | [] => []
  | s :: ss => s.mentions p ++ Stmt.mentionsAll (p.declare s.declared) ss

def Stmt.mentionsOpt (p : Nesting) : Option (Stmt ν) → List (Mention ν)
  | none => []
  | some s => s.mentions p

/-- The parameters and the body of a function share one scope. -/
def Stmt.mentionsFun (p : Nesting) : FunDecl (Stmt ν) → List (Mention ν)
  | ⟨_, params, body⟩ => Stmt.mentionsAll (p.enter (params.map Token.lexeme).reverse) body

def Stmt.mentionsMethods (p : Nesting) : List (FunDecl (Stmt ν)) → List (Mention ν)
  | [] => []
  | m :: ms => Stmt.mentionsFun (p.enter ["this"]) m ++ Stmt.mentionsMethods p ms

end

end Lox
