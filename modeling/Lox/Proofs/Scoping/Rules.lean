import Lox.Binding.Resolve

/-!
# The rules of scope

Which uses of names and keywords are forbidden, told from what stands around them: the nearest
function, the nearest class, the names that the nearest scope has so far. A rule looks at one use and
its surroundings and at nothing else. `Stmt.usesAll` lists the uses of a program in the order in
which they are looked at, each with its surroundings.
-/

namespace Lox

/-- What can stand around a use. -/
inductive Enclosure where
  /-- A block, or the parameters and the body of a function, with the names declared in it so far. -/
  | scope (names : List String)
  | function
  | method (name : String)
  /-- A class, from behind its name on. -/
  | ofClass (derived : Bool)
  /-- The initializer of a variable. -/
  | initializer (x : String)
deriving DecidableEq, Repr

namespace Enclosure

def isBody : Enclosure → Bool
  | .function => true
  | .method _ => true
  | _ => false

def derived? : Enclosure → Option Bool
  | .ofClass derived => some derived
  | _ => none

def names? : Enclosure → Option (List String)
  | .scope names => some names
  | _ => none

def initialized? : Enclosure → Option String
  | .initializer x => some x
  | _ => none

end Enclosure

/-- All that stands around a use, from the inside out. -/
abbrev Surroundings := List Enclosure

namespace Surroundings

/-- The function or method whose body is the nearest. -/
def body? (p : Surroundings) : Option Enclosure := p.find? Enclosure.isBody

/-- Whether the nearest class has a superclass. -/
def class? (p : Surroundings) : Option Bool := p.findSome? Enclosure.derived?

/-- The names of the nearest scope; there is none at the top level. -/
def scope? (p : Surroundings) : Option (List String) := p.findSome? Enclosure.names?

/-- The variable in whose initializer a use stands. No expression opens a scope, so nothing stands in
between. -/
def initialized? (p : Surroundings) : Option String := p.head?.bind Enclosure.initialized?

/-- The surroundings once the nearest scope has further names. -/
def declare (xs : List String) : Surroundings → Surroundings
  | [] => []
  | .scope names :: outer => .scope (xs ++ names) :: outer
  | e :: outer => e :: declare xs outer

end Surroundings

/-- What is done with a name or a keyword. -/
inductive Use where
  | returns (valued : Bool)
  | this
  | super
  | read
  | declared
  /-- The superclass of a class of that name. -/
  | parentOf (name : String)
deriving DecidableEq, Repr

/-- A use, the token to blame, and what stands around it. -/
structure Occurrence where
  use    : Use
  token  : Token
  around : Surroundings
deriving DecidableEq, Repr

namespace Occurrence

/-- A fault, if a condition holds. -/
def due (condition : Bool) (fault : ScopeFault) : List ScopeFault := if condition then [fault] else []

/-- The rules. -/
def faults (o : Occurrence) : List ScopeFault :=
  match o.use with
  | .returns valued =>
    due (o.around.body? = none) .returnAtTopLevel ++
      due (valued && o.around.body? = some (.method "init")) .returnFromInitializer
  | .this => due (o.around.class? = none) .thisOutsideClass
  | .super =>
    due (o.around.class? = none) .superOutsideClass ++
      due (o.around.class? = some false) .superWithoutSuperclass
  | .read =>
    due (o.around.scope?.isSome && o.around.initialized? = some o.token.lexeme) .ownInitializer
  | .declared => due (o.around.scope?.any (o.token.lexeme ∈ ·)) .redeclared
  | .parentOf name => due (o.token.lexeme = name) .inheritsFromItself

def reports (o : Occurrence) : List Report := o.faults.map (·.report o.token)

end Occurrence

/-! ## The uses of a tree -/

mutual

def Expr.uses (p : Surroundings) : Expr ν → List Occurrence
  | .assign _ _ e => e.uses p
  | .binary l _ r => l.uses p ++ r.uses p
  | .call f _ args => f.uses p ++ Expr.usesAll p args
  | .get o _ => o.uses p
  | .grouping e => e.uses p
  | .literal _ => []
  | .logical l _ r => l.uses p ++ r.uses p
  -- the value comes before the object
  | .set o _ e => e.uses p ++ o.uses p
  | .superRef _ kw _ => [⟨.super, kw, p⟩]
  | .thisRef _ kw => [⟨.this, kw, p⟩]
  | .unary _ e => e.uses p
  | .variable _ x => [⟨.read, x, p⟩]

def Expr.usesAll (p : Surroundings) : List (Expr ν) → List Occurrence
  | [] => []
  | e :: es => e.uses p ++ Expr.usesAll p es

end

def Expr.usesOpt (p : Surroundings) : Option (Expr ν) → List Occurrence
  | none => []
  | some e => e.uses p

/-- A superclass clause: the name is compared with that of the class, and read. -/
def Expr.usesParent (x : Token) (p : Surroundings) : Option (Expr ν) → List Occurrence
  | some (.variable _ parent) => [⟨.parentOf x.lexeme, parent, p⟩, ⟨.read, parent, p⟩]
  | parent => Expr.usesOpt p parent

mutual

/-- The names that a statement declares in the scope that it stands in. -/
def Stmt.declared : Stmt ν → List String
  | .classDecl x _ _ => [x.lexeme]
  | .function f => [f.name.lexeme]
  | .varDecl x _ => [x.lexeme]
  | .conditional _ s t => Stmt.declaredOpt t ++ s.declared
  | .loop _ s => s.declared
  | _ => []

def Stmt.declaredOpt : Option (Stmt ν) → List String
  | none => []
  | some s => s.declared

end

/-- Parameters, each declared after those before it. -/
def Token.usesAll (p : Surroundings) : List Token → List Occurrence
  | [] => []
  | x :: xs => ⟨.declared, x, p⟩ :: Token.usesAll (p.declare [x.lexeme]) xs

mutual

def Stmt.uses (p : Surroundings) : Stmt ν → List Occurrence
  | .block body => Stmt.usesAll (.scope [] :: p) body
  | .classDecl x parent methods =>
    let inside := .ofClass parent.isSome :: p.declare [x.lexeme]
    ⟨.declared, x, p⟩ :: Expr.usesParent x inside parent ++ Stmt.usesMethods inside methods
  | .expression e => e.uses p
  | .function f => ⟨.declared, f.name, p⟩ :: Stmt.usesFun (.function :: p.declare [f.name.lexeme]) f
  | .conditional c s t => c.uses p ++ s.uses p ++ Stmt.usesOpt (p.declare s.declared) t
  | .print _ e => e.uses p
  | .returning kw e => ⟨.returns e.isSome, kw, p⟩ :: Expr.usesOpt p e
  | .varDecl x e => ⟨.declared, x, p⟩ :: Expr.usesOpt (.initializer x.lexeme :: p.declare [x.lexeme]) e
  | .loop c s => c.uses p ++ s.uses p

def Stmt.usesAll (p : Surroundings) : List (Stmt ν) → List Occurrence
  | [] => []
  | s :: ss => s.uses p ++ Stmt.usesAll (p.declare s.declared) ss

def Stmt.usesOpt (p : Surroundings) : Option (Stmt ν) → List Occurrence
  | none => []
  | some s => s.uses p

/-- The parameters and the body of a function share one scope. -/
def Stmt.usesFun (p : Surroundings) : FunDecl (Stmt ν) → List Occurrence
  | ⟨_, params, body⟩ =>
    Token.usesAll (.scope [] :: p) params ++
      Stmt.usesAll (.scope (params.map Token.lexeme).reverse :: p) body

def Stmt.usesMethods (p : Surroundings) : List (FunDecl (Stmt ν)) → List Occurrence
  | [] => []
  | m :: ms => Stmt.usesFun (.method m.name.lexeme :: p) m ++ Stmt.usesMethods p ms

end

end Lox
