import Lox.Tree.Basic

/-!
# Scopes in the text of a program

Which scopes lie around a node, what opened each of them, and which names each declares before the
node. `Expr.places` and `Stmt.places` list the nodes that name a binding, each with the scopes around
it; `Expr.Scoped` and `Stmt.Scoped` say that a property holds at all of these nodes, and that the
declarations keep the rules on which the execution of a scope relies.
-/

namespace Lox

/-- What opens a scope. -/
inductive Site (ν : Type) where
  | block (body : List (Stmt ν))
  /-- The parameters and the body of a function. -/
  | function (decl : FunDecl (Stmt ν))
  /-- The scope of `this`, around a method. -/
  | receiver (method : FunDecl (Stmt ν))
  /-- The scope of `super`, around the methods of a class. -/
  | parent (methods : List (FunDecl (Stmt ν)))

/-- A scope and the names declared in it so far, the newest first. -/
structure LexicalScope (ν : Type) where
  site  : Site ν
  names : List String

namespace LexicalScope

def ofBlock (body : List (Stmt ν)) : LexicalScope ν := ⟨.block body, []⟩

def ofFunction (decl : FunDecl (Stmt ν)) : LexicalScope ν :=
  ⟨.function decl, (decl.params.map Token.lexeme).reverse⟩

def ofReceiver (method : FunDecl (Stmt ν)) : LexicalScope ν := ⟨.receiver method, ["this"]⟩

def ofParent (methods : List (FunDecl (Stmt ν))) : LexicalScope ν := ⟨.parent methods, ["super"]⟩

end LexicalScope

/-- The scopes around a node, innermost first. -/
abbrev Scopes (ν : Type) := List (LexicalScope ν)

namespace Scopes

/-- How many scopes out a name is declared. -/
def distance? (scopes : Scopes ν) (x : String) : Option Nat := scopes.findIdx? (x ∈ ·.names)

/-- Declares a name in the innermost scope; a name declared in no scope is global. -/
def declare (x : String) : Scopes ν → Scopes ν
  | [] => []
  | s :: outer => { s with names := x :: s.names } :: outer

/-- Whether a name may be declared in the innermost scope. -/
def Free (x : String) (scopes : Scopes ν) : Prop :=
  x ≠ "this" ∧ x ≠ "super" ∧ ∀ s ∈ scopes.head?, x ∉ s.names

/-- The local variable, if any, that waits for its initializer at a declaration in these scopes. -/
def waiting (x : String) : Scopes ν → Option String
  | [] => none
  | _ :: _ => some x

/-- The scopes around the methods of a class declared in these scopes. -/
def ofClass (x : String) (derived : Bool) (methods : List (FunDecl (Stmt ν))) (scopes : Scopes ν) :
    Scopes ν :=
  if derived then .ofParent methods :: scopes.declare x else scopes.declare x

end Scopes

/-- Where a node stands: the scopes around it, and the local variable whose initializer it is in. -/
structure Place (ν : Type) where
  scopes  : Scopes ν
  pending : Option String
  node    : Expr ν

mutual

/-- The nodes of an expression that name a binding. -/
def Expr.places (scopes : Scopes ν) (pending : Option String) : Expr ν → List (Place ν)
  | .assign k x e => e.places scopes pending ++ [⟨scopes, pending, .assign k x e⟩]
  | .binary l _ r => l.places scopes pending ++ r.places scopes pending
  | .call f _ args => f.places scopes pending ++ Expr.placesAll scopes pending args
  | .get o _ => o.places scopes pending
  | .grouping e => e.places scopes pending
  | .literal _ => []
  | .logical l _ r => l.places scopes pending ++ r.places scopes pending
  | .set o _ e => o.places scopes pending ++ e.places scopes pending
  | .superRef k kw x => [⟨scopes, pending, .superRef k kw x⟩]
  | .thisRef k kw => [⟨scopes, pending, .thisRef k kw⟩]
  | .unary _ e => e.places scopes pending
  | .variable k x => [⟨scopes, pending, .variable k x⟩]

def Expr.placesAll (scopes : Scopes ν) (pending : Option String) : List (Expr ν) → List (Place ν)
  | [] => []
  | e :: es => e.places scopes pending ++ Expr.placesAll scopes pending es

end

def Expr.placesOpt (scopes : Scopes ν) (pending : Option String) : Option (Expr ν) → List (Place ν)
  | none => []
  | some e => e.places scopes pending

/-- Whether a statement declares a name in the scope it stands in. -/
def Stmt.declares? : Stmt ν → Option String
  | .classDecl x _ _ => some x.lexeme
  | .function decl => some decl.name.lexeme
  | .varDecl x _ => some x.lexeme
  | _ => none

/-- The scopes after a statement. -/
def Stmt.after (s : Stmt ν) (scopes : Scopes ν) : Scopes ν :=
  match s.declares? with
  | some x => scopes.declare x
  | none => scopes

/-- At the top level a statement opens no scope for those after it. -/
@[simp] theorem Stmt.after_nil (s : Stmt ν) : s.after [] = [] := by
  unfold Stmt.after
  cases s.declares? <;> rfl

mutual

/-- The nodes of a statement that name a binding. -/
def Stmt.places (scopes : Scopes ν) : Stmt ν → List (Place ν)
  | .block body => Stmt.placesAll (.ofBlock body :: scopes) body
  | .classDecl x parent methods =>
    Expr.placesOpt scopes none parent ++
      Stmt.placesMethods (scopes.ofClass x.lexeme parent.isSome methods) methods
  | .expression e => e.places scopes none
  | .function decl => Stmt.placesFun (scopes.declare decl.name.lexeme) decl
  | .conditional c s t => c.places scopes none ++ s.places scopes ++ Stmt.placesOpt scopes t
  | .print _ e => e.places scopes none
  | .returning _ e => Expr.placesOpt scopes none e
  | .varDecl x e => Expr.placesOpt scopes (scopes.waiting x.lexeme) e
  | .loop c s => c.places scopes none ++ s.places scopes

def Stmt.placesAll (scopes : Scopes ν) : List (Stmt ν) → List (Place ν)
  | [] => []
  | s :: ss => s.places scopes ++ Stmt.placesAll (s.after scopes) ss

def Stmt.placesOpt (scopes : Scopes ν) : Option (Stmt ν) → List (Place ν)
  | none => []
  | some s => s.places scopes

def Stmt.placesFun (scopes : Scopes ν) : FunDecl (Stmt ν) → List (Place ν)
  | ⟨x, params, body⟩ => Stmt.placesAll (.ofFunction ⟨x, params, body⟩ :: scopes) body

def Stmt.placesMethods (scopes : Scopes ν) : List (FunDecl (Stmt ν)) → List (Place ν)
  | [] => []
  | m :: ms => Stmt.placesFun (.ofReceiver m :: scopes) m ++ Stmt.placesMethods scopes ms

end

/-- Distances that agree with the scopes around a node. A variable that waits for its initializer is
not read there, and writing it has distance 0; `this` lies just inside `super`. -/
def Place.Resolved (d : ν → Option Nat) (p : Place ν) : Prop :=
  match p.node with
  | .assign k x _ =>
    d k = if p.pending = some x.lexeme then some 0 else p.scopes.distance? x.lexeme
  | .superRef k kw _ =>
    (p.pending ≠ some kw.lexeme ∧ d k = p.scopes.distance? kw.lexeme) ∧ p.pending ≠ some "this" ∧
      ∀ j, d k = some j → ∃ i, j = i + 1 ∧ p.scopes.distance? "this" = some i
  | .thisRef k kw => p.pending ≠ some kw.lexeme ∧ d k = p.scopes.distance? kw.lexeme
  | .variable k x => p.pending ≠ some x.lexeme ∧ d k = p.scopes.distance? x.lexeme
  | _ => True

/-! ## Scoped code -/

section
variable (N : Place ν → Prop)

mutual

def Expr.Scoped (scopes : Scopes ν) (pending : Option String) : Expr ν → Prop
  | .assign k x e => e.Scoped scopes pending ∧ N ⟨scopes, pending, .assign k x e⟩
  | .binary l _ r => l.Scoped scopes pending ∧ r.Scoped scopes pending
  | .call f _ args => f.Scoped scopes pending ∧ Expr.ScopedAll scopes pending args
  | .get o _ => o.Scoped scopes pending
  | .grouping e => e.Scoped scopes pending
  | .literal _ => True
  | .logical l _ r => l.Scoped scopes pending ∧ r.Scoped scopes pending
  | .set o _ e => o.Scoped scopes pending ∧ e.Scoped scopes pending
  | .superRef k kw x => N ⟨scopes, pending, .superRef k kw x⟩
  | .thisRef k kw => N ⟨scopes, pending, .thisRef k kw⟩
  | .unary _ e => e.Scoped scopes pending
  | .variable k x => N ⟨scopes, pending, .variable k x⟩

def Expr.ScopedAll (scopes : Scopes ν) (pending : Option String) : List (Expr ν) → Prop
  | [] => True
  | e :: es => e.Scoped scopes pending ∧ Expr.ScopedAll scopes pending es

end

def Expr.ScopedOpt (scopes : Scopes ν) (pending : Option String) : Option (Expr ν) → Prop
  | none => True
  | some e => e.Scoped N scopes pending

mutual

def Stmt.Scoped (scopes : Scopes ν) : Stmt ν → Prop
  | .block body => Stmt.ScopedAll (.ofBlock body :: scopes) body
  | .classDecl x parent methods =>
    scopes.Free x.lexeme ∧ Expr.ScopedOpt N scopes none parent ∧
      Stmt.ScopedMethods (scopes.ofClass x.lexeme parent.isSome methods) methods
  | .expression e => e.Scoped N scopes none
  | .function decl =>
    scopes.Free decl.name.lexeme ∧ Stmt.ScopedFun (scopes.declare decl.name.lexeme) decl
  | .conditional c s t =>
    c.Scoped N scopes none ∧ (s.declares? = none ∧ s.Scoped scopes) ∧ Stmt.ScopedOpt scopes t
  | .print _ e => e.Scoped N scopes none
  | .returning _ e => Expr.ScopedOpt N scopes none e
  | .varDecl x e => scopes.Free x.lexeme ∧ Expr.ScopedOpt N scopes (scopes.waiting x.lexeme) e
  | .loop c s => c.Scoped N scopes none ∧ s.declares? = none ∧ s.Scoped scopes

def Stmt.ScopedAll (scopes : Scopes ν) : List (Stmt ν) → Prop
  | [] => True
  | s :: ss => s.Scoped scopes ∧ Stmt.ScopedAll (s.after scopes) ss

/-- An `else` branch declares no name. -/
def Stmt.ScopedOpt (scopes : Scopes ν) : Option (Stmt ν) → Prop
  | none => True
  | some s => s.declares? = none ∧ s.Scoped scopes

/-- The parameters of a function differ from one another. -/
def Stmt.ScopedFun (scopes : Scopes ν) : FunDecl (Stmt ν) → Prop
  | ⟨x, params, body⟩ =>
    (params.map Token.lexeme).Nodup ∧ (∀ p ∈ params, p.lexeme ≠ "this" ∧ p.lexeme ≠ "super") ∧
      Stmt.ScopedAll (.ofFunction ⟨x, params, body⟩ :: scopes) body

def Stmt.ScopedMethods (scopes : Scopes ν) : List (FunDecl (Stmt ν)) → Prop
  | [] => True
  | m :: ms => Stmt.ScopedFun (.ofReceiver m :: scopes) m ∧ Stmt.ScopedMethods scopes ms

end

end

end Lox
