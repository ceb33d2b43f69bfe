import Lox.Binding.Resolve

/-!
# Markers that are set and put back

`Resolve.stmt` hands the kinds of the enclosing function and class down the tree. A walk may as well
keep the two in its state, set them where a function or a class begins and put the old ones back where
it ends. This is such a walk. It does the same at every node and leaves its markers as it found them:
`MarkedWalk.stmts_eq`.
-/

namespace Lox

/-- A walk with the markers of the enclosing function and class in its state. -/
structure MarkedWalk where
  markers : Context := {}
  walk    : Walk
deriving Repr

namespace MarkedWalk

/-- A step that sets no marker. -/
def step (f : Walk → Walk) (m : MarkedWalk) : MarkedWalk := { m with walk := f m.walk }

def setFunction (kind : FunctionContext) (m : MarkedWalk) : MarkedWalk :=
  { m with markers := { m.markers with inFunction := kind } }

def setClass (kind : ClassContext) (m : MarkedWalk) : MarkedWalk :=
  { m with markers := { m.markers with inClass := kind } }

/-- Expressions only read the markers. -/
def expr (e : Expr NodeId) (m : MarkedWalk) : MarkedWalk := m.step (Resolve.expr m.markers e)

def optExpr (e : Option (Expr NodeId)) (m : MarkedWalk) : MarkedWalk :=
  m.step (Resolve.optExpr m.markers e)

/-- The superclass clause, from which on the class is a derived one. -/
def superclass (name : Token) (parent : Option (Expr NodeId)) (m : MarkedWalk) : MarkedWalk :=
  match parent with
  | none => m
  | some e =>
    let m := match Resolve.selfInheritance? name parent with
      | some t => m.step (·.note .inheritsFromItself t)
      | none => m
    ((m.setClass .derived).expr e).step (·.openScope.define "super")

def returnChecks (keyword : Token) (value : Option (Expr NodeId)) (m : MarkedWalk) : MarkedWalk :=
  m.step fun w =>
    (w.noteIf (m.markers.inFunction = .none) .returnAtTopLevel keyword).noteIf
      (value.isSome && m.markers.inFunction = .initializer) .returnFromInitializer keyword

mutual

def stmt : Stmt NodeId → MarkedWalk → MarkedWalk
  | .block body, m => (stmts body (m.step Walk.openScope)).step Walk.closeScope
  | .classDecl name parent methods, m =>
    let enclosing := m.markers.inClass
    let m := superclass name parent ((m.setClass .plain).step (·.introduce name))
    let m := (methodDecls methods (m.step (·.openScope.define "this"))).step Walk.closeScope
    let m := if parent.isSome then m.step Walk.closeScope else m
    m.setClass enclosing
  | .expression e, m => m.expr e
  | .function decl, m => funDecl .function decl (m.step (·.introduce decl.name))
  | .conditional test thenBranch elseBranch, m =>
    optStmt elseBranch (stmt thenBranch (m.expr test))
  | .print _ value, m => m.expr value
  | .returning keyword value, m => (m.returnChecks keyword value).optExpr value
  | .varDecl name initializer, m =>
    ((m.step (·.declare name)).optExpr initializer).step (·.define name.lexeme)
  | .loop test body, m => stmt body (m.expr test)

def stmts : List (Stmt NodeId) → MarkedWalk → MarkedWalk
  | [], m => m
  | s :: ss, m => stmts ss (stmt s m)

def optStmt : Option (Stmt NodeId) → MarkedWalk → MarkedWalk
  | none, m => m
  | some s, m => stmt s m

def funDecl (kind : FunctionContext) : FunDecl (Stmt NodeId) → MarkedWalk → MarkedWalk
  | ⟨_, params, body⟩, m =>
    let enclosing := m.markers.inFunction
    let m := (m.setFunction kind).step fun w => params.foldl Walk.introduce w.openScope
    ((stmts body m).step Walk.closeScope).setFunction enclosing

def methodDecls : List (FunDecl (Stmt NodeId)) → MarkedWalk → MarkedWalk
  | [], m => m
  | f :: fs, m => methodDecls fs (funDecl (Resolve.methodContext f.name.lexeme) f m)

end

/-! ## The markers are put back -/

/-- Behind the superclass clause the class is a derived one, if there is a superclass. -/
theorem superclass_eq (name : Token) (parent : Option (Expr NodeId)) (c : Context) (w : Walk) :
    superclass name parent ⟨{ c with inClass := .plain }, w⟩ =
      ⟨{ c with inClass := if parent.isSome then .derived else .plain },
        Resolve.superclass c name parent w⟩ := by
  cases parent with
  | none => rfl
  | some e =>
    unfold superclass Resolve.superclass
    cases Resolve.selfInheritance? name (some e) <;> rfl

mutual

theorem stmt_eq : ∀ (s : Stmt NodeId) (c : Context) (w : Walk), stmt s ⟨c, w⟩ = ⟨c, Resolve.stmt c s w⟩
  | .block body, c, w => by
    simp only [stmt, step, stmts_eq body c, Resolve.stmt]
  | .classDecl name parent methods, c, w => by
    rw [stmt, Resolve.stmt]
    simp only [setClass, step, superclass_eq name parent c, methodDecls_eq methods]
    cases parent <;> rfl
  | .expression _, _, _ => rfl
  | .function decl, c, w => by
    rw [stmt, step, funDecl_eq .function decl c, Resolve.stmt]
  | .conditional test s t, c, w => by
    rw [stmt, expr, step, stmt_eq s c, optStmt_eq t c, Resolve.stmt]
  | .print _ _, _, _ => rfl
  | .returning _ _, _, _ => rfl
  | .varDecl _ _, _, _ => rfl
  | .loop test body, c, w => by
    rw [stmt, expr, step, stmt_eq body c, Resolve.stmt]

/-- The walk with its markers in its state does what the other one does, and its markers end as they
began. -/
theorem stmts_eq : ∀ (ss : List (Stmt NodeId)) (c : Context) (w : Walk),
    stmts ss ⟨c, w⟩ = ⟨c, Resolve.stmts c ss w⟩
  | [], _, _ => rfl
  | s :: ss, c, w => by rw [stmts, stmt_eq s c, stmts_eq ss c, Resolve.stmts]

theorem optStmt_eq : ∀ (s : Option (Stmt NodeId)) (c : Context) (w : Walk),
    optStmt s ⟨c, w⟩ = ⟨c, Resolve.optStmt c s w⟩
  | none, _, _ => rfl
  | some s, c, w => by rw [optStmt, stmt_eq s c, Resolve.optStmt]

theorem funDecl_eq (kind : FunctionContext) : ∀ (f : FunDecl (Stmt NodeId)) (c : Context) (w : Walk),
    funDecl kind f ⟨c, w⟩ = ⟨c, Resolve.funDecl { c with inFunction := kind } f w⟩
  | ⟨_, params, body⟩, c, w => by
    simp only [funDecl, setFunction, step, stmts_eq body { c with inFunction := kind }, Resolve.funDecl]

theorem methodDecls_eq : ∀ (fs : List (FunDecl (Stmt NodeId))) (c : Context) (w : Walk),
    methodDecls fs ⟨c, w⟩ = ⟨c, Resolve.methodDecls c fs w⟩
  | [], _, _ => rfl
  | f :: fs, c, w => by
    rw [methodDecls, funDecl_eq _ f c, methodDecls_eq fs c, Resolve.methodDecls]

end

end MarkedWalk

end Lox
