import Mathlib.Logic.Relation
import Lox.Machine.Run
import Lox.Proofs.Scoping.Places

/-!
# The moments of a run

Running an expression or a statement runs others in turn, each on the machine that its predecessors
left behind. `Calls` says which, one rule for each recursive call of the evaluator; a moment of a run
is what `Visits` reaches from its start. The rules do not mention fuel: a moment of a run that never ends
is a moment like any other. `Opens` says which moments make a frame, and for which scope.
-/

namespace Lox

/-- Something the evaluator is asked to do. -/
inductive Task (ν : Type) where
  | eval (e : Expr ν)
  | evalAll (es : List (Expr ν))
  | invoke (paren : Token) (callee : Value) (args : List Value)
  | apply (f : Callable ν) (args : List Value)
  | applyFunction (f : Function ν) (args : List Value)
  | exec (s : Stmt ν)
  | execAll (ss : List (Stmt ν))

/-- A task and the machine it is started on. -/
abbrev Moment (ν : Type) := Task ν × Machine ν

namespace Task

/-- What a task gives. -/
def Answer : Task ν → Type
  | .evalAll _ => List Value
  | .exec _ | .execAll _ => Flow
  | .eval _ | .invoke _ _ _ | .apply _ _ | .applyFunction _ _ => Value

/-- What the evaluator does for a task. -/
def run (d : Distances ν) (n : Nat) : (T : Task ν) → Exec ν T.Answer
  | .eval e => Exec.eval d n e
  | .evalAll es => Exec.evalAll d n es
  | .invoke paren callee args => Exec.invoke d n paren callee args
  | .apply f args => Exec.apply d n f args
  | .applyFunction f args => Exec.applyFunction d n f args
  | .exec t => Exec.exec d n t
  | .execAll ts => Exec.execAll d n ts

theorem run_zero {d : Distances ν} (T : Task ν) {m : Machine ν} : T.run d 0 m = .outOfFuel := by
  cases T <;> rfl

end Task

/-- With enough fuel the step finishes so. -/
def Exec.Yields (x : Nat → Exec ν α) (m : Machine ν) (a : α) (m' : Machine ν) : Prop :=
  ∃ n, x n m = .done a m'

/-- The result of a step with something done to the machine that it leaves. -/
def Result.update (g : Machine ν → Machine ν) : Result ν α → Result ν α
  | .done a m => .done a (g m)
  | .failed e m => .failed e (g m)
  | .outOfFuel => .outOfFuel

theorem Result.update_ne_outOfFuel {g : Machine ν → Machine ν} {r : Result ν α} (h : r ≠ .outOfFuel) :
    r.update g ≠ .outOfFuel := by
  cases r with
  | outOfFuel => exact absurd rfl h
  | _ => nofun

namespace Exec

@[simp] theorem pure_apply (a : α) (m : Machine ν) : (pure a : Exec ν α) m = .done a m := rfl

theorem bind_apply (x : Exec ν α) (f : α → Exec ν β) (m : Machine ν) :
    (x >>= f) m = match x m with
      | .done a m => f a m
      | .failed e m => .failed e m
      | .outOfFuel => .outOfFuel := rfl

theorem inFrame_apply (frame : FrameId) (x : Exec ν α) (m : Machine ν) :
    inFrame frame x m = (x { m with env := frame }).update ({ · with env := m.env }) := by
  simp only [inFrame]
  cases x { m with env := frame } <;> rfl

theorem deeper_apply (x : Exec ν α) (m : Machine ν) :
    deeper x m = (x { m with depth := m.depth + 1 }).update fun m' => { m' with depth := m'.depth - 1 } := by
  simp only [deeper]
  cases x { m with depth := m.depth + 1 } <;> rfl

theorem read_eq_done {f : Machine ν → α} {m m' : Machine ν} {a : α} :
    read f m = .done a m' ↔ f m = a ∧ m = m' := by
  simp [read]

theorem bind_eq_done {x : Exec ν α} {f : α → Exec ν β} {m m' : Machine ν} {b : β}
    (h : (x >>= f) m = .done b m') : ∃ a m₁, x m = .done a m₁ ∧ f a m₁ = .done b m' := by
  rw [bind_apply] at h
  cases hr : x m with
  | done a m₁ =>
    rw [hr] at h
    exact ⟨a, m₁, rfl, h⟩
  | failed e m₁ =>
    rw [hr] at h
    cases h
  | outOfFuel =>
    rw [hr] at h
    cases h

theorem bind_eq_failed {x : Exec ν α} {f : α → Exec ν β} {m m' : Machine ν} {err : RuntimeError}
    (h : (x >>= f) m = .failed err m') :
    x m = .failed err m' ∨ ∃ a m₁, x m = .done a m₁ ∧ f a m₁ = .failed err m' := by
  rw [bind_apply] at h
  cases hr : x m with
  | done a m₁ =>
    rw [hr] at h
    exact .inr ⟨a, m₁, rfl, h⟩
  | failed e m₁ =>
    rw [hr] at h
    cases h
    exact .inl rfl
  | outOfFuel =>
    rw [hr] at h
    cases h

theorem inFrame_eq_done {frame : FrameId} {x : Exec ν α} {m m' : Machine ν} {a : α}
    (h : inFrame frame x m = .done a m') :
    ∃ m₁, x { m with env := frame } = .done a m₁ ∧ m' = { m₁ with env := m.env } := by
  simp only [inFrame] at h
  cases hr : x { m with env := frame } with
  | done b m₁ =>
    rw [hr] at h
    cases h
    exact ⟨m₁, rfl, rfl⟩
  | failed e m₁ =>
    rw [hr] at h
    cases h
  | outOfFuel =>
    rw [hr] at h
    cases h

end Exec

namespace Machine

/-- The machine inside a fresh frame. -/
def enter (m : Machine ν) (enclosing : FrameId) (names : Table Value) : Machine ν :=
  { m with store := (m.store.addFrame ⟨names, some enclosing⟩).2, env := m.store.frames.cells.size }

/-- The machine with a fresh object of a class. -/
def construct (m : Machine ν) (i : ClassId) : Machine ν :=
  { m with store := (m.store.addObject ⟨i, {}⟩).2 }

/-- The machine after a method was bound to an object. -/
def bindMethod (m : Machine ν) (f : Function ν) (this : ObjectId) : Machine ν :=
  { m with store := (m.store.bindMethod f this).2 }

end Machine

/-- The parameters of a function with the arguments of a call. -/
def Function.locals (f : Function ν) (args : List Value) : Table Value :=
  Table.empty.insertAll ((f.decl.params.map Token.lexeme).zip args)

open Exec in
/-- The first moment starts the second one directly. -/
inductive Calls (d : Distances ν) : Moment ν → Moment ν → Prop
  | assignValue : Calls d (.eval (.assign k x e), m) (.eval e, m)
  | binaryLeft : Calls d (.eval (.binary l op r), m) (.eval l, m)
  | binaryRight : Yields (eval d · l) m a m' → Calls d (.eval (.binary l op r), m) (.eval r, m')
  | callee : Calls d (.eval (.call f paren args), m) (.eval f, m)
  | arguments : Yields (eval d · f) m v m' →
      Calls d (.eval (.call f paren args), m) (.evalAll args, m')
  | invoke : Yields (eval d · f) m v m' → Yields (evalAll d · args) m' vs m'' →
      Calls d (.eval (.call f paren args), m) (.invoke paren v vs, m'')
  | getObject : Calls d (.eval (.get o x), m) (.eval o, m)
  | grouping : Calls d (.eval (.grouping e), m) (.eval e, m)
  | logicalLeft : Calls d (.eval (.logical l op r), m) (.eval l, m)
  | logicalRight : Yields (eval d · l) m a m' → a.truthy ≠ op.is .orKw →
      Calls d (.eval (.logical l op r), m) (.eval r, m')
  | setObject : Calls d (.eval (.set o x e), m) (.eval o, m)
  | setValue : Yields (eval d · o) m (.objectRef i) m' →
      Calls d (.eval (.set o x e), m) (.eval e, m')
  | operand : Calls d (.eval (.unary op e), m) (.eval e, m)
  | first : Calls d (.evalAll (e :: es), m) (.eval e, m)
  | others : Yields (eval d · e) m v m' → Calls d (.evalAll (e :: es), m) (.evalAll es, m')
  | apply : Callable.of? m.store callee = some f → args.length = f.arity →
      m.depth < maxCallDepth →
      Calls d (.invoke paren callee args, m) (.apply f args, { m with depth := m.depth + 1 })
  | function : Calls d (.apply (.function f) args, m) (.applyFunction f args, m)
  | initializer : Calls d (.apply (.constructor i (some f)) args, m)
      (.applyFunction ((m.construct i).store.bindMethod f m.store.objects.size).1 args,
        (m.construct i).bindMethod f m.store.objects.size)
  | functionBody : Calls d (.applyFunction f args, m)
      (.execAll f.decl.body, m.enter f.closure (f.locals args))
  | blockBody : Calls d (.exec (.block body), m) (.execAll body, m.enter m.env {})
  | superclass : Calls d (.exec (.classDecl x (some e) methods), m) (.eval e, m)
  | expression : Calls d (.exec (.expression e), m) (.eval e, m)
  | test : Calls d (.exec (.conditional c s t), m) (.eval c, m)
  | thenBranch : Yields (eval d · c) m v m' → v.truthy = true →
      Calls d (.exec (.conditional c s t), m) (.exec s, m')
  | elseBranch : Yields (eval d · c) m v m' → v.truthy = false →
      Calls d (.exec (.conditional c s (some t)), m) (.exec t, m')
  | printed : Calls d (.exec (.print kw e), m) (.eval e, m)
  | returned : Calls d (.exec (.returning kw (some e)), m) (.eval e, m)
  | variableValue : Calls d (.exec (.varDecl x (some e)), m) (.eval e, m)
  | loopTest : Calls d (.exec (.loop c s), m) (.eval c, m)
  | loopBody : Yields (eval d · c) m v m' → v.truthy = true →
      Calls d (.exec (.loop c s), m) (.exec s, m')
  | loopAgain : Yields (eval d · c) m v m' → v.truthy = true →
      Yields (exec d · s) m' .normal m'' →
      Calls d (.exec (.loop c s), m) (.exec (.loop c s), m'')
  | firstStatement : Calls d (.execAll (s :: ss), m) (.exec s, m)
  | otherStatements : Yields (exec d · s) m .normal m' →
      Calls d (.execAll (s :: ss), m) (.execAll ss, m')

/-- The second moment is reached in the course of the first. -/
abbrev Visits (d : Distances ν) : Moment ν → Moment ν → Prop := Relation.ReflTransGen (Calls d)

open Exec in
/-- A moment at which a program, started on a machine, starts one of its statements. -/
inductive Starts (d : Distances ν) : List (Stmt ν) → Machine ν → Moment ν → Prop
  | first : Starts d (t :: ts) m (.exec t, m)
  | next : Yields (exec d · t) m flow m' → Starts d ts m' M → Starts d (t :: ts) m M

/-! ## Frames made on the way -/

open Exec in
/-- A moment makes a frame for a scope of the program. -/
inductive Opens (d : Distances ν) : Moment ν → FrameId → Site ν → Prop
  | block : Opens d (.exec (.block body), m) m.store.frames.cells.size (.block body)
  | function : Opens d (.applyFunction f args, m) m.store.frames.cells.size (.function f.decl)
  /-- The frame of `super`, once the superclass is known. -/
  | parent : Yields (eval d · e) m (.classRef p) m' →
      Opens d (.exec (.classDecl x (some e) methods), m) m'.store.frames.cells.size (.parent methods)
  /-- A frame of `this`, for a method read off an object. -/
  | property : Yields (eval d · o) m (.objectRef i) m' →
      m'.store.property i x.lexeme = .method f →
      Opens d (.eval (.get o x), m) m'.store.frames.cells.size (.receiver f.decl)
  /-- A frame of `this`, for a method of the superclass. -/
  | superclass : d k = some j → m.store.frames.getAt m.env j kw.lexeme = .ok (.classRef p) →
      m.store.frames.getAt m.env (j - 1) "this" = .ok (.objectRef i) →
      m.store.method? p x.lexeme = some f →
      Opens d (.eval (.superRef k kw x), m) m.store.frames.cells.size (.receiver f.decl)
  /-- A frame of `this`, for an initializer. -/
  | initializer : Opens d (.apply (.constructor i (some f)) args, m) m.store.frames.cells.size
      (.receiver f.decl)

/-- Every frame made in the course of a moment was made for a scope that `O` gives it. -/
def Within (d : Distances ν) (O : FrameId → Site ν → Prop) (M : Moment ν) : Prop :=
  ∀ M', Visits d M M' → ∀ f site, Opens d M' f site → O f site

namespace Within

variable {d : Distances ν} {O : FrameId → Site ν → Prop} {M M' : Moment ν}

theorem opens (h : Within d O M) {f : FrameId} {site : Site ν} (ho : Opens d M f site) : O f site :=
  h M .refl f site ho

theorem calls (h : Within d O M) (hc : Calls d M M') : Within d O M' :=
  fun M'' hv => h M'' (hv.head hc)

end Within

end Lox
