import Lox.Proofs.Execution.Plain

/-!
# Where an error is raised

A run that fails does so at one of its moments: `Raises` has a rule for each branch of the evaluator
that stops a run. A defensive branch is one that the checks before the run are there to exclude.

The evaluator is walked through once, with the plain steps of every moment and the errors that these stop
with (`Law.runs`). What composition keeps and what holds of such steps then holds of all that the evaluator
does: first of all that every error of a run comes from a branch of `Raises` (`raises_of_interpret`).
-/

namespace Lox

/-- Whether a branch that stops a run is meant for programs. -/
inductive Branch where
  | ordinary
  | defensive
deriving DecidableEq, Repr

open Exec in
/-- A moment raises an error itself. -/
inductive Raises (d : Distances ν) : Branch → RuntimeError → Moment ν → Prop
  | name : readName (d k) x m = .failed err m' → Raises d .ordinary err (.eval (.variable k x), m)
  | this : readName (d k) kw m = .failed err m' → Raises d .ordinary err (.eval (.thisRef k kw), m)
  | write : Yields (eval d · e) m v m' → assignName (d k) x v m' = .failed err m'' →
      Raises d .ordinary err (.eval (.assign k x e), m)
  | operands : Yields (eval d · l) m a m' → Yields (eval d · r) m' b m'' →
      applyBinary op.kind a b = .error cause → cause ≠ .binaryOperator →
      Raises d .ordinary ⟨op, cause⟩ (.eval (.binary l op r), m)
  | binaryOperator : Yields (eval d · l) m a m' → Yields (eval d · r) m' b m'' →
      applyBinary op.kind a b = .error .binaryOperator →
      Raises d .defensive ⟨op, .binaryOperator⟩ (.eval (.binary l op r), m)
  | operand : Yields (eval d · e) m a m' → applyUnary op.kind a = .error cause →
      cause ≠ .unaryOperator → Raises d .ordinary ⟨op, cause⟩ (.eval (.unary op e), m)
  | unaryOperator : Yields (eval d · e) m a m' → applyUnary op.kind a = .error .unaryOperator →
      Raises d .defensive ⟨op, .unaryOperator⟩ (.eval (.unary op e), m)
  | property : Yields (eval d · o) m (.objectRef i) m' → getProperty i x m' = .failed err m'' →
      Raises d .ordinary err (.eval (.get o x), m)
  | noProperties : Yields (eval d · o) m v m' → (∀ i, v ≠ .objectRef i) →
      Raises d .ordinary ⟨x, .noProperties⟩ (.eval (.get o x), m)
  | noFields : Yields (eval d · o) m v m' → (∀ i, v ≠ .objectRef i) →
      Raises d .ordinary ⟨x, .noFields⟩ (.eval (.set o x e), m)
  | superProperty : superMethod (d k) kw x m = .failed ⟨x, .undefinedProperty x.lexeme⟩ m' →
      Raises d .ordinary ⟨x, .undefinedProperty x.lexeme⟩ (.eval (.superRef k kw x), m)
  /-- No distance, no class under `super`, no object under `this`. -/
  | superFault : superMethod (d k) kw x m = .failed err m' → err ≠ ⟨x, .undefinedProperty x.lexeme⟩ →
      Raises d .defensive err (.eval (.superRef k kw x), m)
  | notCallable : Callable.of? m.store callee = none →
      Raises d .ordinary ⟨paren, .notCallable⟩ (.invoke paren callee args, m)
  | wrongArity : Callable.of? m.store callee = some f → args.length ≠ f.arity →
      Raises d .ordinary ⟨paren, .wrongArity f.arity args.length⟩ (.invoke paren callee args, m)
  | stackOverflow : Callable.of? m.store callee = some f → args.length = f.arity →
      maxCallDepth ≤ m.depth → Raises d .ordinary ⟨paren, .stackOverflow⟩ (.invoke paren callee args, m)
  /-- An initializer does not find the object it is bound to. -/
  | receiver : f.isInitializer = true →
      Yields (execAll d · f.decl.body) (m.enter f.closure (f.locals args)) flow m' →
      m'.store.frames.getAt f.closure 0 "this" = .error cause →
      Raises d .defensive ⟨.ident "this" f.decl.name.line, cause⟩ (.applyFunction f args, m)
  | superclass : Yields (eval d · e) m v m' → (∀ i, v ≠ .classRef i) →
      Raises d .ordinary ⟨superclassToken x e, .superclassNotClass⟩
        (.exec (.classDecl x (some e) methods), m)
  /-- A class does not find the name it was just given. -/
  | declared : declareClass x none methods m = .failed err m' →
      Raises d .defensive err (.exec (.classDecl x none methods), m)
  | derived : Yields (eval d · e) m (.classRef p) m' → declareClass x (some p) methods m' = .failed err m'' →
      Raises d .defensive err (.exec (.classDecl x (some e) methods), m)
  | print : Yields (eval d · e) m v m' → printLine kw (m'.store.text v) m' = .failed err m'' →
      Raises d .ordinary err (.exec (.print kw e), m)

namespace Exec

theorem liftAt_eq_failed {t : Token} {r : Except RuntimeFault α} {m m' : Machine ν} {err : RuntimeError} :
    liftAt t r m = .failed err m' ↔ ∃ cause, r = .error cause ∧ err = ⟨t, cause⟩ ∧ m' = m := by
  cases r with
  | ok a => simp [liftAt]
  | error cause => simp [liftAt, throwAt, eq_comm]

/-! ## A walk over the evaluator -/

/-- A property of the steps in the course of a moment. It holds of the plain steps there, which stop with
errors of the moment only, and of a printed line; and it holds of steps that are put together from others
of which it holds. -/
structure Law (d : Distances ν) (Q : Moment ν → (α : Type) → Exec ν α → Machine ν → Prop) : Prop where
  outOfFuel : ∀ {M α m}, Q M α Exec.outOfFuel m
  plain : ∀ {M α x m}, Plain x → (∀ err m', x m = .failed err m' → ∃ b, Raises d b err M) → Q M α x m
  printLine : ∀ {e m v m₁ kw}, Yields (eval d · e) m v m₁ →
    Q (.exec (.print kw e), m) Unit (Exec.printLine kw (m₁.store.text v)) m₁
  bind : ∀ {M α β} {x : Exec ν α} {f : α → Exec ν β} {m}, Q M α x m →
    (∀ a m', x m = .done a m' → Q M β (f a) m') → Q M β (x >>= f) m
  inFrame : ∀ {M α x m frame}, Q M α x { m with env := frame } → Q M α (Exec.inFrame frame x) m
  deeper : ∀ {M α x m}, Q M α x { m with depth := m.depth + 1 } → Q M α (Exec.deeper x) m
  /-- What a moment starts belongs to its course. -/
  calls : ∀ {M M' α x m}, Calls d M M' → Q M' α x m → Q M α x m

/-- The property holds of all that the evaluator does with some fuel. -/
structure Runs (d : Distances ν) (Q : Moment ν → (α : Type) → Exec ν α → Machine ν → Prop) (n : Nat) :
    Prop where
  eval : ∀ e m, Q (.eval e, m) Value (Exec.eval d n e) m
  evalAll : ∀ es m, Q (.evalAll es, m) (List Value) (Exec.evalAll d n es) m
  invoke : ∀ paren callee args m, Q (.invoke paren callee args, m) Value (Exec.invoke d n paren callee args) m
  apply : ∀ f args m, Q (.apply f args, m) Value (Exec.apply d n f args) m
  applyFunction : ∀ f args m, Q (.applyFunction f args, m) Value (Exec.applyFunction d n f args) m
  exec : ∀ t m, Q (.exec t, m) Flow (Exec.exec d n t) m
  execAll : ∀ ts m, Q (.execAll ts, m) Flow (Exec.execAll d n ts) m

namespace Law

variable {d : Distances ν} {Q : Moment ν → (α : Type) → Exec ν α → Machine ν → Prop} (L : Law d Q)
  {M : Moment ν} {α : Type} {m : Machine ν} {n : Nat}
include L

/-- A plain step that does not fail. -/
theorem done {x : Exec ν α} {a : α} {m' : Machine ν} (hx : Plain x) (h : x m = .done a m') : Q M α x m := by
  refine L.plain hx fun err m₁ he => ?_
  rw [h] at he
  cases he

theorem pure (a : α) : Q M α (Pure.pure a) m := L.done (.pure a) rfl

theorem read {g : Machine ν → α} (h : ∀ m o, g { m with output := o } = g m) : Q M α (Exec.read g) m :=
  L.done (.read h) rfl

theorem throwAt {t : Token} {cause : RuntimeFault} {b : Branch} (h : Raises d b ⟨t, cause⟩ M) :
    Q M α (Exec.throwAt t cause) m := by
  refine L.plain (.throwAt t cause) fun err m' he => ?_
  cases he
  exact ⟨b, h⟩

theorem liftAt {t : Token} {r : Except RuntimeFault α}
    (h : ∀ cause, r = .error cause → ∃ b, Raises d b ⟨t, cause⟩ M) : Q M α (Exec.liftAt t r) m := by
  refine L.plain (.liftAt t r) fun err m' he => ?_
  obtain ⟨cause, hr, rfl, _⟩ := liftAt_eq_failed.1 he
  exact h cause hr

/-! One case for each kind of task, from less fuel to more. -/

theorem eval (ih : Runs d Q n) (e : Expr ν) (m : Machine ν) :
    Q (.eval e, m) Value (Exec.eval d (n + 1) e) m := by
  cases e with
  | assign k x e =>
    rw [Exec.eval]
    refine L.bind (L.calls .assignValue (ih.eval e m)) fun v m₁ h => ?_
    exact L.bind (L.plain (.assignName _ x v) fun err m' he => ⟨_, .write ⟨n, h⟩ he⟩) fun _ _ _ => L.pure v
  | binary l op r =>
    rw [Exec.eval]
    refine L.bind (L.calls .binaryLeft (ih.eval l m)) fun a m₁ h₁ => ?_
    refine L.bind (L.calls (.binaryRight ⟨n, h₁⟩) (ih.eval r m₁)) fun b m₂ h₂ => L.liftAt ?_
    intro cause hc
    by_cases hop : cause = .binaryOperator
    · subst hop
      exact ⟨_, .binaryOperator ⟨n, h₁⟩ ⟨n, h₂⟩ hc⟩
    · exact ⟨_, .operands ⟨n, h₁⟩ ⟨n, h₂⟩ hc hop⟩
  | call f paren args =>
    rw [Exec.eval]
    refine L.bind (L.calls .callee (ih.eval f m)) fun v m₁ h₁ => ?_
    refine L.bind (L.calls (.arguments ⟨n, h₁⟩) (ih.evalAll args m₁)) fun vs m₂ h₂ => ?_
    exact L.calls (.invoke ⟨n, h₁⟩ ⟨n, h₂⟩) (ih.invoke paren v vs m₂)
  | get o x =>
    rw [Exec.eval]
    refine L.bind (L.calls .getObject (ih.eval o m)) fun v m₁ h₁ => ?_
    cases v with
    | objectRef i => exact L.plain (.getProperty i x) fun err m' he => ⟨_, .property ⟨n, h₁⟩ he⟩
    | _ => exact L.throwAt (.noProperties ⟨n, h₁⟩ (by simp))
  | grouping e =>
    rw [Exec.eval]
    exact L.calls .grouping (ih.eval e m)
  | literal v =>
    rw [Exec.eval]
    exact L.pure _
  | logical l op r =>
    rw [Exec.eval]
    refine L.bind (L.calls .logicalLeft (ih.eval l m)) fun a m₁ h₁ => ?_
    by_cases ha : a.truthy = op.is .orKw
    · rw [if_pos ha]
      exact L.pure a
    · rw [if_neg ha]
      exact L.calls (.logicalRight ⟨n, h₁⟩ ha) (ih.eval r m₁)
  | set o x e =>
    rw [Exec.eval]
    refine L.bind (L.calls .setObject (ih.eval o m)) fun v m₁ h₁ => ?_
    cases v with
    | objectRef i =>
      refine L.bind (L.calls (.setValue ⟨n, h₁⟩) (ih.eval e m₁)) fun v m₂ _ => ?_
      exact L.bind (L.done (.setField i x.lexeme v) rfl) fun _ _ _ => L.pure v
    | _ => exact L.throwAt (.noFields ⟨n, h₁⟩ (by simp))
  | superRef k kw x =>
    rw [Exec.eval]
    refine L.plain (.superMethod _ kw x) fun err m' he => ?_
    by_cases herr : err = ⟨x, .undefinedProperty x.lexeme⟩
    · subst herr
      exact ⟨_, .superProperty he⟩
    · exact ⟨_, .superFault he herr⟩
  | thisRef k kw =>
    rw [Exec.eval]
    exact L.plain (.readName _ kw) fun err m' he => ⟨_, .this he⟩
  | unary op e =>
    rw [Exec.eval]
    refine L.bind (L.calls .operand (ih.eval e m)) fun a m₁ h₁ => L.liftAt ?_
    intro cause hc
    by_cases hop : cause = .unaryOperator
    · subst hop
      exact ⟨_, .unaryOperator ⟨n, h₁⟩ hc⟩
    · exact ⟨_, .operand ⟨n, h₁⟩ hc hop⟩
  | «variable» k x =>
    rw [Exec.eval]
    exact L.plain (.readName _ x) fun err m' he => ⟨_, .name he⟩

theorem evalAll (ih : Runs d Q n) (es : List (Expr ν)) (m : Machine ν) :
    Q (.evalAll es, m) (List Value) (Exec.evalAll d (n + 1) es) m := by
  cases es with
  | nil =>
    rw [Exec.evalAll]
    exact L.pure []
  | cons e es =>
    rw [Exec.evalAll]
    refine L.bind (L.calls .first (ih.eval e m)) fun v m₁ h₁ => ?_
    exact L.bind (L.calls (.others ⟨n, h₁⟩) (ih.evalAll es m₁)) fun vs m₂ _ => L.pure _

theorem invoke (ih : Runs d Q n) (paren : Token) (callee : Value) (args : List Value) (m : Machine ν) :
    Q (.invoke paren callee args, m) Value (Exec.invoke d (n + 1) paren callee args) m := by
  rw [Exec.invoke]
  refine L.bind (L.read fun _ _ => rfl) fun found m₁ h => ?_
  obtain ⟨hf, rfl⟩ := read_eq_done.1 h
  cases found with
  | none => exact L.throwAt (.notCallable hf)
  | some f =>
    simp only
    by_cases hargs : args.length = f.arity
    · rw [if_neg (fun h => h hargs)]
      refine L.bind (L.read fun _ _ => rfl) fun depth m₁ h => ?_
      obtain ⟨rfl, rfl⟩ := read_eq_done.1 h
      by_cases hdepth : maxCallDepth ≤ m.depth
      · rw [if_pos hdepth]
        exact L.throwAt (.stackOverflow hf hargs hdepth)
      · rw [if_neg hdepth]
        exact L.deeper (L.calls (.apply hf hargs (Nat.lt_of_not_le hdepth)) (ih.apply f args _))
    · rw [if_pos hargs]
      exact L.throwAt (.wrongArity hf hargs)

theorem apply (ih : Runs d Q n) (f : Callable ν) (args : List Value) (m : Machine ν) :
    Q (.apply f args, m) Value (Exec.apply d (n + 1) f args) m := by
  cases f with
  | native f =>
    cases f
    rw [Exec.apply]
    exact L.done .readClock rfl
  | function f =>
    rw [Exec.apply]
    exact L.calls .function (ih.applyFunction f args m)
  | constructor i init =>
    cases init with
    | none =>
      rw [Exec.apply]
      exact L.bind (L.done (.newObject i) rfl) fun object _ _ => L.bind (L.pure ()) fun _ _ _ => L.pure _
    | some f =>
      rw [Exec.apply]
      refine L.bind (L.done (.newObject i) rfl) fun object m₁ h₁ => ?_
      cases h₁
      refine L.bind (L.done (.bindMethod f _) rfl) fun bound m₂ h₂ => ?_
      cases h₂
      exact L.bind (L.calls .initializer (ih.applyFunction _ args _)) fun _ _ _ => L.pure _

theorem applyFunction (ih : Runs d Q n) (f : Lox.Function ν) (args : List Value) (m : Machine ν) :
    Q (.applyFunction f args, m) Value (Exec.applyFunction d (n + 1) f args) m := by
  rw [Exec.applyFunction]
  refine L.bind (L.done (.newFrame _ _) rfl) fun frame m₁ h₁ => ?_
  cases h₁
  refine L.bind (L.inFrame (L.calls .functionBody (ih.execAll f.decl.body _))) fun flow m₂ h₂ => ?_
  by_cases hi : f.isInitializer = true
  · rw [if_pos hi]
    refine L.bind (L.read fun _ _ => rfl) fun frames m₃ h₃ => ?_
    cases h₃
    refine L.liftAt fun cause hg => ?_
    obtain ⟨m₂', hy, rfl⟩ := inFrame_eq_done h₂
    exact ⟨_, .receiver hi ⟨n, hy⟩ hg⟩
  · rw [if_neg hi]
    exact L.pure _

theorem exec (ih : Runs d Q n) (t : Stmt ν) (m : Machine ν) :
    Q (.exec t, m) Flow (Exec.exec d (n + 1) t) m := by
  cases t with
  | block body =>
    rw [Exec.exec]
    refine L.bind (L.read fun _ _ => rfl) fun env m₁ h₁ => ?_
    cases h₁
    refine L.bind (L.done (.newFrame _ _) rfl) fun frame m₂ h₂ => ?_
    cases h₂
    exact L.inFrame (L.calls .blockBody (ih.execAll body _))
  | classDecl x parent methods =>
    cases parent with
    | none =>
      rw [Exec.exec]
      refine L.bind (L.pure none) fun superclass m₁ h₁ => ?_
      cases h₁
      exact L.bind (L.plain (.declareClass x none methods) fun err m' he => ⟨_, .declared he⟩)
        fun _ _ _ => L.pure _
    | some e =>
      rw [Exec.exec]
      refine L.bind (L.calls .superclass (ih.eval e m)) fun v m₁ h₁ => ?_
      cases v with
      | classRef p =>
        refine L.bind (L.pure (some p)) fun superclass m₂ h₂ => ?_
        cases h₂
        exact L.bind (L.plain (.declareClass x (some p) methods) fun err m' he => ⟨_, .derived ⟨n, h₁⟩ he⟩)
          fun _ _ _ => L.pure _
      | _ => exact L.bind (L.throwAt (.superclass ⟨n, h₁⟩ (by simp))) fun superclass m₂ h₂ => nomatch h₂
  | expression e =>
    rw [Exec.exec]
    exact L.bind (L.calls .expression (ih.eval e m)) fun _ _ _ => L.pure _
  | function decl =>
    rw [Exec.exec]
    exact L.bind (L.read fun _ _ => rfl) fun _ _ _ => L.bind (L.done (.newFunction _) rfl) fun f _ _ =>
      L.bind (L.done (.define _ f) rfl) fun _ _ _ => L.pure _
  | conditional c s t =>
    cases t with
    | none =>
      rw [Exec.exec]
      refine L.bind (L.calls .test (ih.eval c m)) fun v m₁ h₁ => ?_
      cases hv : v.truthy with
      | true => exact L.calls (.thenBranch ⟨n, h₁⟩ hv) (ih.exec s m₁)
      | false => exact L.pure _
    | some t =>
      rw [Exec.exec]
      refine L.bind (L.calls .test (ih.eval c m)) fun v m₁ h₁ => ?_
      cases hv : v.truthy with
      | true => exact L.calls (.thenBranch ⟨n, h₁⟩ hv) (ih.exec s m₁)
      | false => exact L.calls (.elseBranch ⟨n, h₁⟩ hv) (ih.exec t m₁)
  | print kw e =>
    rw [Exec.exec]
    refine L.bind (L.calls .printed (ih.eval e m)) fun v m₁ h₁ => ?_
    refine L.bind (L.read fun _ _ => rfl) fun text m₂ h₂ => ?_
    obtain ⟨rfl, rfl⟩ := read_eq_done.1 h₂
    exact L.bind (L.printLine ⟨n, h₁⟩) fun _ _ _ => L.pure _
  | returning kw e =>
    cases e with
    | none =>
      rw [Exec.exec]
      exact L.pure _
    | some e =>
      rw [Exec.exec]
      exact L.bind (L.calls .returned (ih.eval e m)) fun _ _ _ => L.pure _
  | varDecl x e =>
    cases e with
    | none =>
      rw [Exec.exec]
      exact L.bind (L.done (.define _ _) rfl) fun _ _ _ => L.pure _
    | some e =>
      rw [Exec.exec]
      refine L.bind (L.calls .variableValue (ih.eval e m)) fun v _ _ => ?_
      exact L.bind (L.done (.define _ v) rfl) fun _ _ _ => L.pure _
  | loop c s =>
    rw [Exec.exec]
    refine L.bind (L.calls .loopTest (ih.eval c m)) fun v m₁ h₁ => ?_
    cases hv : v.truthy with
    | false => exact L.pure _
    | true =>
      refine L.bind (L.calls (.loopBody ⟨n, h₁⟩ hv) (ih.exec s m₁)) fun flow m₂ h₂ => ?_
      cases flow with
      | normal => exact L.calls (.loopAgain ⟨n, h₁⟩ hv ⟨n, h₂⟩) (ih.exec (.loop c s) m₂)
      | returned v => exact L.pure _

theorem execAll (ih : Runs d Q n) (ts : List (Stmt ν)) (m : Machine ν) :
    Q (.execAll ts, m) Flow (Exec.execAll d (n + 1) ts) m := by
  cases ts with
  | nil =>
    rw [Exec.execAll]
    exact L.pure _
  | cons t ts =>
    rw [Exec.execAll]
    refine L.bind (L.calls .firstStatement (ih.exec t m)) fun flow m₁ h₁ => ?_
    cases flow with
    | normal => exact L.calls (.otherStatements ⟨n, h₁⟩) (ih.execAll ts m₁)
    | returned v => exact L.pure _

theorem runs (n : Nat) : Runs d Q n := by
  induction n with
  | zero =>
    constructor <;> intros
    · rw [Exec.eval]; exact L.outOfFuel
    · rw [Exec.evalAll]; exact L.outOfFuel
    · rw [Exec.invoke]; exact L.outOfFuel
    · rw [Exec.apply]; exact L.outOfFuel
    · rw [Exec.applyFunction]; exact L.outOfFuel
    · rw [Exec.exec]; exact L.outOfFuel
    · rw [Exec.execAll]; exact L.outOfFuel
  | succ n ih =>
    exact ⟨L.eval ih, L.evalAll ih, L.invoke ih, L.apply ih, L.applyFunction ih, L.exec ih, L.execAll ih⟩

/-- The property holds of every task. -/
theorem run (M : Moment ν) (n : Nat) : Q M M.1.Answer (M.1.run d n) M.2 := by
  obtain ⟨T, m⟩ := M
  have h := L.runs n
  cases T with
  | eval e => exact h.eval e m
  | evalAll es => exact h.evalAll es m
  | invoke paren callee args => exact h.invoke paren callee args m
  | apply f args => exact h.apply f args m
  | applyFunction f args => exact h.applyFunction f args m
  | exec t => exact h.exec t m
  | execAll ts => exact h.execAll ts m

end Law

/-! ## Tracing an error -/

/-- If a step fails, then some moment in the course of `M` raises its error. -/
def Traced (d : Distances ν) (M : Moment ν) (x : Exec ν α) (m : Machine ν) : Prop :=
  ∀ err m', x m = .failed err m' → ∃ b M', Visits d M M' ∧ Raises d b err M'

theorem traced_law (d : Distances ν) : Law d fun M _ x m => Traced d M x m where
  outOfFuel _ _ h := nomatch h
  plain {M} _ _ _ _ hx err m' h := by
    obtain ⟨b, hb⟩ := hx err m' h
    exact ⟨b, M, .refl, hb⟩
  printLine hy err m' h := ⟨_, _, .refl, .print hy h⟩
  bind hx hf err m' h := by
    rcases bind_eq_failed h with h | ⟨a, m₁, hdone, h⟩
    · exact hx err m' h
    · exact hf a m₁ hdone err m' h
  inFrame {_ _ x m frame} hx err m' h := by
    simp only [Exec.inFrame] at h
    cases hr : x { m with env := frame } <;> rw [hr] at h <;> cases h
    exact hx err _ hr
  deeper {_ _ x m} hx err m' h := by
    simp only [Exec.deeper] at h
    cases hr : x { m with depth := m.depth + 1 } <;> rw [hr] at h <;> cases h
    exact hx err _ hr
  calls hc hx err m' h := by
    obtain ⟨b, M', hv, hM⟩ := hx err m' h
    exact ⟨b, M', hv.head hc, hM⟩

/-- If a program fails, a moment of its run raises the error. -/
theorem raises_of_interpret {d : Distances ν} {n : Nat} {tree : List (Stmt ν)} {m m' : Machine ν}
    {err : RuntimeError} (h : interpret d n tree m = .failed err m') :
    ∃ S b M, Starts d tree m S ∧ Visits d S M ∧ Raises d b err M := by
  induction tree generalizing m with
  | nil => cases h
  | cons t ts ih =>
    rw [interpret] at h
    rcases bind_eq_failed h with h | ⟨flow, m₁, hdone, h⟩
    · obtain ⟨b, M, hv, hM⟩ := ((traced_law d).runs n).exec t m err m' h
      exact ⟨_, b, M, .first, hv, hM⟩
    · obtain ⟨S, b, M, hS, hM⟩ := ih h
      exact ⟨S, b, M, .next ⟨n, hdone⟩ hS, hM⟩

end Exec

end Lox
