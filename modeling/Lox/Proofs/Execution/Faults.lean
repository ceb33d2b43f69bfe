import Lox.Proofs.Execution.Raises

/-!
# What a run fails for

Each operation that can fail does so for a few faults only, so the failures of one kind come from moments of
one kind. A run stops with an unresolved name if a name is not in the frame that its distance leads to; that
happens at a moment of `Visits` that reads or writes a name at a distance, or that gives the object of an
initializer (`loses_of_interpret`). And only a call overflows (`invokes_of_overflow`).
-/

namespace Lox

/-- The mark and the name of a node that reads a binding. -/
def Expr.reads? : Expr ν → Option (ν × String)
  | .superRef k keyword _ => some (k, keyword.lexeme)
  | .thisRef k keyword => some (k, keyword.lexeme)
  | .variable k x => some (k, x.lexeme)
  | _ => none

/-- A name is not where its distance says. -/
def RuntimeFault.isLost : RuntimeFault → Bool
  | .unresolvedVariable _ _ => true
  | _ => false

open Exec in
/-- A moment loses a name itself. -/
inductive Loses (d : Distances ν) (err : RuntimeError) : Moment ν → Prop
  | read : e.reads? = some (k, x) → d k = some j → eval d n e m = .failed err m' →
      Loses d err (.eval e, m)
  | write : d k = some j → Yields (eval d · e) m v m' → assignName (some j) x v m' = .failed err m'' →
      Loses d err (.eval (.assign k x e), m)
  | object : f.isInitializer = true →
      Yields (execAll d · f.decl.body) (m.enter f.closure (f.locals args)) flow m' →
      m'.store.frames.getAt f.closure 0 "this" = .error err.cause →
      Loses d err (.applyFunction f args, m)

namespace Exec

/-! ## What steps fail for -/

/-- However a step fails, it is for such a fault. -/
def Only (P : RuntimeFault → Prop) (x : Exec ν α) : Prop := ∀ m err m', x m = .failed err m' → P err.cause

namespace Only

variable {P : RuntimeFault → Prop} {x : Exec ν α} {f : α → Exec ν β}

theorem pure (a : α) : Only P (Pure.pure a : Exec ν α) := by
  intro m err m' h
  cases h

theorem bind (hx : Only P x) (hf : ∀ a, Only P (f a)) : Only P (x >>= f) := by
  intro m err m' h
  rcases bind_eq_failed h with h | ⟨a, m₁, _, h⟩
  · exact hx m err m' h
  · exact hf a m₁ err m' h

theorem read (f : Machine ν → α) : Only P (Exec.read f) := by
  intro m err m' h
  cases h

theorem updateStore (f : Store ν → α × Store ν) : Only P (Exec.updateStore f) := by
  intro m err m' h
  cases h

theorem define (name : String) (value : Value) : Only P (Exec.define name value : Exec ν Unit) := by
  intro m err m' h
  cases h

theorem throwAt (t : Token) {cause : RuntimeFault} (h : P cause) :
    Only P (Exec.throwAt t cause : Exec ν α) := by
  intro m err m' he
  cases he
  exact h

theorem liftAt (t : Token) {r : Except RuntimeFault α} (h : ∀ cause, r = .error cause → P cause) :
    Only P (Exec.liftAt t r : Exec ν α) := by
  cases r with
  | ok a => exact pure a
  | error cause => exact throwAt t (h cause rfl)

theorem assignIn (t : Token) {locate : Frames → Except RuntimeFault FrameId}
    (h : ∀ s cause, locate s = .error cause → P cause) (value : Value) :
    Only P (Exec.assignIn t locate value : Exec ν Unit) := by
  intro m err m' he
  unfold Exec.assignIn at he
  cases hl : locate m.store.frames with
  | ok f =>
    rw [hl] at he
    cases he
  | error cause =>
    rw [hl] at he
    cases he
    exact h _ _ hl

end Only

/-! One fact for each operation that can fail. -/

theorem printLine_only (keyword : Token) (text : String) :
    Only (· = .outputClosed) (printLine keyword text : Exec ν Unit) := by
  intro m err m' h
  simp only [printLine] at h
  split at h
  · cases h
  · cases h
    rfl

theorem cause_of_locate {s : Frames} {f : FrameId} {x : String} {cause : RuntimeFault}
    (h : s.locate f x = .error cause) : cause = .undefinedVariable x := by
  unfold Frames.locate at h
  split at h <;> cases h
  rfl

theorem cause_of_locateAt {s : Frames} {f : FrameId} {j : Nat} {x : String} {cause : RuntimeFault}
    (h : s.locateAt f j x = .error cause) : cause = .unresolvedVariable x j := by
  unfold Frames.locateAt at h
  split at h <;> cases h
  rfl

theorem map_eq_error {r : Except RuntimeFault α} {f : α → β} {cause : RuntimeFault}
    (h : r.map f = .error cause) : r = .error cause := by
  cases r <;> cases h
  rfl

theorem cause_of_applyUnary {op : Kind} {a : Value} {cause : RuntimeFault} (h : applyUnary op a = .error cause) :
    cause = .operandNotNumber ∨ cause = .unaryOperator := by
  unfold applyUnary at h
  split at h
  · unfold negate at h
    split at h <;> cases h
    exact .inl rfl
  · cases h
  · cases h
    exact .inr rfl

theorem cause_of_applyBinary {op : Kind} {a b : Value} {cause : RuntimeFault}
    (h : applyBinary op a b = .error cause) :
    cause = .operandsNotAddable ∨ cause = .operandsNotNumbers ∨ cause = .binaryOperator := by
  unfold applyBinary at h
  split at h
  · unfold add at h
    split at h <;> cases h
    exact .inl rfl
  · cases h
  · cases h
  · split at h
    · unfold arithmetic at h
      split at h <;> cases h
      exact .inr (.inr rfl)
    · cases h
      exact .inr (.inl rfl)

/-- The fault of a name that is not found: at a distance, or among the globals. -/
def missing (x : String) : Option Nat → RuntimeFault
  | some j => .unresolvedVariable x j
  | none => .undefinedVariable x

theorem stackOverflow_ne_missing (x : String) (distance : Option Nat) :
    RuntimeFault.stackOverflow ≠ missing x distance := by
  cases distance <;> nofun

theorem readName_only (distance : Option Nat) (x : Token) :
    Only (· = missing x.lexeme distance) (readName distance x : Exec ν Value) := by
  refine .bind (.read _) fun frames => ?_
  cases distance with
  | some j => exact .bind (.read _) fun env => .liftAt x fun _ h => cause_of_locateAt (map_eq_error h)
  | none => exact .liftAt x fun _ h => cause_of_locate (map_eq_error h)

theorem assignName_only (distance : Option Nat) (x : Token) (v : Value) :
    Only (· = missing x.lexeme distance) (assignName distance x v : Exec ν Unit) := by
  refine .bind (.read _) fun env => ?_
  cases distance with
  | some j => exact .assignIn x (fun _ _ h => cause_of_locateAt h) v
  | none => exact .assignIn x (fun _ _ h => cause_of_locate h) v

theorem getProperty_only (object : ObjectId) (x : Token) :
    Only (· = .undefinedProperty x.lexeme) (getProperty object x : Exec ν Value) := by
  refine .bind (.read _) fun property => ?_
  cases property with
  | field value => exact .pure value
  | method f => exact .bind (.updateStore _) fun bound => .updateStore _
  | missing => exact .throwAt x rfl

theorem superMethod_only (distance : Option Nat) (kw x : Token) :
    Only (fun cause => cause = .superOutsideClass ∨ (∃ name j, cause = .unresolvedVariable name j) ∨
        cause = .noProperties ∨ cause = .superclassNotClass ∨ cause = .undefinedProperty x.lexeme)
      (superMethod distance kw x : Exec ν Value) := by
  cases distance with
  | none => exact .throwAt _ (.inl rfl)
  | some j =>
    have hlost : ∀ {s : Frames} {env j name cause}, s.getAt env j name = .error cause →
        ∃ name j, cause = .unresolvedVariable name j :=
      fun h => ⟨_, _, cause_of_locateAt (map_eq_error h)⟩
    refine .bind (.read _) fun env => .bind (.read _) fun frames => ?_
    refine .bind (.liftAt _ fun _ h => .inr (.inl (hlost h))) fun v => ?_
    cases v with
    | classRef p =>
      refine .bind (.liftAt _ fun _ h => .inr (.inl (hlost h))) fun u => ?_
      cases u with
      | objectRef object =>
        refine .bind (.read _) fun found => ?_
        cases found with
        | some f => exact .bind (.updateStore _) fun bound => .updateStore _
        | none => exact .throwAt _ (by simp)
      | _ => exact .throwAt _ (by simp)
    | _ => exact .throwAt _ (by simp)

theorem declareClass_only (x : Token) (superclass : Option ClassId) (methods : List (FunDecl (Stmt ν))) :
    Only (· = .undefinedVariable x.lexeme) (declareClass x superclass methods) := by
  have hclass : ∀ env closure, Only (· = .undefinedVariable x.lexeme) (do
      let id ← updateStore (·.addClass ⟨x.lexeme, superclass, methodTable closure methods⟩)
      assignIn x (·.locate env x.lexeme) (.classRef id)) :=
    fun env closure => .bind (.updateStore _) fun id => .assignIn x (fun _ _ h => cause_of_locate h) _
  refine .bind (.define _ _) fun _ => .bind (.read _) fun env => ?_
  cases superclass with
  | some parent => exact .bind (.updateStore _) (hclass env)
  | none => exact .bind (.pure env) (hclass env)

/-! ## Finding a lost name -/

section
variable {d : Distances ν} {b : Branch} {err : RuntimeError} {M : Moment ν}

/-- An error that is raised for a lost name is raised where a name is read, written or, for the object
of an initializer, looked up. -/
theorem loses_of_raises (h : Raises d b err M) (hl : err.cause.isLost = true) : Loses d err M := by
  have hother : ∀ {cause : RuntimeFault}, cause.isLost = false → err.cause ≠ cause := by
    rintro cause hc rfl
    rw [hc] at hl
    cases hl
  cases h with
  | @name k x m _ m' he =>
    cases hd : d k with
    | none => exact absurd (readName_only _ _ _ _ _ (hd ▸ he)) (hother rfl)
    | some j => exact .read (n := 1) rfl hd (by rw [eval]; exact he)
  | @this k kw m _ m' he =>
    cases hd : d k with
    | none => exact absurd (readName_only _ _ _ _ _ (hd ▸ he)) (hother rfl)
    | some j => exact .read (n := 1) rfl hd (by rw [eval]; exact he)
  | @write e m v m' k x _ m'' hy he =>
    cases hd : d k with
    | none => exact absurd (assignName_only _ _ _ _ _ _ (hd ▸ he)) (hother rfl)
    | some j => exact .write hd hy (hd ▸ he)
  | superProperty => cases hl
  | @superFault k kw x m _ m' he =>
    cases hd : d k with
    | none =>
      rw [hd] at he
      cases he
      cases hl
    | some j => exact .read (n := 1) rfl hd (by rw [eval]; exact he)
  | operands _ _ hc => rcases cause_of_applyBinary hc with rfl | rfl | rfl <;> cases hl
  | operand _ hc => rcases cause_of_applyUnary hc with rfl | rfl <;> cases hl
  | property _ he => exact absurd (getProperty_only _ _ _ _ _ he) (hother rfl)
  | receiver hi hy hg => exact .object hi hy hg
  | declared he => exact absurd (declareClass_only _ _ _ _ _ _ he) (hother rfl)
  | derived _ he => exact absurd (declareClass_only _ _ _ _ _ _ he) (hother rfl)
  | print _ he => exact absurd (printLine_only _ _ _ _ _ he) (hother rfl)
  | _ => cases hl

/-- Only a call overflows, one that nothing but its depth forbids. -/
theorem invokes_of_overflow {paren : Token} (h : Raises d b ⟨paren, .stackOverflow⟩ M) :
    ∃ callee args m f, M = (.invoke paren callee args, m) ∧ Callable.of? m.store callee = some f ∧
      args.length = f.arity ∧ maxCallDepth ≤ m.depth := by
  cases h with
  | stackOverflow hf hargs hd => exact ⟨_, _, _, _, rfl, hf, hargs, hd⟩
  | name he => exact absurd (readName_only _ _ _ _ _ he) (stackOverflow_ne_missing _ _)
  | this he => exact absurd (readName_only _ _ _ _ _ he) (stackOverflow_ne_missing _ _)
  | write _ he => exact absurd (assignName_only _ _ _ _ _ _ he) (stackOverflow_ne_missing _ _)
  | operands _ _ hc => simpa using cause_of_applyBinary hc
  | operand _ hc => simpa using cause_of_applyUnary hc
  | property _ he => cases getProperty_only _ _ _ _ _ he
  | superFault he => simpa using superMethod_only _ _ _ _ _ _ he
  | receiver _ _ hg => cases cause_of_locateAt (map_eq_error hg)
  | declared he => cases declareClass_only _ _ _ _ _ _ he
  | derived _ he => cases declareClass_only _ _ _ _ _ _ he
  | print _ he => cases printLine_only _ _ _ _ _ he

end

/-- If a program loses a name, a moment of its run does. -/
theorem loses_of_interpret {d : Distances ν} {n : Nat} {tree : List (Stmt ν)} {m m' : Machine ν}
    {err : RuntimeError} (h : interpret d n tree m = .failed err m') (hl : err.cause.isLost = true) :
    ∃ S M, Starts d tree m S ∧ Visits d S M ∧ Loses d err M := by
  obtain ⟨S, b, M, hS, hM, hr⟩ := raises_of_interpret h
  exact ⟨S, M, hS, hM, loses_of_raises hr hl⟩

end Exec

end Lox
