import Lox.Proofs.Lexical.Agreement

/-!
# Fuel of the lexical evaluator

As on the machine, more fuel never changes how a step ended: `fuelledRuns`, `prolongs_of_le`.
-/

namespace Lox.Lexical.Run

/-- The second step ends as the first one does, unless the first one runs out of fuel. -/
def Prolongs (x y : Run ν α) : Prop := ∀ s, x s = .outOfFuel ∨ y s = x s

namespace Prolongs

theorem refl (x : Run ν α) : Prolongs x x := fun _ => .inr rfl

theorem dry (y : Run ν α) : Prolongs outOfFuel y := fun _ => .inl rfl

theorem trans {x y z : Run ν α} (h : Prolongs x y) (h' : Prolongs y z) : Prolongs x z := by
  intro s
  rcases h s with hx | hy
  · exact .inl hx
  · rw [← hy]
    exact h' s

/-- What ended goes on to end that way. -/
theorem eq {x y : Run ν α} (h : Prolongs x y) {s : State ν} (hx : x s ≠ .outOfFuel) : y s = x s :=
  (h s).resolve_left hx

theorem bind {x y : Run ν α} {f g : α → Run ν β} (h : Prolongs x y) (hf : ∀ a, Prolongs (f a) (g a)) :
    Prolongs (x >>= f) (y >>= g) := by
  intro s
  rw [bind_apply, bind_apply]
  rcases h s with hx | hy
  · rw [hx]
    exact .inl rfl
  · rw [hy]
    cases x s with
    | done a s' => exact hf a s'
    | failed e s' => exact .inr rfl
    | outOfFuel => exact .inl rfl

theorem ite {c : Prop} [Decidable c] {x x' y y' : Run ν α} (h : Prolongs x y) (h' : Prolongs x' y') :
    Prolongs (if c then x else x') (if c then y else y') := by
  split
  · exact h
  · exact h'

theorem inScope {x y : Run ν α} (names : Names) (h : Prolongs x y) :
    Prolongs (Run.inScope names x) (Run.inScope names y) := by
  intro s
  simp only [Run.inScope]
  rcases h { s with names, isLocal := true } with hx | hy
  · rw [hx]
    exact .inl rfl
  · rw [hy]
    exact .inr rfl

theorem deeper {x y : Run ν α} (h : Prolongs x y) : Prolongs (Run.deeper x) (Run.deeper y) := by
  intro s
  simp only [Run.deeper]
  rcases h { s with depth := s.depth + 1 } with hx | hy
  · rw [hx]
    exact .inl rfl
  · rw [hy]
    exact .inr rfl

theorem initialise {x y : Run ν Value} (name : String) (h : Prolongs x y) :
    Prolongs (Run.initialise name x) (Run.initialise name y) :=
  .bind (.refl _) fun _ => .bind (.refl _) fun names => .bind (.inScope names h) fun _ => .refl _

end Prolongs

/-- One more unit of fuel, whatever is run. -/
structure FuelledRuns (ν : Type) (n : Nat) : Prop where
  eval : ∀ e : Expr ν, Prolongs (Run.eval n e) (Run.eval (n + 1) e)
  evalAll : ∀ es : List (Expr ν), Prolongs (Run.evalAll n es) (Run.evalAll (n + 1) es)
  invoke : ∀ paren callee args,
    Prolongs (Run.invoke n paren callee args : Run ν Value) (Run.invoke (n + 1) paren callee args)
  apply : ∀ (f : Callable ν) args, Prolongs (Run.apply n f args) (Run.apply (n + 1) f args)
  applyFunction : ∀ (f : Function ν) args,
    Prolongs (Run.applyFunction n f args) (Run.applyFunction (n + 1) f args)
  exec : ∀ t : Stmt ν, Prolongs (Run.exec n t) (Run.exec (n + 1) t)
  execAll : ∀ ts : List (Stmt ν), Prolongs (Run.execAll n ts) (Run.execAll (n + 1) ts)

section
variable {n : Nat}

theorem eval_fuelled (ih : FuelledRuns ν n) (e : Expr ν) : Prolongs (eval (n + 1) e) (eval (n + 2) e) := by
  cases e with
  | assign k x e =>
    rw [eval, eval]
    exact .bind (ih.eval e) fun v => .refl _
  | binary l op r =>
    rw [eval, eval]
    exact .bind (ih.eval l) fun a => .bind (ih.eval r) fun b => .refl _
  | call f paren args =>
    rw [eval, eval]
    exact .bind (ih.eval f) fun v => .bind (ih.evalAll args) fun vs => ih.invoke paren v vs
  | get o x =>
    rw [eval, eval]
    exact .bind (ih.eval o) fun v => .refl _
  | grouping e =>
    rw [eval, eval]
    exact ih.eval e
  | literal v =>
    rw [eval, eval]
    exact .refl _
  | logical l op r =>
    rw [eval, eval]
    exact .bind (ih.eval l) fun a => .ite (.refl _) (ih.eval r)
  | set o x e =>
    rw [eval, eval]
    refine .bind (ih.eval o) fun v => ?_
    cases v with
    | objectRef i => exact .bind (ih.eval e) fun v => .refl _
    | _ => exact .refl _
  | superRef k kw x =>
    rw [eval, eval]
    exact .refl _
  | thisRef k kw =>
    rw [eval, eval]
    exact .refl _
  | unary op e =>
    rw [eval, eval]
    exact .bind (ih.eval e) fun a => .refl _
  | «variable» k x =>
    rw [eval, eval]
    exact .refl _

theorem evalAll_fuelled (ih : FuelledRuns ν n) (es : List (Expr ν)) :
    Prolongs (evalAll (n + 1) es) (evalAll (n + 2) es) := by
  cases es with
  | nil =>
    rw [evalAll, evalAll]
    exact .refl _
  | cons e es =>
    rw [evalAll, evalAll]
    exact .bind (ih.eval e) fun v => .bind (ih.evalAll es) fun vs => .refl _

theorem invoke_fuelled (ih : FuelledRuns ν n) (paren : Token) (callee : Value) (args : List Value) :
    Prolongs (invoke (n + 1) paren callee args : Run ν Value) (invoke (n + 2) paren callee args) := by
  rw [invoke, invoke]
  refine .bind (.refl _) fun found => ?_
  cases found with
  | none => exact .refl _
  | some f =>
    refine .ite (.refl _) (.bind (.refl _) fun depth => ?_)
    exact .ite (.refl _) (.deeper (ih.apply f args))

theorem apply_fuelled (ih : FuelledRuns ν n) (f : Callable ν) (args : List Value) :
    Prolongs (apply (n + 1) f args) (apply (n + 2) f args) := by
  cases f with
  | native f =>
    cases f
    rw [apply, apply]
    exact .refl _
  | function f =>
    rw [apply, apply]
    exact ih.applyFunction f args
  | constructor i initializer =>
    rw [apply, apply]
    refine .bind (.refl _) fun object => ?_
    cases initializer with
    | none => exact .refl _
    | some f => exact .bind (.refl _) fun bound => .bind (ih.applyFunction bound args) fun _ => .refl _

theorem applyFunction_fuelled (ih : FuelledRuns ν n) (f : Function ν) (args : List Value) :
    Prolongs (applyFunction (n + 1) f args) (applyFunction (n + 2) f args) := by
  rw [applyFunction, applyFunction]
  exact .bind (.refl _) fun names => .bind (.inScope names (ih.execAll f.decl.body)) fun flow => .refl _

theorem exec_fuelled (ih : FuelledRuns ν n) (t : Stmt ν) : Prolongs (exec (n + 1) t) (exec (n + 2) t) := by
  cases t with
  | block body =>
    rw [exec, exec]
    exact .bind (.refl _) fun names => .inScope names (ih.execAll body)
  | classDecl x parent methods =>
    cases parent with
    | none =>
      rw [exec, exec]
      exact .refl _
    | some e =>
      rw [exec, exec]
      exact .bind (ih.eval e) fun v => .refl _
  | expression e =>
    rw [exec, exec]
    exact .bind (ih.eval e) fun _ => .refl _
  | function f =>
    rw [exec, exec]
    exact .refl _
  | conditional c s t =>
    cases t with
    | none =>
      rw [exec, exec]
      exact .bind (ih.eval c) fun v => .ite (ih.exec s) (.refl _)
    | some t =>
      rw [exec, exec]
      exact .bind (ih.eval c) fun v => .ite (ih.exec s) (ih.exec t)
  | print kw e =>
    rw [exec, exec]
    exact .bind (ih.eval e) fun v => .refl _
  | returning kw e =>
    cases e with
    | none =>
      rw [exec, exec]
      exact .refl _
    | some e =>
      rw [exec, exec]
      exact .bind (ih.eval e) fun v => .refl _
  | varDecl x e =>
    cases e with
    | none =>
      rw [exec, exec]
      exact .refl _
    | some e =>
      rw [exec, exec]
      refine .bind (.refl _) fun isLocal => .ite (.bind (.initialise _ (ih.eval e)) fun _ => .refl _) ?_
      exact .bind (ih.eval e) fun v => .refl _
  | loop c s =>
    rw [exec, exec]
    refine .bind (ih.eval c) fun v => .ite (.bind (ih.exec s) fun flow => ?_) (.refl _)
    cases flow with
    | normal => exact ih.exec (.loop c s)
    | returned v => exact .refl _

theorem execAll_fuelled (ih : FuelledRuns ν n) (ts : List (Stmt ν)) :
    Prolongs (execAll (n + 1) ts) (execAll (n + 2) ts) := by
  cases ts with
  | nil =>
    rw [execAll, execAll]
    exact .refl _
  | cons t ts =>
    rw [execAll, execAll]
    refine .bind (ih.exec t) fun flow => ?_
    cases flow with
    | normal => exact ih.execAll ts
    | returned v => exact .refl _

end

theorem fuelledRuns (n : Nat) : FuelledRuns ν n := by
  induction n with
  | zero =>
    constructor <;> intros
    · rw [Run.eval]; exact .dry _
    · rw [Run.evalAll]; exact .dry _
    · rw [Run.invoke]; exact .dry _
    · rw [Run.apply]; exact .dry _
    · rw [Run.applyFunction]; exact .dry _
    · rw [Run.exec]; exact .dry _
    · rw [Run.execAll]; exact .dry _
  | succ n ih =>
    exact ⟨eval_fuelled ih, evalAll_fuelled ih, invoke_fuelled ih, apply_fuelled ih,
      applyFunction_fuelled ih, exec_fuelled ih, execAll_fuelled ih⟩

/-- What one more unit of fuel prolongs, any more fuel prolongs. -/
theorem prolongs_of_le {x : Nat → Run ν α} {n k : Nat} (hx : ∀ n, Prolongs (x n) (x (n + 1))) (h : n ≤ k) :
    Prolongs (x n) (x k) := by
  induction h with
  | refl => exact .refl _
  | step _ ih => exact ih.trans (hx _)

end Lox.Lexical.Run
