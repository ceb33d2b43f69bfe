import Lox.Proofs.Execution.Calls

/-!
# Fuel

More fuel never changes how a run ended (`fuelledRuns`): any two amounts of fuel that suffice give the
same result, for a statement (`exec_unique`) and for a program (`interpret_more`). What a step comes to with
enough fuel is told by `Settles`, and by `Stops` if that is an error.
-/

namespace Lox.Exec

/-- The second step ends as the first one does, unless the first one runs out of fuel. -/
def Prolongs (x y : Exec ν α) : Prop := ∀ m, x m = .outOfFuel ∨ y m = x m

namespace Prolongs

theorem refl (x : Exec ν α) : Prolongs x x := fun _ => .inr rfl

theorem dry (y : Exec ν α) : Prolongs outOfFuel y := fun _ => .inl rfl

theorem trans {x y z : Exec ν α} (h : Prolongs x y) (h' : Prolongs y z) : Prolongs x z := by
  intro m
  rcases h m with hx | hy
  · exact .inl hx
  · rw [← hy]
    exact h' m

theorem bind {x y : Exec ν α} {f g : α → Exec ν β} (h : Prolongs x y) (hf : ∀ a, Prolongs (f a) (g a)) :
    Prolongs (x >>= f) (y >>= g) := by
  intro m
  rw [bind_apply, bind_apply]
  rcases h m with hx | hy
  · rw [hx]
    exact .inl rfl
  · rw [hy]
    cases x m with
    | done a m' => exact hf a m'
    | failed e m' => exact .inr rfl
    | outOfFuel => exact .inl rfl

theorem ite {c : Prop} [Decidable c] {x x' y y' : Exec ν α} (h : Prolongs x y) (h' : Prolongs x' y') :
    Prolongs (if c then x else x') (if c then y else y') := by
  split
  · exact h
  · exact h'

theorem inFrame {x y : Exec ν α} (frame : FrameId) (h : Prolongs x y) :
    Prolongs (Exec.inFrame frame x) (Exec.inFrame frame y) := by
  intro m
  simp only [Exec.inFrame]
  rcases h { m with env := frame } with hx | hy
  · rw [hx]
    exact .inl rfl
  · rw [hy]
    exact .inr rfl

theorem deeper {x y : Exec ν α} (h : Prolongs x y) : Prolongs (Exec.deeper x) (Exec.deeper y) := by
  intro m
  simp only [Exec.deeper]
  rcases h { m with depth := m.depth + 1 } with hx | hy
  · rw [hx]
    exact .inl rfl
  · rw [hy]
    exact .inr rfl

end Prolongs

/-- One more unit of fuel, whatever is run. -/
structure FuelledRuns (d : Distances ν) (n : Nat) : Prop where
  eval : ∀ e, Prolongs (Exec.eval d n e) (Exec.eval d (n + 1) e)
  evalAll : ∀ es, Prolongs (Exec.evalAll d n es) (Exec.evalAll d (n + 1) es)
  invoke : ∀ paren callee args,
    Prolongs (Exec.invoke d n paren callee args) (Exec.invoke d (n + 1) paren callee args)
  apply : ∀ f args, Prolongs (Exec.apply d n f args) (Exec.apply d (n + 1) f args)
  applyFunction : ∀ f args, Prolongs (Exec.applyFunction d n f args) (Exec.applyFunction d (n + 1) f args)
  exec : ∀ t, Prolongs (Exec.exec d n t) (Exec.exec d (n + 1) t)
  execAll : ∀ ts, Prolongs (Exec.execAll d n ts) (Exec.execAll d (n + 1) ts)

section
variable {d : Distances ν} {n : Nat}

theorem eval_fuelled (ih : FuelledRuns d n) (e : Expr ν) :
    Prolongs (eval d (n + 1) e) (eval d (n + 2) e) := by
  cases e with
  | assign k x e =>
    rw [eval, eval]
    exact .bind (ih.eval e) fun v => .refl _
  | binary l op r =>
    rw [eval, eval]
    exact .bind (ih.eval l) fun a => .bind (ih.eval r) fun b => .refl _
  | call f paren args =>
    rw [eval, eval]
    exact .bind (ih.eval f) fun v => .bind (ih.evalAll args) fun vs => ih.invoke paren v vs
  | get o x =>
    rw [eval, eval]
    exact .bind (ih.eval o) fun v => .refl _
  | grouping e =>
    rw [eval, eval]
    exact ih.eval e
  | literal v =>
    rw [eval, eval]
    exact .refl _
  | logical l op r =>
    rw [eval, eval]
    exact .bind (ih.eval l) fun a => .ite (.refl _) (ih.eval r)
  | set o x e =>
    rw [eval, eval]
    refine .bind (ih.eval o) fun v => ?_
    cases v with
    | objectRef i => exact .bind (ih.eval e) fun v => .refl _
    | _ => exact .refl _
  | superRef k kw x =>
    rw [eval, eval]
    exact .refl _
  | thisRef k kw =>
    rw [eval, eval]
    exact .refl _
  | unary op e =>
    rw [eval, eval]
    exact .bind (ih.eval e) fun a => .refl _
  | «variable» k x =>
    rw [eval, eval]
    exact .refl _

theorem evalAll_fuelled (ih : FuelledRuns d n) (es : List (Expr ν)) :
    Prolongs (evalAll d (n + 1) es) (evalAll d (n + 2) es) := by
  cases es with
  | nil =>
    rw [evalAll, evalAll]
    exact .refl _
  | cons e es =>
    rw [evalAll, evalAll]
    exact .bind (ih.eval e) fun v => .bind (ih.evalAll es) fun vs => .refl _

theorem invoke_fuelled (ih : FuelledRuns d n) (paren : Token) (callee : Value) (args : List Value) :
    Prolongs (invoke d (n + 1) paren callee args) (invoke d (n + 2) paren callee args) := by
  rw [invoke, invoke]
  refine .bind (.refl _) fun found => ?_
  cases found with
  | none => exact .refl _
  | some f =>
    refine .ite (.refl _) (.bind (.refl _) fun depth => ?_)
    exact .ite (.refl _) (.deeper (ih.apply f args))

theorem apply_fuelled (ih : FuelledRuns d n) (f : Callable ν) (args : List Value) :
    Prolongs (apply d (n + 1) f args) (apply d (n + 2) f args) := by
  cases f with
  | native f =>
    cases f
    rw [apply, apply]
    exact .refl _
  | function f =>
    rw [apply, apply]
    exact ih.applyFunction f args
  | constructor i initializer =>
    rw [apply, apply]
    refine .bind (.refl _) fun object => ?_
    cases initializer with
    | none => exact .refl _
    | some f => exact .bind (.refl _) fun bound => .bind (ih.applyFunction bound args) fun _ => .refl _

theorem applyFunction_fuelled (ih : FuelledRuns d n) (f : Lox.Function ν) (args : List Value) :
    Prolongs (applyFunction d (n + 1) f args) (applyFunction d (n + 2) f args) := by
  rw [applyFunction, applyFunction]
  exact .bind (.refl _) fun frame => .bind (.inFrame frame (ih.execAll f.decl.body)) fun flow => .refl _

theorem exec_fuelled (ih : FuelledRuns d n) (t : Stmt ν) :
    Prolongs (exec d (n + 1) t) (exec d (n + 2) t) := by
  cases t with
  | block body =>
    rw [exec, exec]
    exact .bind (.refl _) fun env => .bind (.refl _) fun frame => .inFrame frame (ih.execAll body)
  | classDecl x parent methods =>
    cases parent with
    | none =>
      rw [exec, exec]
      exact .refl _
    | some e =>
      rw [exec, exec]
      exact .bind (ih.eval e) fun v => .refl _
  | expression e =>
    rw [exec, exec]
    exact .bind (ih.eval e) fun _ => .refl _
  | function f =>
    rw [exec, exec]
    exact .refl _
  | conditional c s t =>
    cases t with
    | none =>
      rw [exec, exec]
      exact .bind (ih.eval c) fun v => .ite (ih.exec s) (.refl _)
    | some t =>
      rw [exec, exec]
      exact .bind (ih.eval c) fun v => .ite (ih.exec s) (ih.exec t)
  | print kw e =>
    rw [exec, exec]
    exact .bind (ih.eval e) fun v => .refl _
  | returning kw e =>
    cases e with
    | none =>
      rw [exec, exec]
      exact .refl _
    | some e =>
      rw [exec, exec]
      exact .bind (ih.eval e) fun v => .refl _
  | varDecl x e =>
    cases e with
    | none =>
      rw [exec, exec]
      exact .refl _
    | some e =>
      rw [exec, exec]
      exact .bind (ih.eval e) fun v => .refl _
  | loop c s =>
    rw [exec, exec]
    refine .bind (ih.eval c) fun v => .ite (.bind (ih.exec s) fun flow => ?_) (.refl _)
    cases flow with
    | normal => exact ih.exec (.loop c s)
    | returned v => exact .refl _

theorem execAll_fuelled (ih : FuelledRuns d n) (ts : List (Stmt ν)) :
    Prolongs (execAll d (n + 1) ts) (execAll d (n + 2) ts) := by
  cases ts with
  | nil =>
    rw [execAll, execAll]
    exact .refl _
  | cons t ts =>
    rw [execAll, execAll]
    refine .bind (ih.exec t) fun flow => ?_
    cases flow with
    | normal => exact ih.execAll ts
    | returned v => exact .refl _

end

theorem fuelledRuns (d : Distances ν) (n : Nat) : FuelledRuns d n := by
  induction n with
  | zero =>
    constructor <;> intros
    · rw [Exec.eval]; exact .dry _
    · rw [Exec.evalAll]; exact .dry _
    · rw [Exec.invoke]; exact .dry _
    · rw [Exec.apply]; exact .dry _
    · rw [Exec.applyFunction]; exact .dry _
    · rw [Exec.exec]; exact .dry _
    · rw [Exec.execAll]; exact .dry _
  | succ n ih =>
    exact ⟨eval_fuelled ih, evalAll_fuelled ih, invoke_fuelled ih, apply_fuelled ih,
      applyFunction_fuelled ih, exec_fuelled ih, execAll_fuelled ih⟩

theorem prolongs_run (d : Distances ν) (T : Task ν) (n : Nat) : Prolongs (T.run d n) (T.run d (n + 1)) := by
  have h := fuelledRuns d n
  cases T with
  | eval e => exact h.eval e
  | evalAll es => exact h.evalAll es
  | invoke paren callee args => exact h.invoke paren callee args
  | apply f args => exact h.apply f args
  | applyFunction f args => exact h.applyFunction f args
  | exec t => exact h.exec t
  | execAll ts => exact h.execAll ts

/-! ## More fuel -/

section
variable {x : Nat → Exec ν α} {n k : Nat} {m : Machine ν}

/-- What one more unit of fuel does not change, no further fuel changes. -/
theorem eq_of_more (hx : ∀ n, Prolongs (x n) (x (n + 1))) (h : n ≤ k) (hn : x n m ≠ .outOfFuel) :
    x k m = x n m := by
  have hall : Prolongs (x n) (x k) := by
    induction h with
    | refl => exact .refl _
    | step _ ih => exact ih.trans (hx _)
  rcases hall m with hdry | hsame
  · exact absurd hdry hn
  · exact hsame

theorem eq_of_enough (hx : ∀ n, Prolongs (x n) (x (n + 1))) (hn : x n m ≠ .outOfFuel)
    (hk : x k m ≠ .outOfFuel) : x n m = x k m := by
  rcases Nat.le_total n k with h | h
  · exact (eq_of_more hx h hn).symm
  · exact eq_of_more hx h hk

end

namespace Yields

variable {d : Distances ν} {e : Expr ν} {es : List (Expr ν)} {t : Stmt ν} {v w : Value} {vs ws : List Value}
  {flow flow' : Flow} {m m₁ m₂ : Machine ν}

/-- With any fuel a step is done in the same way. -/
theorem unique {α : Type} {x : Nat → Exec ν α} {a b : α} (hx : ∀ n, Prolongs (x n) (x (n + 1)))
    (h : Yields x m a m₁) (h' : Yields x m b m₂) : a = b ∧ m₁ = m₂ := by
  obtain ⟨n, hn⟩ := h
  obtain ⟨k, hk⟩ := h'
  have hsame := eq_of_enough hx (n := n) (k := k) (m := m) (by simp [hn]) (by simp [hk])
  rw [hn, hk] at hsame
  cases hsame
  exact ⟨rfl, rfl⟩

theorem eval_unique (h : Yields (eval d · e) m v m₁) (h' : Yields (eval d · e) m w m₂) : v = w ∧ m₁ = m₂ :=
  unique (fun n => (fuelledRuns d n).eval e) h h'

theorem exec_unique (h : Yields (exec d · t) m flow m₁) (h' : Yields (exec d · t) m flow' m₂) :
    flow = flow' ∧ m₁ = m₂ :=
  unique (fun n => (fuelledRuns d n).exec t) h h'

end Yields

section
variable {d : Distances ν} {n k : Nat} {m : Machine ν}

/-- A statement has one result, whatever the fuel. -/
theorem exec_unique {t : Stmt ν} (hn : exec d n t m ≠ .outOfFuel) (hk : exec d k t m ≠ .outOfFuel) :
    exec d n t m = exec d k t m :=
  eq_of_enough (x := (exec d · t)) (fun n => (fuelledRuns d n).exec t) hn hk

variable {tree : List (Stmt ν)}

theorem interpret_fuelled (d : Distances ν) (n : Nat) (tree : List (Stmt ν)) :
    Prolongs (interpret d n tree) (interpret d (n + 1) tree) := by
  induction tree with
  | nil => exact .refl _
  | cons t ts ih => exact .bind ((fuelledRuns d n).exec t) fun _ => ih

/-- More fuel gives the same result. -/
theorem interpret_more (h : n ≤ k) (hn : interpret d n tree m ≠ .outOfFuel) :
    interpret d k tree m = interpret d n tree m :=
  eq_of_more (x := (interpret d · tree)) (fun n => interpret_fuelled d n tree) h hn

end

/-! ## Results with enough fuel -/

/-- From some amount of fuel on the step has this result. -/
def Settles (x : Nat → Exec ν α) (m : Machine ν) (r : Result ν α) : Prop := ∃ n, ∀ k, n ≤ k → x k m = r

namespace Settles

variable {x : Nat → Exec ν α} {f : Nat → α → Exec ν β} {m m₁ : Machine ν} {a : α} {r : Result ν α}
  {r' : Result ν β} {err : RuntimeError}

theorem of_more (hx : ∀ n, Prolongs (x n) (x (n + 1))) {n : Nat} (h : x n m = r) (hr : r ≠ .outOfFuel) :
    Settles x m r :=
  ⟨n, fun _ hk => (eq_of_more hx hk (h ▸ hr)).trans h⟩

theorem const {x : Exec ν α} (h : x m = r) : Settles (fun _ => x) m r := ⟨0, fun _ _ => h⟩

theorem succ (h : Settles (fun n => x (n + 1)) m r) : Settles x m r := by
  obtain ⟨n, hn⟩ := h
  refine ⟨n + 1, fun k hk => ?_⟩
  obtain ⟨k, rfl⟩ := Nat.exists_eq_add_of_le' (Nat.le_of_add_left_le hk)
  exact hn k (Nat.le_of_add_le_add_right hk)

theorem bind (h : Settles x m (.done a m₁)) (hf : Settles (f · a) m₁ r') :
    Settles (fun n => x n >>= f n) m r' := by
  obtain ⟨n, hn⟩ := h
  obtain ⟨j, hj⟩ := hf
  refine ⟨max n j, fun k hk => ?_⟩
  simp only [bind_apply, hn k (Nat.le_trans (Nat.le_max_left n j) hk)]
  exact hj k (Nat.le_trans (Nat.le_max_right n j) hk)

theorem bind_failed (h : Settles x m (.failed err m₁)) : Settles (fun n => x n >>= f n) m (.failed err m₁) := by
  obtain ⟨n, hn⟩ := h
  exact ⟨n, fun k hk => by simp only [bind_apply, hn k hk]⟩

theorem inFrame {frame : FrameId} (h : Settles x { m with env := frame } r) :
    Settles (fun n => Exec.inFrame frame (x n)) m (r.update ({ · with env := m.env })) := by
  obtain ⟨n, hn⟩ := h
  exact ⟨n, fun k hk => by simp only [inFrame_apply, hn k hk]⟩

theorem deeper (h : Settles x { m with depth := m.depth + 1 } r) :
    Settles (fun n => Exec.deeper (x n)) m (r.update fun m' => { m' with depth := m'.depth - 1 }) := by
  obtain ⟨n, hn⟩ := h
  exact ⟨n, fun k hk => by simp only [deeper_apply, hn k hk]⟩

/-- A result is reached. -/
theorem ends (h : Settles x m r) : ∃ n, x n m = r := by
  obtain ⟨n, hn⟩ := h
  exact ⟨n, hn n (Nat.le_refl n)⟩

end Settles

/-- With enough fuel the step fails with the error. -/
def Stops (x : Nat → Exec ν α) (m : Machine ν) (err : RuntimeError) : Prop := ∃ m', Settles x m (.failed err m')

namespace Stops

variable {x : Nat → Exec ν α} {f : Nat → α → Exec ν β} {m m₁ : Machine ν} {a : α} {err : RuntimeError}

theorem const {x : Exec ν α} (h : x m = .failed err m₁) : Stops (fun _ => x) m err := ⟨m₁, .const h⟩

theorem bind (h : Stops x m err) : Stops (fun n => x n >>= f n) m err := by
  obtain ⟨m', h⟩ := h
  exact ⟨m', h.bind_failed⟩

/-- A step that fails after its first part. -/
theorem after (hx : ∀ n, Prolongs (x n) (x (n + 1))) (hy : Yields x m a m₁) (h : Stops (f · a) m₁ err) :
    Stops (fun n => x n >>= f n) m err := by
  obtain ⟨n, hn⟩ := hy
  obtain ⟨m', h⟩ := h
  exact ⟨m', (Settles.of_more hx hn (by simp)).bind h⟩

theorem inFrame {frame : FrameId} (h : Stops x { m with env := frame } err) :
    Stops (fun n => Exec.inFrame frame (x n)) m err := by
  obtain ⟨m', h⟩ := h
  exact ⟨_, h.inFrame⟩

theorem deeper (h : Stops x { m with depth := m.depth + 1 } err) : Stops (fun n => Exec.deeper (x n)) m err := by
  obtain ⟨m', h⟩ := h
  exact ⟨_, h.deeper⟩

end Stops

end Lox.Exec
