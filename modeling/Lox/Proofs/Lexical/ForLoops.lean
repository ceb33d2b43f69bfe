import Lox.Proofs.Lexical.Blocks
import Lox.Proofs.Lexical.Fuel

/-!
# For loops

A `for` loop executed as such: one scope around the whole loop if there is an initializer, which is executed
once in it; then before each iteration the condition, the body and, if the body did not return, the
increment, all in that scope. The statement that stands for the loop in the tree, a `while` loop in blocks,
does the same (`exec_forLoop`, `forLoop_exec`): the block that the body shares with the increment is in place
(`InPlace.inScope`).
-/

namespace Lox

/-- The body of the `while` loop that stands for a `for` loop. -/
def Stmt.withIncrement (increment : Option (Expr ν)) (body : Stmt ν) : Stmt ν :=
  match increment with
  | some e => .block [body, .expression e]
  | none => body

/-- The condition of the `while` loop. -/
def Expr.orTrue (condition : Option (Expr ν)) : Expr ν := condition.getD (.literal (.bool true))

theorem Stmt.forLoop_eq (i : Option (Stmt ν)) (c u : Option (Expr ν)) (body : Stmt ν) :
    Stmt.forLoop i c u body = match i with
      | none => .loop (Expr.orTrue c) (body.withIncrement u)
      | some first => .block [first, .loop (Expr.orTrue c) (body.withIncrement u)] := by
  cases i <;> cases u <;> rfl

namespace Lexical.Run

/-! ## The loop as such -/

/-- The second step after the first one, unless the first one returns. -/
def andThen (x y : Run ν Flow) : Run ν Flow := do
  match ← x with
  | .normal => y
  | .returned value => return .returned value

/-- Whether the loop goes on; an absent condition is true. -/
def goesOn (n : Nat) : Option (Expr ν) → Run ν Bool
  | none => pure true
  | some condition => do return (← eval n condition).truthy

/-- The increment, if there is one. -/
def increments (n : Nat) : Option (Expr ν) → Run ν Flow
  | none => return .normal
  | some increment => do
    let _ ← eval n increment
    return .normal

/-- Iteration after iteration, until the condition fails or the body returns. -/
def iterate : Nat → Option (Expr ν) → Option (Expr ν) → Stmt ν → Run ν Flow
  | 0, _, _, _ => outOfFuel
  | n + 1, condition, increment, body => do
    if ← goesOn n condition then
      andThen (andThen (exec n body) (increments n increment)) (iterate n condition increment body)
    else return .normal

/-- A `for` loop. -/
def forLoop (n : Nat) (initializer : Option (Stmt ν)) (condition increment : Option (Expr ν)) (body : Stmt ν) :
    Run ν Flow :=
  match initializer with
  | none => iterate n condition increment body
  | some first => do
    inScope (← read (·.names)) (andThen (exec n first) (iterate n condition increment body))

/-! ## Sequences -/

section
variable {n k : Nat}

theorem eval_of_le (h : n ≤ k) (e : Expr ν) : Prolongs (eval n e) (eval k e) :=
  prolongs_of_le (x := (eval · e)) (fun n => (fuelledRuns n).eval e) h

theorem exec_of_le (h : n ≤ k) (t : Stmt ν) : Prolongs (exec n t) (exec k t) :=
  prolongs_of_le (x := (exec · t)) (fun n => (fuelledRuns n).exec t) h

theorem Prolongs.andThen {x x' y y' : Run ν Flow} (h : Prolongs x x') (h' : Prolongs y y') :
    Prolongs (Run.andThen x y) (Run.andThen x' y') := by
  refine .bind h fun flow => ?_
  cases flow with
  | normal => exact h'
  | returned v => exact .refl _

theorem andThen_normal (x : Run ν Flow) : andThen x (pure .normal) = x := by
  funext s
  simp only [andThen, bind_apply]
  cases x s with
  | done flow s' => cases flow <;> rfl
  | failed e s' => rfl
  | outOfFuel => rfl

theorem execAll_cons (n : Nat) (t : Stmt ν) (ts : List (Stmt ν)) :
    execAll (n + 1) (t :: ts) = andThen (exec n t) (execAll n ts) := by
  rw [execAll]
  rfl

theorem execAll_single (n : Nat) (t : Stmt ν) : Prolongs (execAll n [t]) (exec n t) := by
  cases n with
  | zero =>
    rw [execAll]
    exact .dry _
  | succ n =>
    have hnil : Prolongs (execAll n ([] : List (Stmt ν))) (pure .normal) := by
      cases n with
      | zero => rw [execAll]; exact .dry _
      | succ n => rw [execAll]; exact .refl _
    have hrest := Prolongs.andThen (exec_of_le (Nat.le_succ n) t) hnil
    rwa [andThen_normal, ← execAll_cons] at hrest

theorem execAll_pair (n : Nat) (t u : Stmt ν) : Prolongs (execAll n [t, u]) (andThen (exec n t) (exec n u)) := by
  cases n with
  | zero => rw [execAll]; exact .dry _
  | succ n =>
    rw [execAll_cons]
    exact .andThen (exec_of_le (Nat.le_succ n) t) ((execAll_single n u).trans (exec_of_le (Nat.le_succ n) u))

theorem pair_execAll (n : Nat) (t u : Stmt ν) :
    Prolongs (andThen (exec n t) (exec n u)) (execAll (n + 3) [t, u]) := by
  rw [execAll_cons, execAll_cons, execAll, andThen_normal]
  exact .andThen (exec_of_le (by omega) t) (exec_of_le (by omega) u)

/-! ## The statement that stands for the loop -/

theorem exec_expression (n : Nat) (e : Expr ν) : exec (n + 1) (.expression e) = increments n (some e) := by
  rw [exec]
  rfl

/-- The test and the round of a `while` loop. -/
theorem exec_loop (n : Nat) (c : Expr ν) (t : Stmt ν) :
    exec (n + 1) (.loop c t) = do
      if ← goesOn n (some c) then andThen (exec n t) (exec n (.loop c t)) else return .normal := by
  rw [exec]
  funext s
  simp only [goesOn, bind_apply]
  cases eval n c s <;> rfl

theorem goesOn_orTrue (n : Nat) (c : Option (Expr ν)) : Prolongs (goesOn n (some (Expr.orTrue c))) (goesOn n c) := by
  cases c with
  | some c => exact .refl _
  | none =>
    cases n with
    | zero => exact .dry _
    | succ n => exact .refl _

theorem orTrue_goesOn (h : n < k) (c : Option (Expr ν)) :
    Prolongs (goesOn n c) (goesOn k (some (Expr.orTrue c))) := by
  cases c with
  | some c => exact .bind (eval_of_le (Nat.le_of_lt h) c) fun _ => .refl _
  | none =>
    obtain ⟨k, rfl⟩ := Nat.exists_eq_add_of_lt h
    exact .refl _

variable {c u : Option (Expr ν)} {body : Stmt ν}

/-- The block that the body shares with the increment is in place. -/
theorem exec_withIncrement {e : Expr ν} (hf : (body.withIncrement (some e)).Formed)
    (hd : body.declares? = none) (n : Nat) :
    exec (n + 1) (body.withIncrement (some e)) = execAll n [body, .expression e] := by
  rw [Stmt.withIncrement, exec]
  refine InPlace.inScope (execAll_inPlace n fun t ht => ?_)
  rcases List.mem_cons.1 ht with rfl | ht
  · exact ⟨hf.1, hd⟩
  · obtain rfl := List.mem_singleton.1 ht
    exact ⟨hf.2.1, rfl⟩

theorem body_once (hf : (body.withIncrement u).Formed) (hd : body.declares? = none) (n : Nat) :
    Prolongs (exec n (body.withIncrement u)) (andThen (exec n body) (increments n u)) := by
  cases u with
  | none =>
    rw [increments, andThen_normal]
    exact .refl _
  | some e =>
    cases n with
    | zero =>
      rw [exec]
      exact .dry _
    | succ n =>
      rw [exec_withIncrement hf hd, ← exec_expression]
      exact (execAll_pair n _ _).trans (.andThen (exec_of_le (by omega) _) (exec_of_le (by omega) _))

theorem once_body (hf : (body.withIncrement u).Formed) (hd : body.declares? = none) (n : Nat) :
    Prolongs (andThen (exec n body) (increments n u)) (exec (n + 5) (body.withIncrement u)) := by
  cases u with
  | none =>
    rw [increments, andThen_normal]
    exact exec_of_le (by omega) body
  | some e =>
    rw [exec_withIncrement hf hd, ← exec_expression]
    exact .trans (.andThen (exec_of_le (Nat.le_succ n) _) (.refl _)) (pair_execAll (n + 1) _ _)

theorem loop_iterate (hf : (body.withIncrement u).Formed) (hd : body.declares? = none) (n : Nat) :
    Prolongs (exec n (.loop (Expr.orTrue c) (body.withIncrement u))) (iterate n c u body) := by
  induction n with
  | zero =>
    rw [exec]
    exact .dry _
  | succ n ih =>
    rw [exec_loop, iterate]
    exact .bind (goesOn_orTrue n c) fun _ => .ite (.andThen (body_once hf hd n) ih) (.refl _)

theorem iterate_loop (hf : (body.withIncrement u).Formed) (hd : body.declares? = none) (n : Nat) :
    Prolongs (iterate n c u body) (exec (n + 5) (.loop (Expr.orTrue c) (body.withIncrement u))) := by
  induction n with
  | zero => exact .dry _
  | succ n ih =>
    rw [exec_loop, iterate]
    exact .bind (orTrue_goesOn (by omega) c) fun _ => .ite (.andThen (once_body hf hd n) ih) (.refl _)

variable {i : Option (Stmt ν)}

/-- What ends for the statement in the tree ends the same way for the loop. -/
theorem exec_forLoop (hf : (body.withIncrement u).Formed) (hd : body.declares? = none) (n : Nat) :
    Prolongs (exec n (.forLoop i c u body)) (forLoop n i c u body) := by
  rw [Stmt.forLoop_eq]
  cases i with
  | none => exact loop_iterate hf hd n
  | some first =>
    cases n with
    | zero =>
      rw [exec]
      exact .dry _
    | succ n =>
      rw [exec]
      refine .bind (.refl _) fun names => .inScope names ((execAll_pair n _ _).trans ?_)
      exact .andThen (exec_of_le (Nat.le_succ n) first) ((exec_of_le (Nat.le_succ n) _).trans (loop_iterate hf hd _))

/-- And what ends for the loop ends the same way for the statement in the tree. -/
theorem forLoop_exec (hf : (body.withIncrement u).Formed) (hd : body.declares? = none) (n : Nat) :
    Prolongs (forLoop n i c u body) (exec (n + 9) (.forLoop i c u body)) := by
  rw [Stmt.forLoop_eq]
  cases i with
  | none => exact (iterate_loop hf hd n).trans (exec_of_le (by omega) _)
  | some first =>
    rw [exec]
    refine .bind (.refl _) fun names => .inScope names (.trans ?_ (pair_execAll (n + 5) _ _))
    exact .andThen (exec_of_le (by omega) first) (iterate_loop hf hd n)

end

end Lexical.Run

end Lox
