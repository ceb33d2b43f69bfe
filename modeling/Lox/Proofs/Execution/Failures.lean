import Lox.Proofs.Execution.Endings
import Lox.Proofs.Execution.Faults

/-!
# Where a run fails

A moment fails exactly if one in its course raises the error: whatever is raised stops the task at once, and
with it all tasks around, since nothing catches an error (`fails_iff`). So it overflows exactly if, somewhere
in its course, one call too many would be open: `overflows_iff`.
-/

namespace Lox

section
variable {d : Distances ν} {b : Branch} {M : Moment ν} {m : Machine ν} {err : RuntimeError}

/-- A step in another frame. -/
theorem Exec.Yields.inFrame {x : Nat → Exec ν α} {a : α} {m₁ : Machine ν} {frame : FrameId}
    (h : Yields x { m with env := frame } a m₁) :
    Yields (fun n => Exec.inFrame frame (x n)) m a { m₁ with env := m.env } := by
  obtain ⟨n, hn⟩ := h
  exact ⟨n, by simp only [Exec.inFrame, hn]⟩

namespace Exec.Stops

variable {f : Nat → α → Exec ν β} {a : α} {m₁ : Machine ν}

/-- A step that fails after a part that needs no fuel. -/
theorem afterDone {x : Exec ν α} (hx : x m = .done a m₁) (h : Stops (f · a) m₁ err) :
    Stops (fun n => x >>= f n) m err :=
  .after (fun _ => .refl x) ⟨0, hx⟩ h

theorem afterEval {f : Nat → Value → Exec ν β} {e : Expr ν} {v : Value} (hy : Yields (Exec.eval d · e) m v m₁)
    (h : Stops (f · v) m₁ err) : Stops (fun n => Exec.eval d n e >>= f n) m err :=
  .after (fun n => (fuelledRuns d n).eval e) hy h

end Exec.Stops

/-! ## Errors that are raised -/

namespace Exec

theorem stops_of_eval {e : Expr ν} (h : Raises d b err (.eval e, m)) :
    Stops (fun n => eval d (n + 1) e) m err := by
  cases h with
  | name he | this he | superProperty he | superFault he =>
    simp only [eval]
    exact .const he
  | write hy he =>
    simp only [eval]
    exact .afterEval hy (.bind (.const he))
  | operands hl hr hc | binaryOperator hl hr hc =>
    simp only [eval]
    exact .afterEval hl (.afterEval hr (.const (liftAt_eq_failed.2 ⟨_, hc, rfl, rfl⟩)))
  | operand hy hc | unaryOperator hy hc =>
    simp only [eval]
    exact .afterEval hy (.const (liftAt_eq_failed.2 ⟨_, hc, rfl, rfl⟩))
  | property hy he =>
    simp only [eval]
    exact .afterEval hy (.const he)
  | @noProperties _ _ v _ _ hy hv | @noFields _ _ v _ _ _ hy hv =>
    simp only [eval]
    refine .afterEval hy ?_
    cases v with
    | objectRef i => exact absurd rfl (hv i)
    | _ => exact .const rfl

theorem stops_of_invoke {paren : Token} {callee : Value} {args : List Value}
    (h : Raises d b err (.invoke paren callee args, m)) :
    Stops (fun n => invoke d (n + 1) paren callee args) m err := by
  cases h with
  | notCallable hf =>
    simp only [invoke]
    refine .afterDone rfl ?_
    simp only [hf]
    exact .const rfl
  | wrongArity hf hargs =>
    simp only [invoke]
    refine .afterDone rfl ?_
    simp only [hf, ne_eq, hargs, not_false_eq_true, if_true]
    exact .const rfl
  | stackOverflow hf hargs hdepth =>
    simp only [invoke]
    refine .afterDone rfl ?_
    simp only [hf, ne_eq, hargs, not_true_eq_false, if_false]
    refine .afterDone rfl ?_
    simp only [if_pos hdepth]
    exact .const rfl

theorem stops_of_applyFunction {f : Lox.Function ν} {args : List Value}
    (h : Raises d b err (.applyFunction f args, m)) :
    Stops (fun n => applyFunction d (n + 1) f args) m err := by
  cases h with
  | receiver hi hy hg =>
    simp only [applyFunction]
    refine .afterDone rfl (.after (fun n => .inFrame _ ((fuelledRuns d n).execAll _)) (.inFrame hy) ?_)
    simp only [if_pos hi]
    exact .afterDone rfl (.const (liftAt_eq_failed.2 ⟨_, hg, rfl, rfl⟩))

theorem stops_of_exec {t : Stmt ν} (h : Raises d b err (.exec t, m)) :
    Stops (fun n => exec d (n + 1) t) m err := by
  cases h with
  | @superclass _ _ v _ _ _ hy hv =>
    simp only [exec]
    refine .afterEval hy ?_
    cases v with
    | classRef p => exact absurd rfl (hv p)
    | _ => exact .bind (.const rfl)
  | declared he =>
    simp only [exec]
    exact .afterDone rfl (.bind (.const he))
  | derived hy he =>
    simp only [exec]
    exact .afterEval hy (.afterDone rfl (.bind (.const he)))
  | print hy he =>
    simp only [exec]
    exact .afterEval hy (.afterDone rfl (.bind (.const he)))

end Exec

/-- A moment that raises an error fails with it. -/
theorem Raises.fails (h : Raises d b err M) : M.Fails d err := by
  obtain ⟨T, m⟩ := M
  cases T with
  | eval e => exact .of_stops (Exec.stops_of_eval h)
  | invoke paren callee args => exact .of_stops (Exec.stops_of_invoke h)
  | applyFunction f args => exact .of_stops (Exec.stops_of_applyFunction h)
  | exec t => exact .of_stops (Exec.stops_of_exec h)
  | evalAll es => cases h
  | apply f args => cases h
  | execAll ts => cases h

/-! ## Failing -/

/-- A moment fails exactly with the errors that are raised in its course. -/
theorem fails_iff : M.Fails d err ↔ ∃ b M', Visits d M M' ∧ Raises d b err M' := by
  constructor
  · rintro ⟨n, m', h⟩
    exact (Exec.traced_law d).run M n err m' h
  · rintro ⟨b, M', hv, hr⟩
    exact hv.fails hr.fails

theorem fails_iff_nested : M.Fails d err ↔ ∃ k b M', Nested d M k M' ∧ Raises d b err M' := by
  simp only [fails_iff, visits_iff_nested]
  constructor
  · rintro ⟨b, M', ⟨k, hk⟩, hr⟩
    exact ⟨k, b, M', hk, hr⟩
  · rintro ⟨k, b, M', hk, hr⟩
    exact ⟨b, M', ⟨k, hk⟩, hr⟩

/-- A moment overflows exactly if it comes to a call that could be applied but for its depth: with the
activations that are open there the limit is reached. -/
theorem overflows_iff (hM : M.2.depth ≤ maxCallDepth) (paren : Token) :
    M.Fails d ⟨paren, .stackOverflow⟩ ↔ ∃ k callee args m f, Nested d M k (.invoke paren callee args, m) ∧
      Callable.of? m.store callee = some f ∧ args.length = f.arity ∧ M.2.depth + k = maxCallDepth := by
  rw [fails_iff]
  constructor
  · rintro ⟨b, M', hv, hr⟩
    obtain ⟨callee, args, m, f, rfl, hf, hargs, hfull⟩ := Exec.invokes_of_overflow hr
    obtain ⟨k, hk⟩ := visits_iff_nested.1 hv
    obtain ⟨hdepth, hlimit⟩ := hk.depth hM
    exact ⟨k, callee, args, m, f, hk, hf, hargs, hdepth.symm.trans (Nat.le_antisymm hlimit hfull)⟩
  · rintro ⟨k, callee, args, m, f, hk, hf, hargs, hfull⟩
    obtain ⟨hdepth, _⟩ := hk.depth hM
    exact ⟨_, _, visits_iff_nested.2 ⟨k, hk⟩, .stackOverflow hf hargs (Nat.le_of_eq (hdepth.trans hfull).symm)⟩

end

end Lox
