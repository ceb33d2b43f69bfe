import Lox.Proofs.Execution.Activations
import Lox.Proofs.Execution.Fuel

/-!
# How moments end

What a moment starts is a part of its own task, with nothing around it that would catch an error
(`Calls.inside`). So a moment ends only after everything in its course has ended, and what a part has left
behind is then only changed by the code that comes after it: `Visits.ends`, and `Starts.ends` for the
statements of a program. And a moment fails when one in its course does: `Visits.fails`.
-/

namespace Lox

/-- The task of the moment ends, well or with an error, and leaves the machine behind. -/
def Moment.Ends (d : Distances ν) (M : Moment ν) (m' : Machine ν) : Prop := ∃ n, M.1.leaves d n M.2 = some m'

/-- The task of the moment ends with the error. -/
def Moment.Fails (d : Distances ν) (M : Moment ν) (err : RuntimeError) : Prop :=
  ∃ n m', M.1.run d n M.2 = .failed err m'

/-- The moment ends and leaves behind a store that the code changes into the given one. -/
def Moment.EndsBefore (C : Code ν) (d : Distances ν) (M : Moment ν) (s : Store ν) : Prop :=
  ∃ m, M.Ends d m ∧ Changes C m.store s

section
variable {C : Code ν} {d : Distances ν} {M A : Moment ν} {m m' : Machine ν} {s s' : Store ν}

/-- With one more unit of fuel than a step needs that fails, the task fails. -/
theorem Moment.Fails.of_stops {err : RuntimeError} (h : Exec.Stops (fun n => M.1.run d (n + 1)) M.2 err) :
    M.Fails d err := by
  obtain ⟨m', n, hn⟩ := h
  exact ⟨n + 1, m', hn n (Nat.le_refl n)⟩

theorem Moment.EndsBefore.later (h : M.EndsBefore C d s) (hc : Changes C s s') : M.EndsBefore C d s' := by
  obtain ⟨m, hm, hs⟩ := h
  exact ⟨m, hm, hs.trans hc⟩

namespace Exec.Yields

variable {e : Expr ν} {es : List (Expr ν)} {t : Stmt ν} {v : Value} {vs : List Value} {flow : Flow}
  {m₁ : Machine ν}

theorem eval_ends (h : Yields (eval d · e) m v m₁) : Moment.EndsBefore C d (.eval e, m) m₁.store := by
  obtain ⟨n, hn⟩ := h
  exact ⟨m₁, ⟨n, congrArg Result.machine? hn⟩, .refl⟩

end Exec.Yields

/-! ## Steps that have a moment in their course -/

namespace Exec

/-- After its first part a step does the rest. -/
theorem Yields.rest {x : Nat → Exec ν α} {f : α → Exec ν β} (hx : ∀ n, Prolongs (x n) (x (n + 1)))
    {a : α} {m₁ : Machine ν} (h : Yields x m a m₁) {n : Nat} (hm : ((x n >>= f) m).machine? = some m') :
    (f a m₁).machine? = some m' := by
  obtain ⟨k, hk⟩ := h
  rw [bind_apply] at hm
  cases hr : x n m with
  | outOfFuel =>
    rw [hr] at hm
    cases hm
  | _ =>
    have hsame := eq_of_enough (n := n) (k := k) hx (m := m) (by simp [hr]) (by simp [hk])
    rw [hsame, hk] at hm
    exact hm

/-- The step does the task of the moment, after parts that are known to have been done and before others.
All parts are of the code. -/
inductive Inside (C : Code ν) (d : Distances ν) (A : Moment ν) :
    {α : Type} → (Nat → Exec ν α) → Machine ν → Prop
  | here : Inside C d A (A.1.run d ·) A.2
  | before {α β : Type} {x : Nat → Exec ν α} {f : Nat → α → Exec ν β} {m : Machine ν} :
      Inside C d A x m → (∀ n, Keeps C (x n) m) → (∀ n a m', Keeps C (f n a) m') →
      Inside C d A (fun n => x n >>= f n) m
  | after {α β : Type} {x : Nat → Exec ν α} {f : Nat → α → Exec ν β} {a : α} {m m₁ : Machine ν} :
      (∀ n, Prolongs (x n) (x (n + 1))) → (∀ n, Keeps C (x n) m) → Yields x m a m₁ →
      Inside C d A (f · a) m₁ → Inside C d A (fun n => x n >>= f n) m
  | inFrame {α : Type} {x : Nat → Exec ν α} {m : Machine ν} {frame : FrameId} :
      Inside C d A x { m with env := frame } → Inside C d A (fun n => Exec.inFrame frame (x n)) m
  | deeper {α : Type} {x : Nat → Exec ν α} {m : Machine ν} :
      Inside C d A x { m with depth := m.depth + 1 } → Inside C d A (fun n => Exec.deeper (x n)) m

namespace Inside

variable {x : Nat → Exec ν α} {f : Nat → α → Exec ν β}

/-- When the step ends, the moment has ended before. -/
theorem ends (h : Inside C d A x m) (hs : m.store.Holds C) {n : Nat} (hm : (x n m).machine? = some m') :
    A.EndsBefore C d m'.store := by
  induction h generalizing m' with
  | here => exact ⟨m', ⟨n, A.1.leaves_eq.trans hm⟩, .refl⟩
  | before _ hx hf ih =>
    rcases machine?_bind hm with hm | ⟨a, m₁, hr, hm⟩
    · exact ih hs hm
    · have hrest := hf n a m₁ (((hx n).done hs hr).store.holds hs) m' hm
      exact (ih hs (congrArg Result.machine? hr)).later hrest.store
  | after hx hk hy _ ih =>
    obtain ⟨k, hdone⟩ := hy
    exact ih (((hk k).done hs hdone).store.holds hs) (Yields.rest hx ⟨k, hdone⟩ hm)
  | inFrame _ ih =>
    obtain ⟨m₁, h₁, rfl⟩ := machine?_inFrame hm
    have hends : A.EndsBefore C d m₁.store := ih hs h₁
    exact hends
  | deeper _ ih =>
    obtain ⟨m₁, h₁, rfl⟩ := machine?_deeper hm
    have hends : A.EndsBefore C d m₁.store := ih hs h₁
    exact hends

/-- No step catches an error: when the moment fails, the step does. -/
theorem stops (h : Inside C d A x m) {err : RuntimeError} (hA : A.Fails d err) : Stops x m err := by
  induction h with
  | here =>
    obtain ⟨n, m', hn⟩ := hA
    exact ⟨m', .of_more (prolongs_run d A.1) hn (by simp)⟩
  | before _ _ _ ih => exact ih.bind
  | after hx _ hy _ ih => exact .after hx hy ih
  | inFrame _ ih => exact ih.inFrame
  | deeper _ ih => exact ih.deeper

/-- The moment comes after a look at the machine. -/
theorem read {g : Machine ν → α} (h : Inside C d A (f · (g m)) m) :
    Inside C d A (fun n => Exec.read g >>= f n) m :=
  .after (fun _ => .refl _) (fun _ => .read g) ⟨0, rfl⟩ h

/-- The moment comes after a change of the store. -/
theorem updated {g : Store ν → α × Store ν} (hc : Change C m.store (g m.store).2)
    (h : Inside C d A (f · (g m.store).1) { m with store := (g m.store).2 }) :
    Inside C d A (fun n => Exec.updateStore g >>= f n) m :=
  .after (fun _ => .refl _) (fun _ => .updateStore g hc) ⟨0, rfl⟩ h

section
variable {v : Value} {m₁ : Machine ν}

/-- The moment is the first part of the step, an expression. -/
theorem eval {e : Expr ν} {f : Nat → Value → Exec ν β} (he : C.expr e) (hf : ∀ n v m', Keeps C (f n v) m') :
    Inside C d (.eval e, m) (fun n => Exec.eval d n e >>= f n) m :=
  .before .here (fun n => (keptRuns C d n).eval e m he) hf

theorem evalAll {es : List (Expr ν)} {f : Nat → List Value → Exec ν β} (hes : ∀ e ∈ es, C.expr e)
    (hf : ∀ n vs m', Keeps C (f n vs) m') :
    Inside C d (.evalAll es, m) (fun n => Exec.evalAll d n es >>= f n) m :=
  .before .here (fun n => (keptRuns C d n).evalAll es m hes) hf

theorem exec {t : Stmt ν} {f : Nat → Flow → Exec ν β} (ht : C.stmt t) (hf : ∀ n flow m', Keeps C (f n flow) m') :
    Inside C d (.exec t, m) (fun n => Exec.exec d n t >>= f n) m :=
  .before .here (fun n => (keptRuns C d n).exec t m ht) hf

theorem afterEval {e : Expr ν} {f : Nat → Value → Exec ν β} (hy : Yields (Exec.eval d · e) m v m₁)
    (he : C.expr e) (h : Inside C d A (f · v) m₁) : Inside C d A (fun n => Exec.eval d n e >>= f n) m :=
  .after (fun n => (fuelledRuns d n).eval e) (fun n => (keptRuns C d n).eval e m he) hy h

theorem afterEvalAll {es : List (Expr ν)} {vs : List Value} {f : Nat → List Value → Exec ν β}
    (hy : Yields (Exec.evalAll d · es) m vs m₁) (hes : ∀ e ∈ es, C.expr e) (h : Inside C d A (f · vs) m₁) :
    Inside C d A (fun n => Exec.evalAll d n es >>= f n) m :=
  .after (fun n => (fuelledRuns d n).evalAll es) (fun n => (keptRuns C d n).evalAll es m hes) hy h

theorem afterExec {t : Stmt ν} {flow : Flow} {f : Nat → Flow → Exec ν β} (hy : Yields (Exec.exec d · t) m flow m₁)
    (ht : C.stmt t) (h : Inside C d A (f · flow) m₁) : Inside C d A (fun n => Exec.exec d n t >>= f n) m :=
  .after (fun n => (fuelledRuns d n).exec t) (fun n => (keptRuns C d n).exec t m ht) hy h

end

end Inside

/-! ## Parts of a task -/

theorem inside_of_eval {e : Expr ν} (h : Calls d (.eval e, m) A) (he : C.expr e) :
    Inside C d A (fun n => eval d (n + 1) e) m := by
  have hk := keptRuns C d
  cases h with
  | assignValue =>
    obtain ⟨hx, he⟩ := C.assign he
    simp only [eval]
    exact .eval he fun _ v _ => .bind (keeps_assignName _ v hx) fun _ _ _ => .pure v
  | binaryLeft =>
    obtain ⟨hl, hr⟩ := C.binary he
    simp only [eval]
    exact .eval hl fun n _ m₁ => .bind ((hk n).eval _ m₁ hr) fun _ _ _ => .liftAt _ _
  | binaryRight hy =>
    obtain ⟨hl, hr⟩ := C.binary he
    simp only [eval]
    exact .afterEval hy hl (.eval hr fun _ _ _ => .liftAt _ _)
  | callee =>
    obtain ⟨hf, hargs⟩ := C.call he
    simp only [eval]
    exact .eval hf fun n v m₁ => .bind ((hk n).evalAll _ m₁ hargs) fun vs m₂ _ => (hk n).invoke _ v vs m₂
  | arguments hy =>
    obtain ⟨hf, hargs⟩ := C.call he
    simp only [eval]
    exact .afterEval hy hf (.evalAll hargs fun n vs m₂ => (hk n).invoke _ _ vs m₂)
  | invoke hy hy' =>
    obtain ⟨hf, hargs⟩ := C.call he
    simp only [eval]
    exact .afterEval hy hf (.afterEvalAll hy' hargs .here)
  | getObject =>
    simp only [eval]
    refine .eval (C.get he) fun _ v _ => ?_
    cases v with
    | objectRef i => exact keeps_getProperty i _
    | _ => exact .throwAt _ _
  | grouping =>
    simp only [eval]
    exact .here
  | logicalLeft =>
    obtain ⟨hl, hr⟩ := C.logical he
    simp only [eval]
    refine .eval hl fun n a m₁ => ?_
    split
    · exact .pure a
    · exact (hk n).eval _ m₁ hr
  | logicalRight hy hne =>
    obtain ⟨hl, hr⟩ := C.logical he
    simp only [eval]
    refine .afterEval hy hl ?_
    simp only [if_neg hne]
    exact .here
  | setObject =>
    obtain ⟨ho, hv⟩ := C.set he
    simp only [eval]
    refine .eval ho fun n v m₁ => ?_
    cases v with
    | objectRef i =>
      exact .bind ((hk n).eval _ m₁ hv) fun v _ _ => .bind (.updateStore _ (.field i _ v)) fun _ _ _ => .pure v
    | _ => exact .throwAt _ _
  | setValue hy =>
    obtain ⟨ho, hv⟩ := C.set he
    simp only [eval]
    exact .afterEval hy ho (.eval hv fun _ v _ => .bind (.updateStore _ (.field _ _ v)) fun _ _ _ => .pure v)
  | operand =>
    simp only [eval]
    exact .eval (C.unary he) fun _ _ _ => .liftAt _ _

theorem inside_of_evalAll {es : List (Expr ν)} (h : Calls d (.evalAll es, m) A) (hes : ∀ e ∈ es, C.expr e) :
    Inside C d A (fun n => evalAll d (n + 1) es) m := by
  have he : ∀ {e es'}, es = e :: es' → C.expr e ∧ ∀ e ∈ es', C.expr e := by
    rintro e es' rfl
    exact ⟨hes e List.mem_cons_self, fun e he => hes e (List.mem_cons_of_mem _ he)⟩
  cases h with
  | first =>
    simp only [evalAll]
    exact .eval (he rfl).1 fun n v m₁ => .bind ((keptRuns C d n).evalAll _ m₁ (he rfl).2) fun _ _ _ => .pure _
  | others hy =>
    simp only [evalAll]
    exact .afterEval hy (he rfl).1 (.evalAll (he rfl).2 fun _ _ _ => .pure _)

theorem inside_of_invoke {paren : Token} {callee : Value} {args : List Value}
    (h : Calls d (.invoke paren callee args, m) A) :
    Inside C d A (fun n => invoke d (n + 1) paren callee args) m := by
  cases h with
  | apply hf hargs hdepth =>
    simp only [invoke]
    refine .read ?_
    simp only [hf, hargs, ne_eq, not_true_eq_false, if_false]
    refine .read ?_
    simp only [if_neg (Nat.not_le_of_lt hdepth)]
    exact .deeper .here

theorem inside_of_apply {f : Callable ν} {args : List Value} (h : Calls d (.apply f args, m) A)
    (hf : C.callable f) : Inside C d A (fun n => apply d (n + 1) f args) m := by
  cases h with
  | function =>
    simp only [apply]
    exact .here
  | initializer =>
    rename_i f
    simp only [apply]
    refine .updated (.object _) (.updated (.receiver _ _) ?_)
    exact .before .here (fun n => (keptRuns C d n).applyFunction _ args _ (hf f rfl)) fun _ _ _ => .pure _

theorem inside_of_applyFunction {f : Lox.Function ν} {args : List Value}
    (h : Calls d (.applyFunction f args, m) A) (hf : C.decl f.decl) :
    Inside C d A (fun n => applyFunction d (n + 1) f args) m := by
  cases h with
  | functionBody =>
    simp only [applyFunction]
    refine .updated (.frame f.closure (name_of_locals hf)) (.before (.inFrame .here) (fun n => ?_) ?_)
    · exact .inFrame ((keptRuns C d n).execAll _ _ hf.2)
    · intro n flow m₂
      split
      · exact .bind (.read _) fun _ _ _ => .liftAt _ _
      · exact .pure _

theorem inside_of_exec {t : Stmt ν} (h : Calls d (.exec t, m) A) (ht : C.stmt t) :
    Inside C d A (fun n => exec d (n + 1) t) m := by
  have hk := keptRuns C d
  cases h with
  | blockBody =>
    simp only [exec]
    exact .read (.updated (.block _) (.inFrame .here))
  | superclass =>
    obtain ⟨hx, hparent, hmethods⟩ := C.classDecl ht
    simp only [exec]
    refine .eval (hparent _ rfl) fun _ v m₁ => ?_
    cases v with
    | classRef p => exact .bind (.pure (some p)) fun superclass _ _ => keeps_declaring superclass hx hmethods
    | _ => exact .bind (.throwAt _ _) fun superclass _ _ => keeps_declaring superclass hx hmethods
  | expression =>
    simp only [exec]
    exact .eval (C.expression ht) fun _ _ _ => .pure _
  | test =>
    rename_i t
    obtain ⟨hc, hs, ht⟩ := C.conditional ht
    cases t with
    | none =>
      simp only [exec]
      refine .eval hc fun n v m₁ => ?_
      split
      · exact (hk n).exec _ m₁ hs
      · exact .pure _
    | some t =>
      simp only [exec]
      refine .eval hc fun n v m₁ => ?_
      split
      · exact (hk n).exec _ m₁ hs
      · exact (hk n).exec t m₁ (ht t rfl)
  | thenBranch hy hv =>
    obtain ⟨hc, _, _⟩ := C.conditional ht
    simp only [exec]
    refine .afterEval hy hc ?_
    simp only [if_pos hv]
    exact .here
  | elseBranch hy hv =>
    obtain ⟨hc, hs, ht⟩ := C.conditional ht
    simp only [exec]
    refine .afterEval hy hc ?_
    simp only [hv, Bool.false_eq_true, if_false]
    exact .here
  | printed =>
    simp only [exec]
    exact .eval (C.print ht) fun _ v _ => .bind (.read _) fun _ _ _ => .bind (.printLine _ _) fun _ _ _ => .pure _
  | returned =>
    simp only [exec]
    exact .eval (C.returning ht _ rfl) fun _ _ _ => .pure _
  | variableValue =>
    obtain ⟨hx, he⟩ := C.varDecl ht
    simp only [exec]
    exact .eval (he _ rfl) fun _ v _ => .bind (.define v hx) fun _ _ _ => .pure _
  | loopTest =>
    obtain ⟨hc, hs⟩ := C.loop ht
    simp only [exec]
    refine .eval hc fun n v m₁ => ?_
    split
    · refine .bind ((hk n).exec _ m₁ hs) fun flow m₂ _ => ?_
      cases flow with
      | normal => exact (hk n).exec _ m₂ ht
      | returned v => exact .pure _
    · exact .pure _
  | loopBody hy hv =>
    obtain ⟨hc, hs⟩ := C.loop ht
    simp only [exec]
    refine .afterEval hy hc ?_
    simp only [if_pos hv]
    refine .exec hs fun n flow m₂ => ?_
    cases flow with
    | normal => exact (hk n).exec _ m₂ ht
    | returned v => exact .pure _
  | loopAgain hy hv hy' =>
    obtain ⟨hc, hs⟩ := C.loop ht
    simp only [exec]
    refine .afterEval hy hc ?_
    simp only [if_pos hv]
    exact .afterExec hy' hs .here

theorem inside_of_execAll {ts : List (Stmt ν)} (h : Calls d (.execAll ts, m) A) (hts : ∀ t ∈ ts, C.stmt t) :
    Inside C d A (fun n => execAll d (n + 1) ts) m := by
  have ht : ∀ {t ts'}, ts = t :: ts' → C.stmt t ∧ ∀ t ∈ ts', C.stmt t := by
    rintro t ts' rfl
    exact ⟨hts t List.mem_cons_self, fun t ht => hts t (List.mem_cons_of_mem _ ht)⟩
  cases h with
  | firstStatement =>
    simp only [execAll]
    refine .exec (ht rfl).1 fun n flow m₁ => ?_
    cases flow with
    | normal => exact (keptRuns C d n).execAll _ m₁ (ht rfl).2
    | returned v => exact .pure _
  | otherStatements hy =>
    simp only [execAll]
    exact .afterExec hy (ht rfl).1 .here

end Exec

/-- What a moment starts is a part of its own task. -/
theorem Calls.inside (h : Calls d M A) (ht : C.task M.1) :
    Exec.Inside C d A (fun n => M.1.run d (n + 1)) M.2 := by
  obtain ⟨T, m⟩ := M
  cases T with
  | eval e => exact Exec.inside_of_eval h ht
  | evalAll es => exact Exec.inside_of_evalAll h ht
  | invoke paren callee args => exact Exec.inside_of_invoke h
  | apply f args => exact Exec.inside_of_apply h ht
  | applyFunction f args => exact Exec.inside_of_applyFunction h ht
  | exec t => exact Exec.inside_of_exec h ht
  | execAll ts => exact Exec.inside_of_execAll h ht

/-- When a moment ends, what it has started is over. -/
theorem Calls.ends (h : Calls d M A) (ht : C.task M.1) (hs : M.2.store.Holds C) (hM : M.Ends d m') :
    A.EndsBefore C d m'.store := by
  obtain ⟨n, hn⟩ := hM
  rw [M.1.leaves_eq] at hn
  cases n with
  | zero =>
    rw [M.1.run_zero] at hn
    cases hn
  | succ n => exact (h.inside ht).ends hs hn

/-- When what a moment has started fails, it fails itself. -/
theorem Calls.fails (h : Calls d M A) {err : RuntimeError} (hA : A.Fails d err) : M.Fails d err :=
  .of_stops ((h.inside (Code.task_all M.1)).stops hA)

/-- When a moment ends, everything in its course is over. -/
theorem Visits.ends (h : Visits d M A) (ht : C.task M.1) (hs : M.2.store.Holds C) (hM : M.Ends d m') :
    A.EndsBefore C d m'.store := by
  induction h with
  | refl => exact ⟨m', hM, .refl⟩
  | tail hvisits hcall ih =>
    obtain ⟨m₁, hends, hlater⟩ := ih
    have hcode := Visits.runsCode hvisits ht hs
    exact (hcall.ends hcode.1 (hcode.2.holds hs) hends).later hlater

/-- When a moment in its course fails, a moment fails itself. -/
theorem Visits.fails (h : Visits d M A) {err : RuntimeError} (hA : A.Fails d err) : M.Fails d err := by
  induction h with
  | refl => exact hA
  | tail _ hcall ih => exact ih (hcall.fails hA)

/-- What a moment in its course was started on has become what the whole leaves behind. -/
theorem Visits.changes (h : Visits d M A) (ht : C.task M.1) (hs : M.2.store.Holds C) (hM : M.Ends d m') :
    Changes C A.2.store m'.store := by
  obtain ⟨htask, hpath⟩ := h.runsCode ht hs
  obtain ⟨m, ⟨n, hn⟩, hlater⟩ := h.ends ht hs hM
  exact (leads_of_leaves htask (hpath.holds hs) hn).store.trans hlater

/-! ## Programs -/

variable {tree : List (Stmt ν)} {S : Moment ν} {n : Nat}

theorem Exec.inside_of_interpret (h : Starts d tree m S) (ht : ∀ t ∈ tree, C.stmt t) :
    Inside C d S (interpret d · tree) m := by
  induction h with
  | first =>
    simp only [interpret]
    exact .exec (ht _ List.mem_cons_self) fun n _ m₁ =>
      keeps_interpret C d n (fun t hmem => ht t (List.mem_cons_of_mem _ hmem)) m₁
  | next hy _ ih =>
    simp only [interpret]
    exact .afterExec hy (ht _ List.mem_cons_self) (ih fun t hmem => ht t (List.mem_cons_of_mem _ hmem))

/-- When a program ends, all its statements are over. -/
theorem Starts.ends (h : Starts d tree m S) (ht : ∀ t ∈ tree, C.stmt t) (hs : m.store.Holds C)
    (hm : (Exec.interpret d n tree m).machine? = some m') : S.EndsBefore C d m'.store :=
  (Exec.inside_of_interpret h ht).ends hs hm

end

end Lox
