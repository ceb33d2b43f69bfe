import Lox.Proofs.Execution.Activations
import Lox.Proofs.Execution.Fuel
import Lox.Proofs.Execution.Plain
import Lox.Proofs.Tree.Loops

/-!
# Code without loops finishes

Without loops, running a tree runs its parts, each once, and calls. A call opens an activation, and no
more than `maxCallDepth` of them can be open: so the measure is the number of activations that are still
left, and below it the tree that is run. That a body which is called has no loop either is an invariant
of the store. Main statement: `interpret_finishes`.
-/

namespace Lox

namespace Code

/-- The code without loops. -/
def loopless (ν : Type) : Code ν :=
  { all ν with
    stmt := fun t => t.loopless = true
    block := fun h => Stmt.looplessAll_iff.1 h
    classDecl := fun h => ⟨trivial, fun _ _ => trivial, fun f hf =>
      ⟨fun _ _ => trivial, Stmt.looplessFun_iff.1 (Stmt.looplessMethods_iff.1 h f hf)⟩⟩
    expression := fun _ => trivial
    function := fun h => ⟨trivial, fun _ _ => trivial, Stmt.looplessFun_iff.1 h⟩
    conditional := fun h =>
      ⟨trivial, (Bool.and_eq_true_iff.1 h).1, Stmt.looplessOpt_iff.1 (Bool.and_eq_true_iff.1 h).2⟩
    print := fun _ => trivial
    returning := fun _ _ _ => trivial
    varDecl := fun _ => ⟨trivial, fun _ _ => trivial⟩
    loop := fun h => absurd h Bool.false_ne_true }

end Code

namespace Exec

/-! ## Steps that use no fuel -/

/-- A step that never runs out of fuel. -/
def Fuelless (x : Exec ν α) : Prop := ∀ m, x m ≠ .outOfFuel

namespace Fuelless

theorem pure (a : α) : Fuelless (Pure.pure a : Exec ν α) := fun _ h => nomatch h

theorem read (f : Machine ν → α) : Fuelless (Exec.read f) := fun _ h => nomatch h

theorem throwAt (t : Token) (cause : RuntimeFault) : Fuelless (Exec.throwAt t cause : Exec ν α) :=
  fun _ h => nomatch h

theorem liftAt (t : Token) (r : Except RuntimeFault α) : Fuelless (Exec.liftAt t r : Exec ν α) := by
  cases r with
  | ok a => exact pure a
  | error cause => exact throwAt t cause

theorem updateStore (f : Store ν → α × Store ν) : Fuelless (Exec.updateStore f) := fun _ h => nomatch h

theorem define (x : String) (v : Value) : Fuelless (Exec.define x v : Exec ν Unit) := fun _ h => nomatch h

theorem assignIn (x : Token) (locate : Frames → Except RuntimeFault FrameId) (v : Value) :
    Fuelless (Exec.assignIn x locate v : Exec ν Unit) := by
  intro m h
  unfold Exec.assignIn at h
  split at h <;> cases h

theorem printLine (kw : Token) (text : String) : Fuelless (Exec.printLine kw text : Exec ν Unit) := by
  intro m h
  unfold Exec.printLine at h
  simp only at h
  split at h <;> cases h

theorem readClock : Fuelless (Exec.readClock : Exec ν Value) := fun _ h => nomatch h

theorem bind {x : Exec ν α} {f : α → Exec ν β} (hx : Fuelless x) (hf : ∀ a, Fuelless (f a)) :
    Fuelless (x >>= f) := by
  intro m h
  rw [bind_apply] at h
  cases hr : x m with
  | done a m' =>
    rw [hr] at h
    exact hf a m' h
  | failed e m' =>
    rw [hr] at h
    cases h
  | outOfFuel => exact hx m hr

end Fuelless

theorem Plain.fuelless {x : Exec ν α} (h : Plain x) : Fuelless x := by
  induction h with
  | pure a => exact .pure a
  | read _ => exact .read _
  | throwAt t cause => exact .throwAt t cause
  | define x v => exact .define x v
  | assignIn x locate v => exact .assignIn x locate v
  | readClock => exact .readClock
  | bind _ _ ihx ihf => exact .bind ihx ihf
  | _ => exact .updateStore _

/-! ## Steps that finish -/

/-- From some amount of fuel on the step ends, and always in the same way. -/
def Finishes (x : Nat → Exec ν α) (m : Machine ν) : Prop := ∃ r, r ≠ .outOfFuel ∧ Settles x m r

namespace Finishes

variable {x : Nat → Exec ν α} {f : α → Nat → Exec ν β} {m : Machine ν}

theorem of_fuelless {x : Exec ν α} (h : Fuelless x) (m : Machine ν) : Finishes (fun _ => x) m :=
  ⟨x m, h m, .const rfl⟩

theorem succ (h : Finishes (fun n => x (n + 1)) m) : Finishes x m := by
  obtain ⟨r, hr, h⟩ := h
  exact ⟨r, hr, h.succ⟩

/-- A first step whose end is known. -/
theorem after {x : Exec ν α} {a : α} {m' : Machine ν} (hx : x m = .done a m') (h : Finishes (f a) m') :
    Finishes (fun n => x >>= fun a => f a n) m := by
  obtain ⟨r, hr, h⟩ := h
  exact ⟨r, hr, Settles.bind (.const hx) h⟩

theorem bind (hx : Finishes x m) (hf : ∀ a m', Yields x m a m' → Finishes (f a) m') :
    Finishes (fun n => x n >>= fun a => f a n) m := by
  obtain ⟨r, hr, h⟩ := hx
  cases r with
  | done a m' =>
    obtain ⟨r', hr', h'⟩ := hf a m' h.ends
    exact ⟨r', hr', h.bind h'⟩
  | failed e m' => exact ⟨.failed e m', nofun, h.bind_failed⟩
  | outOfFuel => exact absurd rfl hr

theorem inFrame {frame : FrameId} (h : Finishes x { m with env := frame }) :
    Finishes (fun n => Exec.inFrame frame (x n)) m := by
  obtain ⟨r, hr, h⟩ := h
  exact ⟨_, Result.update_ne_outOfFuel hr, h.inFrame⟩

theorem deeper (h : Finishes x { m with depth := m.depth + 1 }) :
    Finishes (fun n => Exec.deeper (x n)) m := by
  obtain ⟨r, hr, h⟩ := h
  exact ⟨_, Result.update_ne_outOfFuel hr, h.deeper⟩

end Finishes

/-! ## Parts -/

/-- The functions on the machine have no loops, and no more than `b` activations can still be opened. -/
structure Ready (b : Nat) (m : Machine ν) : Prop where
  store : m.store.Holds (Code.loopless ν)
  budget : maxCallDepth ≤ m.depth + b

namespace Ready

variable {b : Nat} {m m' : Machine ν} {d : Distances ν}

theorem leads (h : Ready b m) (hl : Leads (Code.loopless ν) m m') : Ready b m' :=
  ⟨hl.store.holds h.store, by rw [hl.depth]; exact h.budget⟩

theorem eval {e : Expr ν} {v : Value} (h : Ready b m) (hy : Yields (Exec.eval d · e) m v m') : Ready b m' :=
  h.leads (leads_of_eval trivial h.store hy)

theorem exec {t : Stmt ν} {flow : Flow} (ht : t.loopless = true) (h : Ready b m)
    (hy : Yields (Exec.exec d · t) m flow m') : Ready b m' :=
  h.leads (leads_of_exec ht h.store hy)

/-- In a fresh frame nothing else is different. -/
theorem enter (h : Ready b m) (e : FrameId) (names : Table Value) : Ready b (m.enter e names) :=
  ⟨(Change.frame e fun _ _ => trivial).holds h.store, h.budget⟩

end Ready

/-- All calls finish that are made with so many activations left. -/
def CallsFinish (d : Distances ν) (b : Nat) : Prop :=
  ∀ (paren : Token) (callee : Value) (args : List Value) (m : Machine ν), Ready b m →
    Finishes (invoke d · paren callee args) m

section
variable {d : Distances ν} {b : Nat}

mutual

theorem eval_finishes (hcalls : CallsFinish d b) : ∀ (e : Expr ν) (m : Machine ν), Ready b m →
    Finishes (eval d · e) m
  | .assign k x e, m, h => by
    refine .succ ?_
    simp only [eval]
    refine .bind (eval_finishes hcalls e m h) fun v m' _ => ?_
    exact .of_fuelless (.bind (Plain.assignName _ x v).fuelless fun _ => .pure v) m'
  | .binary l op r, m, h => by
    refine .succ ?_
    simp only [eval]
    refine .bind (eval_finishes hcalls l m h) fun a m₁ h₁ => ?_
    refine .bind (eval_finishes hcalls r m₁ (h.eval h₁)) fun c m₂ _ => ?_
    exact .of_fuelless (.liftAt op _) m₂
  | .call f paren args, m, h => by
    refine .succ ?_
    simp only [eval]
    refine .bind (eval_finishes hcalls f m h) fun v m₁ h₁ => ?_
    have hready := h.eval h₁
    refine .bind (evalAll_finishes hcalls args m₁ hready) fun vs m₂ h₂ => ?_
    exact hcalls paren v vs m₂ (hready.leads (leads_of_evalAll (fun _ _ => trivial) hready.store h₂))
  | .get o x, m, h => by
    refine .succ ?_
    simp only [eval]
    refine .bind (eval_finishes hcalls o m h) fun v m' _ => .of_fuelless ?_ m'
    cases v with
    | objectRef i => exact (Plain.getProperty i x).fuelless
    | _ => exact .throwAt _ _
  | .grouping e, m, h => by
    refine .succ ?_
    simp only [eval]
    exact eval_finishes hcalls e m h
  | .literal v, m, h => by
    refine .succ ?_
    simp only [eval]
    exact .of_fuelless (.pure _) m
  | .logical l op r, m, h => by
    refine .succ ?_
    simp only [eval]
    refine .bind (eval_finishes hcalls l m h) fun a m₁ h₁ => ?_
    by_cases ha : a.truthy = op.is .orKw
    · simp only [if_pos ha]
      exact .of_fuelless (.pure a) m₁
    · simp only [if_neg ha]
      exact eval_finishes hcalls r m₁ (h.eval h₁)
  | .set o x e, m, h => by
    refine .succ ?_
    simp only [eval]
    refine .bind (eval_finishes hcalls o m h) fun v m₁ h₁ => ?_
    cases v with
    | objectRef i =>
      refine .bind (eval_finishes hcalls e m₁ (h.eval h₁)) fun u m₂ _ => ?_
      exact .of_fuelless (.bind (.updateStore _) fun _ => .pure u) m₂
    | _ => exact .of_fuelless (.throwAt _ _) m₁
  | .superRef k kw x, m, h => by
    refine .succ ?_
    simp only [eval]
    exact .of_fuelless (Plain.superMethod _ kw x).fuelless m
  | .thisRef k kw, m, h => by
    refine .succ ?_
    simp only [eval]
    exact .of_fuelless (Plain.readName _ kw).fuelless m
  | .unary op e, m, h => by
    refine .succ ?_
    simp only [eval]
    exact .bind (eval_finishes hcalls e m h) fun a m' _ => .of_fuelless (.liftAt op _) m'
  | .variable k x, m, h => by
    refine .succ ?_
    simp only [eval]
    exact .of_fuelless (Plain.readName _ x).fuelless m

theorem evalAll_finishes (hcalls : CallsFinish d b) : ∀ (es : List (Expr ν)) (m : Machine ν), Ready b m →
    Finishes (evalAll d · es) m
  | [], m, h => by
    refine .succ ?_
    simp only [evalAll]
    exact .of_fuelless (.pure []) m
  | e :: es, m, h => by
    refine .succ ?_
    simp only [evalAll]
    refine .bind (eval_finishes hcalls e m h) fun v m₁ h₁ => ?_
    exact .bind (evalAll_finishes hcalls es m₁ (h.eval h₁)) fun vs m₂ _ => .of_fuelless (.pure _) m₂

end

mutual

theorem exec_finishes (hcalls : CallsFinish d b) : ∀ (t : Stmt ν) (m : Machine ν), t.loopless = true →
    Ready b m → Finishes (exec d · t) m
  | .block body, m, ht, h => by
    refine .succ ?_
    simp only [exec]
    refine .after rfl (.after rfl (.inFrame ?_))
    exact execAll_finishes hcalls body _ ht (h.enter m.env {})
  | .classDecl x none methods, m, _, h => by
    refine .succ ?_
    simp only [exec]
    exact .of_fuelless (.bind (.pure _) fun superclass =>
      .bind (Plain.declareClass x superclass methods).fuelless fun _ => .pure _) m
  | .classDecl x (some e) methods, m, _, h => by
    refine .succ ?_
    simp only [exec]
    refine .bind (eval_finishes hcalls e m h) fun v m' _ => .of_fuelless ?_ m'
    cases v with
    | classRef p =>
      exact .bind (.pure _) fun superclass =>
        .bind (Plain.declareClass x superclass methods).fuelless fun _ => .pure _
    | _ => exact .bind (.throwAt _ _) fun superclass =>
        .bind (Plain.declareClass x superclass methods).fuelless fun _ => .pure _
  | .expression e, m, _, h => by
    refine .succ ?_
    simp only [exec]
    exact .bind (eval_finishes hcalls e m h) fun _ m' _ => .of_fuelless (.pure _) m'
  | .function f, m, _, h => by
    refine .succ ?_
    simp only [exec]
    exact .of_fuelless (.bind (.read _) fun _ => .bind (.updateStore _) fun _ =>
      .bind (.define _ _) fun _ => .pure _) m
  | .conditional c s t, m, ht, h => by
    simp only [Stmt.loopless, Bool.and_eq_true] at ht
    refine .succ ?_
    simp only [exec]
    refine .bind (eval_finishes hcalls c m h) fun v m' hv => ?_
    cases v.truthy with
    | true => exact exec_finishes hcalls s m' ht.1 (h.eval hv)
    | false =>
      cases t with
      | none => exact .of_fuelless (.pure _) m'
      | some t => exact exec_finishes hcalls t m' ht.2 (h.eval hv)
  | .print kw e, m, _, h => by
    refine .succ ?_
    simp only [exec]
    refine .bind (eval_finishes hcalls e m h) fun v m' _ => ?_
    exact .of_fuelless (.bind (.read _) fun text => .bind (.printLine kw text) fun _ => .pure _) m'
  | .returning kw none, m, _, h => by
    refine .succ ?_
    simp only [exec]
    exact .of_fuelless (.pure _) m
  | .returning kw (some e), m, _, h => by
    refine .succ ?_
    simp only [exec]
    exact .bind (eval_finishes hcalls e m h) fun _ m' _ => .of_fuelless (.pure _) m'
  | .varDecl x none, m, _, h => by
    refine .succ ?_
    simp only [exec]
    exact .of_fuelless (.bind (.define _ _) fun _ => .pure _) m
  | .varDecl x (some e), m, _, h => by
    refine .succ ?_
    simp only [exec]
    refine .bind (eval_finishes hcalls e m h) fun v m' _ => ?_
    exact .of_fuelless (.bind (.define _ v) fun _ => .pure _) m'
  | .loop _ _, _, ht, _ => nomatch ht

theorem execAll_finishes (hcalls : CallsFinish d b) : ∀ (ts : List (Stmt ν)) (m : Machine ν),
    Stmt.looplessAll ts = true → Ready b m → Finishes (execAll d · ts) m
  | [], m, _, h => by
    refine .succ ?_
    simp only [execAll]
    exact .of_fuelless (.pure _) m
  | t :: ts, m, ht, h => by
    simp only [Stmt.looplessAll, Bool.and_eq_true] at ht
    refine .succ ?_
    simp only [execAll]
    refine .bind (exec_finishes hcalls t m ht.1 h) fun flow m' hy => ?_
    cases flow with
    | normal => exact execAll_finishes hcalls ts m' ht.2 (h.exec ht.1 hy)
    | returned v => exact .of_fuelless (.pure _) m'

end

/-! ## Calls -/

theorem applyFunction_finishes (hcalls : CallsFinish d b) {f : Lox.Function ν} (args : List Value)
    {m : Machine ν} (hf : (Code.loopless ν).decl f.decl) (h : Ready b m) :
    Finishes (applyFunction d · f args) m := by
  refine .succ ?_
  simp only [applyFunction]
  refine .after rfl (.bind (.inFrame ?_) fun flow m' _ => .of_fuelless ?_ m')
  · exact execAll_finishes hcalls f.decl.body _ (Stmt.looplessAll_iff.2 hf.2) (h.enter f.closure (f.locals args))
  · cases f.isInitializer with
    | true => exact .bind (.read _) fun _ => .liftAt _ _
    | false => exact .pure _

theorem apply_finishes (hcalls : CallsFinish d b) {f : Callable ν} (args : List Value) {m : Machine ν}
    (hf : (Code.loopless ν).callable f) (h : Ready b m) : Finishes (apply d · f args) m := by
  refine .succ ?_
  cases f with
  | native f =>
    cases f
    simp only [apply]
    exact .of_fuelless .readClock m
  | function f =>
    simp only [apply]
    exact applyFunction_finishes hcalls args hf h
  | constructor i initializer =>
    simp only [apply]
    refine .after rfl ?_
    cases initializer with
    | none => exact .of_fuelless (.bind (.pure _) fun _ => .pure _) _
    | some f =>
      have hbound : Ready b ((m.construct i).bindMethod f m.store.objects.size) :=
        ⟨(Change.receiver f _).holds ((Change.object _).holds h.store), h.budget⟩
      refine .after rfl (.bind (applyFunction_finishes hcalls args (hf f rfl) hbound) fun v m' _ => ?_)
      exact .of_fuelless (.pure _) m'

/-- A call finishes if what it calls does, one activation deeper; at the limit nothing is applied. -/
theorem invoke_finishes {paren : Token} {callee : Value} {args : List Value} {m : Machine ν}
    (h : ∀ f, Callable.of? m.store callee = some f → m.depth < maxCallDepth →
      Finishes (apply d · f args) { m with depth := m.depth + 1 }) :
    Finishes (invoke d · paren callee args) m := by
  refine .succ ?_
  simp only [invoke]
  refine .after (a := Callable.of? m.store callee) rfl ?_
  cases hf : Callable.of? m.store callee with
  | none => exact .of_fuelless (.throwAt _ _) m
  | some f =>
    by_cases hargs : args.length = f.arity
    · by_cases hdepth : maxCallDepth ≤ m.depth
      · simp only [hargs, ne_eq, not_true, if_false]
        refine .after (a := m.depth) rfl ?_
        simp only [if_pos hdepth]
        exact .of_fuelless (.throwAt _ _) m
      · simp only [hargs, ne_eq, not_true, if_false]
        refine .after (a := m.depth) rfl ?_
        simp only [if_neg hdepth]
        exact .deeper (h f hf (Nat.lt_of_not_le hdepth))
    · simp only [ne_eq, hargs, not_false_eq_true, if_true]
      exact .of_fuelless (.throwAt _ _) m

/-- Whatever is called, and whatever it calls in turn: every call leaves one activation less. -/
theorem callsFinish (d : Distances ν) (b : Nat) : CallsFinish d b := by
  induction b with
  | zero =>
    intro paren callee args m h
    exact invoke_finishes fun f _ hdepth => absurd hdepth (Nat.not_lt_of_le h.budget)
  | succ b ih =>
    intro paren callee args m h
    refine invoke_finishes fun f hf _ => apply_finishes ih args (h.store.callable hf) ⟨h.store, ?_⟩
    rw [Nat.add_assoc, Nat.add_comm 1 b]
    exact h.budget

end

/-! ## Programs -/

/-- A program without loops finishes, on every machine whose functions have no loops. -/
theorem interpret_finishes (d : Distances ν) {tree : List (Stmt ν)} (ht : Stmt.looplessAll tree = true)
    {m : Machine ν} (hs : m.store.Holds (Code.loopless ν)) : Finishes (interpret d · tree) m := by
  have hready : Ready maxCallDepth m := ⟨hs, Nat.le_add_left _ _⟩
  clear hs
  induction tree generalizing m with
  | nil => exact .of_fuelless (.pure _) m
  | cons t ts ih =>
    simp only [Stmt.looplessAll, Bool.and_eq_true] at ht
    simp only [interpret]
    refine .bind (exec_finishes (callsFinish d _) t m ht.1 hready) fun flow m' hy => ?_
    exact ih ht.2 (hready.exec ht.1 hy)

end Exec

end Lox
