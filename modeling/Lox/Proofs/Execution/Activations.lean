import Lox.Proofs.Execution.Changes

/-!
# Open activations

What a moment hands on to the moments that it starts: a task of the same code, a store that was only
changed by that code, and the call depth, one deeper if the task is a call. The depth is then the
number of activations that are open (`Nested`), and it stays within its limit because the guard of a
call is exact: `invoke_overflows_iff`.
-/

namespace Lox

/-- A call that is applied is an activation; no other task is. -/
def Task.activations : Task ν → Nat
  | .apply _ _ => 1
  | _ => 0

/-- What a moment hands on to one that it starts. -/
structure HandsOn (C : Code ν) (M M' : Moment ν) : Prop where
  task : C.task M'.1
  store : Changes C M.2.store M'.2.store
  depth : M'.2.depth = M.2.depth + M'.1.activations
  limit : M.2.depth ≤ maxCallDepth → M'.2.depth ≤ maxCallDepth

namespace HandsOn

variable {C : Code ν} {T T' : Task ν} {m m' : Machine ν}

/-- A part is started where its predecessors led. -/
theorem after (ht : C.task T') (h : Leads C m m') (hn : T'.activations = 0) :
    HandsOn C (T, m) (T', m') where
  task := ht
  store := h.store
  depth := by simp only [h.depth, hn, Nat.add_zero]
  limit := by simp only [h.depth, imp_self]

/-- The first part is started on the machine itself. -/
theorem first (ht : C.task T') (hn : T'.activations = 0) : HandsOn C (T, m) (T', m) :=
  after ht .refl hn

/-- A body is started in a fresh frame. -/
theorem enter {e : FrameId} {names : Table Value} (ht : C.task T')
    (hnames : ∀ x, names.contains x = true → C.name x) (hn : T'.activations = 0) :
    HandsOn C (T, m) (T', m.enter e names) where
  task := ht
  store := .single (.frame e hnames)
  depth := by simp only [hn, Nat.add_zero, Machine.enter]
  limit h := h

end HandsOn

section
variable {C : Code ν} {d : Distances ν} {m m' : Machine ν}

theorem leads_of_eval {e : Expr ν} {v : Value} (he : C.expr e) (hs : m.store.Holds C)
    (h : Exec.Yields (Exec.eval d · e) m v m') : Leads C m m' := by
  obtain ⟨n, hn⟩ := h
  exact ((Exec.keptRuns C d n).eval e m he).done hs hn

theorem leads_of_evalAll {es : List (Expr ν)} {vs : List Value} (hes : ∀ e ∈ es, C.expr e)
    (hs : m.store.Holds C) (h : Exec.Yields (Exec.evalAll d · es) m vs m') : Leads C m m' := by
  obtain ⟨n, hn⟩ := h
  exact ((Exec.keptRuns C d n).evalAll es m hes).done hs hn

theorem leads_of_exec {t : Stmt ν} {flow : Flow} (ht : C.stmt t) (hs : m.store.Holds C)
    (h : Exec.Yields (Exec.exec d · t) m flow m') : Leads C m m' := by
  obtain ⟨n, hn⟩ := h
  exact ((Exec.keptRuns C d n).exec t m ht).done hs hn

/-- One step of the walk, rule by rule. -/
theorem Calls.handsOn {M M' : Moment ν} (h : Calls d M M') (ht : C.task M.1) (hs : M.2.store.Holds C) :
    HandsOn C M M' := by
  cases h with
  | assignValue => exact .first (C.assign ht).2 rfl
  | binaryLeft => exact .first (C.binary ht).1 rfl
  | binaryRight hl =>
    obtain ⟨hleft, hright⟩ := C.binary ht
    exact .after hright (leads_of_eval hleft hs hl) rfl
  | callee => exact .first (C.call ht).1 rfl
  | arguments hf =>
    obtain ⟨hcallee, hargs⟩ := C.call ht
    exact .after hargs (leads_of_eval hcallee hs hf) rfl
  | invoke hf ha =>
    obtain ⟨hcallee, hargs⟩ := C.call ht
    have hleads := leads_of_eval hcallee hs hf
    exact .after trivial (hleads.trans (leads_of_evalAll hargs (hleads.store.holds hs) ha)) rfl
  | getObject => exact .first (C.get ht) rfl
  | grouping => exact .first (C.grouping ht) rfl
  | logicalLeft => exact .first (C.logical ht).1 rfl
  | logicalRight hl =>
    obtain ⟨hleft, hright⟩ := C.logical ht
    exact .after hright (leads_of_eval hleft hs hl) rfl
  | setObject => exact .first (C.set ht).1 rfl
  | setValue ho =>
    obtain ⟨hobject, hvalue⟩ := C.set ht
    exact .after hvalue (leads_of_eval hobject hs ho) rfl
  | operand => exact .first (C.unary ht) rfl
  | first => exact .first (ht _ (by simp)) rfl
  | others he => exact .after (fun e h => ht e (List.mem_cons_of_mem _ h)) (leads_of_eval (ht _ (by simp)) hs he) rfl
  | apply hf _ hd =>
    exact ⟨hs.callable hf, .refl, rfl, fun _ => hd⟩
  | function => exact .first ht rfl
  | @initializer i f args m =>
    have hf : C.decl f.decl := ht f rfl
    refine ⟨hf, ?_, rfl, fun h => h⟩
    exact (Relation.ReflTransGen.single (.object _)).tail (.receiver _ _)
  | functionBody => exact .enter ht.2 (Exec.name_of_locals ht) rfl
  | blockBody => exact .enter (C.block ht) (fun x hx => nomatch hx) rfl
  | superclass => exact .first ((C.classDecl ht).2.1 _ rfl) rfl
  | expression => exact .first (C.expression ht) rfl
  | test => exact .first (C.conditional ht).1 rfl
  | thenBranch hc =>
    obtain ⟨hcond, hthen, _⟩ := C.conditional ht
    exact .after hthen (leads_of_eval hcond hs hc) rfl
  | elseBranch hc =>
    obtain ⟨hcond, _, helse⟩ := C.conditional ht
    exact .after (helse _ rfl) (leads_of_eval hcond hs hc) rfl
  | printed => exact .first (C.print ht) rfl
  | returned => exact .first (C.returning ht _ rfl) rfl
  | variableValue => exact .first ((C.varDecl ht).2 _ rfl) rfl
  | loopTest => exact .first (C.loop ht).1 rfl
  | loopBody hc =>
    obtain ⟨hcond, hbody⟩ := C.loop ht
    exact .after hbody (leads_of_eval hcond hs hc) rfl
  | loopAgain hc _ hb =>
    obtain ⟨hcond, hbody⟩ := C.loop ht
    have hleads := leads_of_eval hcond hs hc
    exact .after ht (hleads.trans (leads_of_exec hbody (hleads.store.holds hs) hb)) rfl
  | firstStatement => exact .first (ht _ (by simp)) rfl
  | otherStatements hst =>
    exact .after (fun t h => ht t (List.mem_cons_of_mem _ h)) (leads_of_exec (ht _ (by simp)) hs hst) rfl

/-- Everything in the course of a moment runs the same code, on a store that this code made. -/
theorem Visits.runsCode {M M' : Moment ν} (h : Visits d M M') (ht : C.task M.1)
    (hs : M.2.store.Holds C) : C.task M'.1 ∧ Changes C M.2.store M'.2.store := by
  induction h with
  | refl => exact ⟨ht, .refl⟩
  | tail _ hcall ih =>
    have hnext := hcall.handsOn ih.1 (ih.2.holds hs)
    exact ⟨hnext.task, ih.2.trans hnext.store⟩

/-- A program starts statements of its own. -/
theorem Starts.mem {tree : List (Stmt ν)} {S : Moment ν} (h : Starts d tree m S) {t : Stmt ν}
    (ht : S.1 = .exec t) : t ∈ tree := by
  induction h with
  | first =>
    cases ht
    simp
  | next _ _ ih => exact List.mem_cons_of_mem _ (ih ht)

/-- The statements that a program starts run its code. -/
theorem Starts.runsCode {tree : List (Stmt ν)} {S : Moment ν} (h : Starts d tree m S)
    (ht : ∀ t ∈ tree, C.stmt t) (hs : m.store.Holds C) : C.task S.1 ∧ Changes C m.store S.2.store := by
  induction h with
  | first => exact ⟨ht _ (by simp), .refl⟩
  | next hy _ ih =>
    have hleads := leads_of_exec (ht _ (by simp)) hs hy
    obtain ⟨htask, hstore⟩ := ih (fun t h => ht t (List.mem_cons_of_mem _ h)) (hleads.store.holds hs)
    exact ⟨htask, hleads.store.trans hstore⟩

end

/-! ## Counting -/

/-- The second moment is reached in the course of the first, with so many activations open between. -/
inductive Nested (d : Distances ν) (M : Moment ν) : Nat → Moment ν → Prop
  | here : Nested d M 0 M
  | step : Nested d M k M' → Calls d M' M'' → Nested d M (k + M''.1.activations) M''

section
variable {d : Distances ν} {M M' : Moment ν} {k : Nat}

/-- Every moment in the course of another is nested in it. -/
theorem visits_iff_nested : Visits d M M' ↔ ∃ k, Nested d M k M' := by
  constructor
  · intro h
    induction h with
    | refl => exact ⟨0, .here⟩
    | tail _ hcall ih =>
      obtain ⟨k, hk⟩ := ih
      exact ⟨_, hk.step hcall⟩
  · rintro ⟨k, h⟩
    induction h with
    | here => exact .refl
    | step _ hcall ih => exact ih.tail hcall

/-- The call depth counts the open activations, and the limit is kept on the way. -/
theorem Nested.depth (h : Nested d M k M') (hlimit : M.2.depth ≤ maxCallDepth) :
    M'.2.depth = M.2.depth + k ∧ M'.2.depth ≤ maxCallDepth := by
  induction h with
  | here => exact ⟨rfl, hlimit⟩
  | step _ hcall ih =>
    have hnext := hcall.handsOn (Code.task_all _) (Store.holds_all _)
    exact ⟨by rw [hnext.depth, ih.1, Nat.add_assoc], hnext.limit ih.2⟩

end

/-! ## The guard -/

namespace Exec

section
variable {d : Distances ν} {n : Nat} {m m' : Machine ν} {e : RuntimeError}

/-- A step that fails takes no frame away. -/
theorem Keeps.size_le {x : Exec ν α} (hk : Keeps (Code.all ν) x m) (h : x m = .failed e m') :
    m.store.frames.cells.size ≤ m'.store.frames.cells.size :=
  (hk.failed (Store.holds_all _) h).store.grows.frames

/-- A function that fails has made its frame before. -/
theorem applyFunction_grows {f : Lox.Function ν} {args : List Value}
    (h : applyFunction d n f args m = .failed e m') :
    m.store.frames.cells.size < m'.store.frames.cells.size := by
  cases n with
  | zero => cases h
  | succ n =>
    have hrest : Keeps (Code.all ν) (do
        let flow ← inFrame m.store.frames.cells.size (execAll d n f.decl.body)
        if f.isInitializer then
          liftAt (.ident "this" f.decl.name.line)
            ((← read (·.store.frames)).getAt f.closure 0 "this")
        else return flow.value)
        { m with store := (m.store.addFrame ⟨f.locals args, some f.closure⟩).2 } := by
      refine .bind (.inFrame ((keptRuns _ d n).execAll _ _ fun _ _ => trivial)) fun flow m₁ _ => ?_
      split
      · exact .bind (.read _) fun _ _ _ => .liftAt _ _
      · exact .pure _
    rw [applyFunction] at h
    have hsize := hrest.size_le h
    simpa [Store.addFrame, Nat.succ_le_iff] using hsize

/-- A call that is applied has made a frame before it fails. -/
theorem apply_grows {f : Callable ν} {args : List Value} (h : apply d n f args m = .failed e m') :
    m.store.frames.cells.size < m'.store.frames.cells.size := by
  cases n with
  | zero => cases h
  | succ n =>
    cases f with
    | native f =>
      cases f
      rw [apply] at h
      cases h
    | function f =>
      rw [apply] at h
      exact applyFunction_grows h
    | constructor i initializer =>
      rw [apply] at h
      cases initializer with
      | none => cases h
      | some f =>
        -- the object and the frame of `this` come first
        have hcall : applyFunction d n ((m.construct i).store.bindMethod f m.store.objects.size).1 args
            ((m.construct i).bindMethod f m.store.objects.size) = .failed e m' := by
          rcases bind_eq_failed h with h | ⟨object, m₁, hobject, h⟩
          · cases h
          · cases hobject
            rcases bind_eq_failed h with h | ⟨bound, m₂, hbound, h⟩
            · cases h
            · cases hbound
              rcases bind_eq_failed h with h | ⟨_, _, _, h⟩
              · exact h
              · cases h
        have hgrows := applyFunction_grows hcall
        simp only [Machine.bindMethod, Machine.construct, Store.bindMethod, Store.addFrame, Store.addObject,
          Frames.size_add] at hgrows
        omega

/-- A call is refused for its depth, before anything is run, exactly if it would have been applied
otherwise and the limit is reached. -/
theorem invoke_overflows_iff (hlimit : m.depth ≤ maxCallDepth) (paren : Token) (callee : Value)
    (args : List Value) :
    invoke d (n + 1) paren callee args m = .failed ⟨paren, .stackOverflow⟩ m ↔
      ∃ f, Callable.of? m.store callee = some f ∧ args.length = f.arity ∧ m.depth = maxCallDepth := by
  have hdeeper : ∀ f, deeper (apply d n f args) m ≠ .failed ⟨paren, .stackOverflow⟩ m := by
    intro f hf
    unfold deeper at hf
    split at hf
    · cases hf
    · rename_i e m₁ hr
      have hgrows := apply_grows hr
      cases hf
      exact absurd hgrows (Nat.lt_irrefl _)
    · cases hf
  cases hf : Callable.of? m.store callee with
  | none => simp [invoke, hf, bind_apply, read, throwAt]
  | some f =>
    by_cases harity : args.length = f.arity
    · by_cases hd : maxCallDepth ≤ m.depth
      · have hmax : m.depth = maxCallDepth := Nat.le_antisymm hlimit hd
        simp [invoke, hf, harity, hmax, bind_apply, read, throwAt]
      · have hne : m.depth ≠ maxCallDepth := fun h => hd (Nat.le_of_eq h.symm)
        simp [invoke, hf, harity, hd, hne, hdeeper, bind_apply, read]
    · simp [invoke, hf, harity, bind_apply, read, throwAt]

end

end Exec

end Lox
