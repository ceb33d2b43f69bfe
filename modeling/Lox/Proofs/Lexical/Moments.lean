import Lox.Proofs.Lexical.Lockstep

/-!
# Every moment of a run has its place

What `Lockstep` says of whole runs holds at every moment on the way: whatever a machine is asked to
do in the course of a run, there is a state that it mirrors and a place of the program at which both
stand. The induction is along `Visits`; the step follows the rules of `Calls`.
-/

namespace Lox.Lexical

section
variable (N : Place ν → Prop) (O : FrameId → Site ν → Prop)

/-- A machine and a state stand where a task can be started. -/
def Stands (σ : Slots) (m : Machine ν) (s : State ν) : Task ν → Prop
  | .eval e => ∃ scs pend, Here O σ scs pend m s ∧ e.Scoped N scs pend
  | .evalAll es => ∃ scs pend, Here O σ scs pend m s ∧ Expr.ScopedAll N scs pend es
  | .invoke _ _ _ => True
  | .apply f args => ∃ g, CallableRel N O σ m.store.frames f g ∧ args.length = f.arity
  | .applyFunction f args => ∃ g, FunctionRel N O σ m.store.frames f g ∧ args.length = f.arity
  | .exec t => ∃ scs, Here O σ scs none m s ∧ t.Scoped N scs
  | .execAll ts => ∃ scs, Here O σ scs none m s ∧ Stmt.ScopedAll N scs ts

/-- A moment that some state goes through with the machine. -/
def Matched (M : Moment ν) : Prop := ∃ σ s, Mirrors N O σ M.2 s ∧ Stands N O σ M.2 s M.1

end

section
variable {N : Place ν → Prop} {O : FrameId → Site ν → Prop} {d : Distances ν} {σ : Slots}
  {m m' : Machine ν} {s : State ν} {scs : Scopes ν} {pend : Option String}

theorem Evaluates.onward {a : α} {R : Result ν α} (h : Evaluates N O σ m s (.done a m') R) :
    ∃ σ' s', Onward N O σ m s σ' m' s' := by
  cases h with
  | done h =>
    obtain ⟨σ', ho⟩ := h
    exact ⟨σ', _, ho⟩

/-- Where a finished expression leaves the two sides. -/
theorem onward_of_eval (hN : ∀ p, N p → p.Resolved d) {e : Expr ν} {v : Value}
    (h : Mirrors N O σ m s) (hh : Here O σ scs pend m s) (hs : e.Scoped N scs pend)
    (hw : Within d O (.eval e, m)) (hy : Exec.Yields (Exec.eval d · e) m v m') :
    ∃ σ' s', Onward N O σ m s σ' m' s' := by
  obtain ⟨n, hn⟩ := hy
  simp only at hn
  have hrun := (lockstep hN n).eval e h hh hs hw
  rw [hn] at hrun
  exact hrun.onward

theorem onward_of_evalAll (hN : ∀ p, N p → p.Resolved d) {es : List (Expr ν)} {vs : List Value}
    (h : Mirrors N O σ m s) (hh : Here O σ scs pend m s) (hs : Expr.ScopedAll N scs pend es)
    (hw : Within d O (.evalAll es, m)) (hy : Exec.Yields (Exec.evalAll d · es) m vs m') :
    ∃ σ' s', Onward N O σ m s σ' m' s' := by
  obtain ⟨n, hn⟩ := hy
  simp only at hn
  have hrun := (lockstep hN n).evalAll es h hh hs hw
  rw [hn] at hrun
  exact hrun.onward

/-- Where a finished statement leaves the two sides. -/
theorem here_of_exec (hN : ∀ p, N p → p.Resolved d) {t : Stmt ν} {flow : Flow} (h : Mirrors N O σ m s)
    (hh : Here O σ scs none m s) (hs : t.Scoped N scs) (hw : Within d O (.exec t, m))
    (hy : Exec.Yields (Exec.exec d · t) m flow m') :
    ∃ σ' s', Mirrors N O σ' m' s' ∧ Here O σ' (t.after scs) none m' s' := by
  obtain ⟨n, hn⟩ := hy
  simp only at hn
  have hrun := (lockstep hN n).exec t h hh hs hw
  rw [hn] at hrun
  generalize Run.exec n t s = R at hrun
  cases hrun with
  | done hrun =>
    obtain ⟨σ', hmove, hhere⟩ := hrun
    exact ⟨σ', _, hmove.mirrors, hhere⟩

/-- A call in progress: the body of a function stands in a frame of its own. -/
theorem here_of_call {f : Lox.Function ν} {g : Function ν} {args : List Value}
    (h : Mirrors N O σ m s) (hr : FunctionRel N O σ m.store.frames f g)
    (hargs : args.length = f.arity) (hw : Within d O (.applyFunction f args, m)) :
    Matched N O (.execAll f.decl.body, m.enter f.closure (f.locals args)) := by
  obtain ⟨scs, ⟨hdecl, hinit, hchain⟩, hs, hthis⟩ := hr
  obtain ⟨hnd, hnames⟩ := params_zip hs hargs
  obtain ⟨σ', h', -, hh'⟩ := Here.enter (.function f.decl) h _ hnd hchain (hw.opens .function)
  rw [hnames] at hh'
  exact ⟨σ', _, h', _, hh', scopedAll_of_scopedFun hs⟩

/-- What a moment starts, a state starts with it. -/
theorem Matched.calls (hN : ∀ p, N p → p.Resolved d) {M M' : Moment ν} (hM : Matched N O M)
    (hw : Within d O M) (hc : Calls d M M') : Matched N O M' := by
  obtain ⟨σ, s, h, hs⟩ := hM
  cases hc with
  | assignValue =>
    obtain ⟨scs, pend, hh, hs⟩ := hs
    exact ⟨σ, s, h, scs, pend, hh, hs.1⟩
  | binaryLeft =>
    obtain ⟨scs, pend, hh, hs⟩ := hs
    exact ⟨σ, s, h, scs, pend, hh, hs.1⟩
  | binaryRight hy =>
    obtain ⟨scs, pend, hh, hs⟩ := hs
    obtain ⟨σ', s', ho⟩ := onward_of_eval hN h hh hs.1 (hw.calls .binaryLeft) hy
    exact ⟨σ', s', ho.mirrors, scs, pend, ho.here h hh, hs.2⟩
  | callee =>
    obtain ⟨scs, pend, hh, hs⟩ := hs
    exact ⟨σ, s, h, scs, pend, hh, hs.1⟩
  | arguments hy =>
    obtain ⟨scs, pend, hh, hs⟩ := hs
    obtain ⟨σ', s', ho⟩ := onward_of_eval hN h hh hs.1 (hw.calls .callee) hy
    exact ⟨σ', s', ho.mirrors, scs, pend, ho.here h hh, hs.2⟩
  | invoke hy hys =>
    obtain ⟨scs, pend, hh, hs⟩ := hs
    obtain ⟨σ', s', ho⟩ := onward_of_eval hN h hh hs.1 (hw.calls .callee) hy
    obtain ⟨σ'', s'', ho'⟩ := onward_of_evalAll hN ho.mirrors (ho.here h hh) hs.2
      (hw.calls (.arguments hy)) hys
    exact ⟨σ'', s'', ho'.mirrors, trivial⟩
  | getObject =>
    obtain ⟨scs, pend, hh, hs⟩ := hs
    exact ⟨σ, s, h, scs, pend, hh, hs⟩
  | grouping =>
    obtain ⟨scs, pend, hh, hs⟩ := hs
    exact ⟨σ, s, h, scs, pend, hh, hs⟩
  | logicalLeft =>
    obtain ⟨scs, pend, hh, hs⟩ := hs
    exact ⟨σ, s, h, scs, pend, hh, hs.1⟩
  | logicalRight hy _ =>
    obtain ⟨scs, pend, hh, hs⟩ := hs
    obtain ⟨σ', s', ho⟩ := onward_of_eval hN h hh hs.1 (hw.calls .logicalLeft) hy
    exact ⟨σ', s', ho.mirrors, scs, pend, ho.here h hh, hs.2⟩
  | setObject =>
    obtain ⟨scs, pend, hh, hs⟩ := hs
    exact ⟨σ, s, h, scs, pend, hh, hs.1⟩
  | setValue hy =>
    obtain ⟨scs, pend, hh, hs⟩ := hs
    obtain ⟨σ', s', ho⟩ := onward_of_eval hN h hh hs.1 (hw.calls .setObject) hy
    exact ⟨σ', s', ho.mirrors, scs, pend, ho.here h hh, hs.2⟩
  | operand =>
    obtain ⟨scs, pend, hh, hs⟩ := hs
    exact ⟨σ, s, h, scs, pend, hh, hs⟩
  | first =>
    obtain ⟨scs, pend, hh, hs⟩ := hs
    exact ⟨σ, s, h, scs, pend, hh, hs.1⟩
  | others hy =>
    obtain ⟨scs, pend, hh, hs⟩ := hs
    obtain ⟨σ', s', ho⟩ := onward_of_eval hN h hh hs.1 (hw.calls .first) hy
    exact ⟨σ', s', ho.mirrors, scs, pend, ho.here h hh, hs.2⟩
  | @apply callee f paren args m hf hargs hdepth =>
    have hr := h.callable callee
    rw [hf] at hr
    generalize Callable.of? s callee = b at hr
    cases hr with
    | some hr => exact ⟨σ, { s with depth := s.depth + 1 },
        { h with depth := by rw [h.depth] }, _, hr, hargs⟩
  | function =>
    obtain ⟨g, hr, hargs⟩ := hs
    cases hr with
    | function hf => exact ⟨σ, s, h, _, hf, hargs⟩
  | @initializer i f args m =>
    obtain ⟨g, hr, hargs⟩ := hs
    cases hr with
    | constructor hm =>
      cases hm with
      | some hm =>
        obtain ⟨σ', h', _, hf⟩ := (h.addObject ⟨i, {}⟩).bindMethod hm m.store.objects.size
          (hw.opens .initializer)
        exact ⟨σ', _, h', _, hf, hargs⟩
  | functionBody =>
    obtain ⟨g, hr, hargs⟩ := hs
    exact here_of_call h hr hargs hw
  | @blockBody body m =>
    obtain ⟨scs, hh, hs⟩ := hs
    rw [Stmt.Scoped] at hs
    obtain ⟨σ', h', _, hh'⟩ := Here.enter (.block body) h [] (by simp) hh.chain
      (hw.opens .block)
    exact ⟨σ', _, h', _, hh', hs⟩
  | superclass =>
    obtain ⟨scs, hh, hs⟩ := hs
    rw [Stmt.Scoped] at hs
    exact ⟨σ, s, h, scs, none, hh, hs.2.1⟩
  | expression =>
    obtain ⟨scs, hh, hs⟩ := hs
    rw [Stmt.Scoped] at hs
    exact ⟨σ, s, h, scs, none, hh, hs⟩
  | test =>
    obtain ⟨scs, hh, hs⟩ := hs
    rw [Stmt.Scoped] at hs
    exact ⟨σ, s, h, scs, none, hh, hs.1⟩
  | thenBranch hy _ =>
    obtain ⟨scs, hh, hs⟩ := hs
    rw [Stmt.Scoped] at hs
    obtain ⟨σ', s', ho⟩ := onward_of_eval hN h hh hs.1 (hw.calls .test) hy
    exact ⟨σ', s', ho.mirrors, scs, ho.here h hh, hs.2.1.2⟩
  | elseBranch hy _ =>
    obtain ⟨scs, hh, hs⟩ := hs
    rw [Stmt.Scoped, Stmt.ScopedOpt] at hs
    obtain ⟨σ', s', ho⟩ := onward_of_eval hN h hh hs.1 (hw.calls .test) hy
    exact ⟨σ', s', ho.mirrors, scs, ho.here h hh, hs.2.2.2⟩
  | printed =>
    obtain ⟨scs, hh, hs⟩ := hs
    rw [Stmt.Scoped] at hs
    exact ⟨σ, s, h, scs, none, hh, hs⟩
  | returned =>
    obtain ⟨scs, hh, hs⟩ := hs
    rw [Stmt.Scoped] at hs
    exact ⟨σ, s, h, scs, none, hh, hs⟩
  | @variableValue x e m =>
    obtain ⟨scs, hh, hs⟩ := hs
    rw [Stmt.Scoped] at hs
    cases scs with
    | nil => exact ⟨σ, s, h, [], none, hh, hs.2⟩
    | cons sc outer =>
      obtain ⟨σ', h', _, hh'⟩ := hh.reserve h hs.1 hh.isLocal
      exact ⟨σ', _, h'.relocate m.env _ _, sc :: outer, some x.lexeme, hh', hs.2⟩
  | loopTest =>
    obtain ⟨scs, hh, hs⟩ := hs
    rw [Stmt.Scoped] at hs
    exact ⟨σ, s, h, scs, none, hh, hs.1⟩
  | loopBody hy _ =>
    obtain ⟨scs, hh, hs⟩ := hs
    rw [Stmt.Scoped] at hs
    obtain ⟨σ', s', ho⟩ := onward_of_eval hN h hh hs.1 (hw.calls .loopTest) hy
    exact ⟨σ', s', ho.mirrors, scs, ho.here h hh, hs.2.2⟩
  | loopAgain hy hv hys =>
    obtain ⟨scs, hh, hs⟩ := hs
    have hs' := hs
    rw [Stmt.Scoped] at hs'
    obtain ⟨σ', s', ho⟩ := onward_of_eval hN h hh hs'.1 (hw.calls .loopTest) hy
    obtain ⟨σ'', s'', h'', hh''⟩ := here_of_exec hN ho.mirrors (ho.here h hh) hs'.2.2
      (hw.calls (.loopBody hy hv)) hys
    rw [Stmt.after, hs'.2.1] at hh''
    exact ⟨σ'', s'', h'', scs, hh'', hs⟩
  | firstStatement =>
    obtain ⟨scs, hh, hs⟩ := hs
    rw [Stmt.ScopedAll] at hs
    exact ⟨σ, s, h, scs, hh, hs.1⟩
  | otherStatements hy =>
    obtain ⟨scs, hh, hs⟩ := hs
    rw [Stmt.ScopedAll] at hs
    obtain ⟨σ', s', h', hh'⟩ := here_of_exec hN h hh hs.1 (hw.calls .firstStatement) hy
    exact ⟨σ', s', h', _, hh', hs.2⟩

/-- Every moment of a run has its place. -/
theorem Matched.visits (hN : ∀ p, N p → p.Resolved d) {M M' : Moment ν} (hM : Matched N O M)
    (hw : Within d O M) (hv : Visits d M M') : Matched N O M' ∧ Within d O M' := by
  induction hv with
  | refl => exact ⟨hM, hw⟩
  | tail _ hc ih => exact ⟨ih.1.calls hN ih.2 hc, ih.2.calls hc⟩

end

end Lox.Lexical
