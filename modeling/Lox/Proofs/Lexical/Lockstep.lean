import Lox.Proofs.Lexical.Declarations

/-!
# Lockstep

With the same fuel, the machine with frames and distances and the evaluator with cells and names go
through every expression, call and statement together: both finish with the same value, both stop at
the same error, or both run out of fuel. The induction is on the fuel, and `Lockstep` holds the seven
statements that it carries, one for each of the functions that call one another.
-/

namespace Lox.Lexical

section
variable (N : Place ν → Prop) (O : FrameId → Site ν → Prop)

/-- Two statements agree; behind them, both sides stand in the scopes given. -/
abbrev Executes (σ : Slots) (m : Machine ν) (scs : Scopes ν) :
    Lox.Result ν Flow → Result ν Flow → Prop :=
  Agree (fun _ m' s' => ∃ σ', Moved N O (· ≠ m.env) σ m σ' m' s' ∧ Here O σ' scs none m' s')
    (Halted N O m)

/-- Two lists of statements agree; where they end does not matter. -/
abbrev ExecutesAll (σ : Slots) (m : Machine ν) : Lox.Result ν Flow → Result ν Flow → Prop :=
  Agree (fun _ m' s' => ∃ σ', Moved N O (· ≠ m.env) σ m σ' m' s') (Halted N O m)

variable (d : Distances ν)

/-- Both sides agree on everything that needs no more than `n` steps of fuel. -/
structure Lockstep (n : Nat) : Prop where
  eval {σ : Slots} {scs : Scopes ν} {pend : Option String} {m : Machine ν} {s : State ν} (e : Expr ν) :
    Mirrors N O σ m s → Here O σ scs pend m s → e.Scoped N scs pend → Within d O (.eval e, m) →
    Evaluates N O σ m s (Exec.eval d n e m) (Run.eval n e s)
  evalAll {σ : Slots} {scs : Scopes ν} {pend : Option String} {m : Machine ν} {s : State ν}
      (es : List (Expr ν)) :
    Mirrors N O σ m s → Here O σ scs pend m s → Expr.ScopedAll N scs pend es →
    Within d O (.evalAll es, m) →
    Evaluates N O σ m s (Exec.evalAll d n es m) (Run.evalAll n es s)
  invoke {σ : Slots} {m : Machine ν} {s : State ν} (paren : Token) (callee : Value)
      (args : List Value) :
    Mirrors N O σ m s → Within d O (.invoke paren callee args, m) →
    Evaluates N O σ m s (Exec.invoke d n paren callee args m) (Run.invoke n paren callee args s)
  apply {σ : Slots} {m : Machine ν} {s : State ν} {f : Lox.Callable ν} {g : Callable ν}
      (args : List Value) :
    Mirrors N O σ m s → CallableRel N O σ m.store.frames f g → args.length = f.arity →
    Within d O (.apply f args, m) →
    Evaluates N O σ m s (Exec.apply d n f args m) (Run.apply n g args s)
  applyFunction {σ : Slots} {m : Machine ν} {s : State ν} {f : Lox.Function ν} {g : Function ν}
      (args : List Value) :
    Mirrors N O σ m s → FunctionRel N O σ m.store.frames f g → args.length = f.arity →
    Within d O (.applyFunction f args, m) →
    Evaluates N O σ m s (Exec.applyFunction d n f args m) (Run.applyFunction n g args s)
  exec {σ : Slots} {scs : Scopes ν} {m : Machine ν} {s : State ν} (t : Stmt ν) :
    Mirrors N O σ m s → Here O σ scs none m s → t.Scoped N scs → Within d O (.exec t, m) →
    Executes N O σ m (t.after scs) (Exec.exec d n t m) (Run.exec n t s)
  execAll {σ : Slots} {scs : Scopes ν} {m : Machine ν} {s : State ν} (ts : List (Stmt ν)) :
    Mirrors N O σ m s → Here O σ scs none m s → Stmt.ScopedAll N scs ts →
    Within d O (.execAll ts, m) →
    ExecutesAll N O σ m (Exec.execAll d n ts m) (Run.execAll n ts s)

end

section
variable {N : Place ν → Prop} {O : FrameId → Site ν → Prop} {d : Distances ν} {σ σ' : Slots}
  {m m' : Machine ν} {s s' : State ν} {scs scs' : Scopes ν} {pend : Option String} {n : Nat}

/-! ## Expressions -/

theorem Lockstep.eval_succ (ih : Lockstep N O d n) (hN : ∀ p, N p → p.Resolved d) (e : Expr ν)
    (h : Mirrors N O σ m s) (hh : Here O σ scs pend m s) (hs : e.Scoped N scs pend)
    (hw : Within d O (.eval e, m)) :
    Evaluates N O σ m s (Exec.eval d (n + 1) e m) (Run.eval (n + 1) e s) := by
  cases e with
  | assign k x e =>
    rw [Exec.eval, Run.eval]
    refine Evaluates.bind (ih.eval e h hh hs.1 (hw.calls .assignValue)) ?_
    intro v σ₁ m₁ s₁ _ ho
    have hd : d k = if pend = some x.lexeme then some 0 else scs.distance? x.lexeme := hN _ hs.2
    rw [hd]
    refine Evaluates.bind (assignName_agrees ho.mirrors (ho.here h hh) x v) ?_
    intro _ _ _ _ _ ho'
    exact .pure ho'.mirrors v
  | binary l op r =>
    rw [Exec.eval, Run.eval]
    refine Evaluates.bind (ih.eval l h hh hs.1 (hw.calls .binaryLeft)) ?_
    intro a σ₁ m₁ s₁ hx ho
    refine Evaluates.bind (ih.eval r ho.mirrors (ho.here h hh) hs.2
      (hw.calls (.binaryRight ⟨n, hx⟩))) ?_
    intro b _ _ _ _ ho'
    exact .liftAt ho'.mirrors op _
  | call f paren args =>
    rw [Exec.eval, Run.eval]
    refine Evaluates.bind (ih.eval f h hh hs.1 (hw.calls .callee)) ?_
    intro v σ₁ m₁ s₁ hx ho
    refine Evaluates.bind (ih.evalAll args ho.mirrors (ho.here h hh) hs.2
      (hw.calls (.arguments ⟨n, hx⟩))) ?_
    intro vs _ _ _ hxs ho'
    exact ih.invoke paren v vs ho'.mirrors (hw.calls (.invoke ⟨n, hx⟩ ⟨n, hxs⟩))
  | get o x =>
    rw [Exec.eval, Run.eval]
    refine Evaluates.bind (ih.eval o h hh hs (hw.calls .getObject)) ?_
    intro v σ₁ m₁ s₁ hx ho
    cases v with
    | objectRef i =>
      exact getProperty_agrees ho.mirrors i x fun f hf => hw.opens (.property ⟨n, hx⟩ hf)
    | _ => exact .throwAt ho.mirrors x .noProperties
  | grouping e =>
    rw [Exec.eval, Run.eval]
    exact ih.eval e h hh hs (hw.calls .grouping)
  | literal v =>
    rw [Exec.eval, Run.eval]
    exact .pure h _
  | logical l op r =>
    rw [Exec.eval, Run.eval]
    refine Evaluates.bind (ih.eval l h hh hs.1 (hw.calls .logicalLeft)) ?_
    intro a σ₁ m₁ s₁ hx ho
    by_cases ha : a.truthy = op.is .orKw
    · simp only [ha, ↓reduceIte]
      exact .pure ho.mirrors a
    · simp only [ha, ↓reduceIte]
      exact ih.eval r ho.mirrors (ho.here h hh) hs.2 (hw.calls (.logicalRight ⟨n, hx⟩ ha))
  | set o x e =>
    rw [Exec.eval, Run.eval]
    refine Evaluates.bind (ih.eval o h hh hs.1 (hw.calls .setObject)) ?_
    intro v σ₁ m₁ s₁ hx ho
    cases v with
    | objectRef i =>
      refine Evaluates.bind (ih.eval e ho.mirrors (ho.here h hh) hs.2
        (hw.calls (.setValue ⟨n, hx⟩))) ?_
      intro w _ _ _ _ ho'
      exact .done ⟨_, ⟨ho'.mirrors.setField i x.lexeme w, .refl, rfl⟩, rfl, rfl⟩
    | _ => exact .throwAt ho.mirrors x .noFields
  | superRef k kw x =>
    rw [Exec.eval, Run.eval]
    obtain ⟨⟨hp, hd⟩, ht, hj⟩ := hN _ hs
    simp only at hp hd ht hj
    rw [hd] at hj ⊢
    refine superMethod_agrees h hh kw x hp ht hj ?_
    intro j p i f hk hsup hthis hf
    exact hw.opens (.superclass (hd.trans hk) hsup hthis hf)
  | thisRef k kw =>
    rw [Exec.eval, Run.eval]
    obtain ⟨hp, hd⟩ := hN _ hs
    simp only at hp hd
    rw [hd]
    exact readName_agrees h hh kw hp
  | unary op e =>
    rw [Exec.eval, Run.eval]
    refine Evaluates.bind (ih.eval e h hh hs (hw.calls .operand)) ?_
    intro a _ _ _ _ ho
    exact .liftAt ho.mirrors op _
  | «variable» k x =>
    rw [Exec.eval, Run.eval]
    obtain ⟨hp, hd⟩ := hN _ hs
    simp only at hp hd
    rw [hd]
    exact readName_agrees h hh x hp

theorem Lockstep.evalAll_succ (ih : Lockstep N O d n) (es : List (Expr ν)) (h : Mirrors N O σ m s)
    (hh : Here O σ scs pend m s) (hs : Expr.ScopedAll N scs pend es)
    (hw : Within d O (.evalAll es, m)) :
    Evaluates N O σ m s (Exec.evalAll d (n + 1) es m) (Run.evalAll (n + 1) es s) := by
  cases es with
  | nil =>
    rw [Exec.evalAll, Run.evalAll]
    exact .pure h []
  | cons e es =>
    rw [Exec.evalAll, Run.evalAll]
    refine Evaluates.bind (ih.eval e h hh hs.1 (hw.calls .first)) ?_
    intro v σ₁ m₁ s₁ hx ho
    refine Evaluates.bind (ih.evalAll es ho.mirrors (ho.here h hh) hs.2
      (hw.calls (.others ⟨n, hx⟩))) ?_
    intro vs _ _ _ _ ho'
    exact .pure ho'.mirrors (v :: vs)

/-! ## Frames of their own -/

/-- A scope is entered with its names declared, and left again. -/
theorem enter_agrees (site : Site ν) {x : Exec ν Flow} {y : Run ν Flow} (h : Mirrors N O σ m s)
    (pairs : List (String × Value)) (hnd : (pairs.map Prod.fst).Nodup) {e : FrameId} {names : Names}
    (hc : Chain O σ m.store.frames e scs names) (ho : O m.store.frames.cells.size site)
    (hbody : ∀ σ' s', Mirrors N O σ' (m.enter e (Table.empty.insertAll pairs)) s' →
      Here O σ' (⟨site, (pairs.map Prod.fst).reverse⟩ :: scs) none
        (m.enter e (Table.empty.insertAll pairs)) s' →
      ExecutesAll N O σ' (m.enter e (Table.empty.insertAll pairs))
        (x (m.enter e (Table.empty.insertAll pairs))) (y s')) :
    Evaluates N O σ m s
      (Exec.inFrame m.store.frames.cells.size x
        { m with store := (m.store.addFrame ⟨Table.empty.insertAll pairs, some e⟩).2 })
      (Run.inScope (s.addCells pairs names).1 y (s.addCells pairs names).2) := by
  obtain ⟨σ₁, h₁, hg₁, hh₁⟩ := Here.enter site h pairs hnd hc ho
  obtain ⟨cells, hcells⟩ := addCells_cells s pairs names
  have hrun := Agree.inScope (Agree.inFrame (hbody σ₁ _ h₁ hh₁)
    (m := { m with store := (m.store.addFrame ⟨Table.empty.insertAll pairs, some e⟩).2 }))
  refine hrun.mono ?_ ?_
  · rintro _ _ _ ⟨s₂, ⟨m₂, ⟨σ₂, hmove⟩, rfl⟩, rfl⟩
    refine ⟨σ₂, ⟨hmove.mirrors.relocate m.env _ _, hg₁.trans_new hmove.grows, rfl⟩, ?_, ?_⟩
    · rw [hcells]
    · rw [hcells]
  · rintro _ _ ⟨s₂, ⟨m₂, ⟨_, σ₂, h₂⟩, rfl⟩, rfl⟩
    exact ⟨rfl, σ₂, h₂.relocate m.env _ _⟩

/-! ## Calls -/

theorem CallableRel.arity {fr : Frames} {f : Lox.Callable ν} {g : Callable ν}
    (h : CallableRel N O σ fr f g) : g.arity = f.arity := by
  cases h with
  | native f => rfl
  | function hf =>
    obtain ⟨_, hc, _⟩ := hf
    simp [Callable.arity, Lox.Callable.arity, Lox.Function.arity, hc.1]
  | constructor hm =>
    cases hm with
    | none => rfl
    | some hm =>
      obtain ⟨_, hc, _⟩ := hm
      simp [Callable.arity, Lox.Callable.arity, Lox.Function.arity, hc.1]

theorem Lockstep.invoke_succ (ih : Lockstep N O d n) (paren : Token) (callee : Value)
    (args : List Value) (h : Mirrors N O σ m s) (hw : Within d O (.invoke paren callee args, m)) :
    Evaluates N O σ m s (Exec.invoke d (n + 1) paren callee args m)
      (Run.invoke (n + 1) paren callee args s) := by
  rw [Exec.invoke, Run.invoke]
  simp only [Exec.bind_apply, Exec.read, Run.bind_apply, Run.read]
  have hr := h.callable callee
  generalize hf : Lox.Callable.of? m.store callee = a at hr
  generalize Callable.of? s callee = b at hr
  cases hr with
  | none => exact .throwAt h paren .notCallable
  | @some f g hr =>
    simp only [hr.arity]
    by_cases hargs : args.length = f.arity
    · simp only [hargs, ne_eq, not_true_eq_false, ↓reduceIte, Exec.bind_apply, Exec.read,
        Run.bind_apply, Run.read, h.depth]
      by_cases hdepth : maxCallDepth ≤ m.depth
      · simp only [hdepth, ↓reduceIte]
        exact .throwAt h paren .stackOverflow
      · simp only [hdepth, ↓reduceIte]
        have h' : Mirrors N O σ { m with depth := m.depth + 1 } { s with depth := s.depth + 1 } :=
          { h with depth := by rw [h.depth] }
        have hrun := Agree.deeper (ih.apply args h' hr hargs
          (hw.calls (.apply hf hargs (Nat.lt_of_not_le hdepth))))
        refine hrun.mono ?_ ?_
        · rintro _ _ _ ⟨m₁, s₁, ⟨σ', ho⟩, rfl, rfl⟩
          exact ⟨σ', ⟨{ ho.mirrors with depth := by rw [ho.mirrors.depth] }, ho.grows, ho.env⟩,
            ho.names, ho.isLocal⟩
        · rintro _ _ ⟨m₁, s₁, ⟨he, σ', h₁⟩, rfl, rfl⟩
          exact ⟨he, σ', { h₁ with depth := by rw [h₁.depth] }⟩
    · simp only [ne_eq, hargs, not_false_eq_true, ↓reduceIte]
      exact .throwAt h paren _

theorem Lockstep.apply_succ (ih : Lockstep N O d n) {f : Lox.Callable ν} {g : Callable ν}
    (args : List Value) (h : Mirrors N O σ m s) (hr : CallableRel N O σ m.store.frames f g)
    (hargs : args.length = f.arity) (hw : Within d O (.apply f args, m)) :
    Evaluates N O σ m s (Exec.apply d (n + 1) f args m) (Run.apply (n + 1) g args s) := by
  cases hr with
  | native f =>
    cases f with
    | clock =>
      rw [Exec.apply, Run.apply]
      unfold Exec.readClock Run.readClock
      rw [h.clock]
      exact .done ⟨σ, ⟨{ h with clock := rfl }, .refl, rfl⟩, rfl, rfl⟩
  | function hf =>
    rw [Exec.apply, Run.apply]
    exact ih.applyFunction args h hf hargs (hw.calls .function)
  | @constructor f g i hm =>
    have hsize : s.objects.size = m.store.objects.size := by rw [h.objects]
    have h₁ := h.addObject ⟨i, {}⟩
    cases hm with
    | none =>
      rw [Exec.apply, Run.apply]
      have hrun : Evaluates N O σ m s (.done (Value.objectRef m.store.objects.size) (m.construct i))
          (.done (Value.objectRef s.objects.size) { s with objects := s.objects.push ⟨i, {}⟩ }) := by
        rw [hsize]
        exact .done ⟨σ, ⟨h₁, .refl, rfl⟩, rfl, rfl⟩
      exact hrun
    | @some f g hm =>
      have hexec : Exec.apply d (n + 1) (.constructor i (some f)) args m =
          (Exec.applyFunction d n ((m.construct i).store.bindMethod f m.store.objects.size).1 args
            >>= fun _ => pure (.objectRef m.store.objects.size))
          ((m.construct i).bindMethod f m.store.objects.size) := by
        rw [Exec.apply]
        rfl
      have hrun : Run.apply (n + 1) (.constructor i (some g)) args s =
          (Run.applyFunction n ({ s with objects := s.objects.push ⟨i, {}⟩ }.bindMethod g
              s.objects.size).1 args >>= fun _ => pure (.objectRef s.objects.size))
          ({ s with objects := s.objects.push ⟨i, {}⟩ }.bindMethod g s.objects.size).2 := by
        rw [Run.apply]
        rfl
      rw [hexec, hrun, hsize]
      obtain ⟨σ', h₂, hg, hf⟩ := h₁.bindMethod hm m.store.objects.size (hw.opens .initializer)
      have ho : Onward N O σ m s σ' ((m.construct i).bindMethod f m.store.objects.size)
          ({ s with objects := s.objects.push ⟨i, {}⟩ }.bindMethod g m.store.objects.size).2 :=
        ⟨⟨h₂, hg, rfl⟩, rfl, rfl⟩
      refine .trans ho (Evaluates.bind (ih.applyFunction args h₂ hf hargs
        (hw.calls .initializer)) ?_)
      intro _ _ _ _ _ ho'
      exact .pure ho'.mirrors _

/-- The parameters of a function are distinct, and a call gives each of them an argument. -/
theorem params_zip {decl : FunDecl (Stmt ν)} (hs : Stmt.ScopedFun N scs decl) {args : List Value}
    (hargs : args.length = decl.params.length) :
    (((decl.params.map Token.lexeme).zip args).map Prod.fst).Nodup ∧
      (((decl.params.map Token.lexeme).zip args).map Prod.fst).reverse =
        (LexicalScope.ofFunction decl).names := by
  have hzip : ((decl.params.map Token.lexeme).zip args).map Prod.fst =
      decl.params.map Token.lexeme := List.map_fst_zip (by simp [hargs])
  obtain ⟨x, params, body⟩ := decl
  rw [Stmt.ScopedFun] at hs
  rw [hzip]
  exact ⟨hs.1, rfl⟩

theorem scopedAll_of_scopedFun {decl : FunDecl (Stmt ν)} (hs : Stmt.ScopedFun N scs decl) :
    Stmt.ScopedAll N (.ofFunction decl :: scs) decl.body := by
  obtain ⟨x, params, body⟩ := decl
  rw [Stmt.ScopedFun] at hs
  exact hs.2.2

/-- The object that an initializer is bound to is found in the frame around its own. -/
theorem readThis_agrees {outer : Scopes ν} {f : FrameId} {names : Names} {decl : FunDecl (Stmt ν)}
    (h : Mirrors N O σ m s) (hc : Chain O σ m.store.frames f (.ofReceiver decl :: outer) names)
    (line : Nat) :
    Evaluates N O σ m s
      (Exec.liftAt (.ident "this" line) (m.store.frames.getAt f 0 "this") m)
      (Run.inScope names (Run.readName (.ident "this" line)) s) := by
  have hd : Scopes.distance? (.ofReceiver decl :: outer) "this" = some 0 := by
    simp [Scopes.distance?, LexicalScope.ofReceiver, List.findIdx?_cons]
  obtain ⟨g, _, c, ha, _, _, _, hslot, hb, hl⟩ := hc.find hd
  obtain ⟨v, hv⟩ := Option.isSome_iff_exists.1 hb
  have hcell : s.cell? c = some v := (h.slot_value g _ c hslot).trans hv
  have hs : Run.inScope names (Run.readName (.ident "this" line)) s = .done v s := by
    simp only [Run.inScope, Run.readName, Token.ident, Token.ofSymbol, hl]
    have : State.cell? { s with names, isLocal := true } c = some v := hcell
    rw [this]
  rw [Frames.getAt_eq_ok ha hv, hs]
  exact .pure h v

theorem Lockstep.applyFunction_succ (ih : Lockstep N O d n) {f : Lox.Function ν} {g : Function ν}
    (args : List Value) (h : Mirrors N O σ m s) (hr : FunctionRel N O σ m.store.frames f g)
    (hargs : args.length = f.arity) (hw : Within d O (.applyFunction f args, m)) :
    Evaluates N O σ m s (Exec.applyFunction d (n + 1) f args m)
      (Run.applyFunction (n + 1) g args s) := by
  obtain ⟨scs, ⟨hdecl, hinit, hchain⟩, hs, hthis⟩ := hr
  obtain ⟨hnd, hnames⟩ := params_zip hs hargs
  have hbody := scopedAll_of_scopedFun hs
  have hcall : Evaluates N O σ m s _ _ :=
    enter_agrees (.function f.decl) (x := Exec.execAll d n f.decl.body)
      (y := Run.execAll n f.decl.body) h _ hnd hchain (hw.opens .function) (by
        intro σ' s' h' hh'
        rw [hnames] at hh'
        exact ih.execAll f.decl.body h' hh' hbody (hw.calls .functionBody))
  have hexec : Exec.applyFunction d (n + 1) f args m =
      (Exec.inFrame m.store.frames.cells.size (Exec.execAll d n f.decl.body) >>= fun flow =>
        if f.isInitializer then fun m' => Exec.liftAt (.ident "this" f.decl.name.line)
          (m'.store.frames.getAt f.closure 0 "this") m'
        else pure flow.value)
      { m with store := (m.store.addFrame ⟨f.locals args, some f.closure⟩).2 } := by
    rw [Exec.applyFunction]
    rfl
  have hrun : Run.applyFunction (n + 1) g args s =
      (Run.inScope (s.addCells ((f.decl.params.map Token.lexeme).zip args) g.names).1
        (Run.execAll n f.decl.body) >>= fun flow =>
        if f.isInitializer then
          Run.inScope g.names (Run.readName (.ident "this" f.decl.name.line))
        else pure flow.value)
      (s.addCells ((f.decl.params.map Token.lexeme).zip args) g.names).2 := by
    rw [Run.applyFunction, hdecl, hinit]
    rfl
  rw [hexec, hrun]
  refine Agree.bind hcall ?_ (fun _ _ hF => hF)
  rintro flow m' s' _ ⟨σ', ho⟩
  refine Evaluates.trans ho ?_
  by_cases hi : f.isInitializer = true
  · obtain ⟨outer, rfl⟩ := hthis hi
    simp only [hi, ↓reduceIte]
    exact readThis_agrees ho.mirrors (hchain.mono ho.grows) _
  · simp only [hi, Bool.false_eq_true, ↓reduceIte]
    exact .pure ho.mirrors _

/-! ## Statements -/

namespace Executes

theorem of_evaluates {r : Lox.Result ν Flow} {R : Result ν Flow} (h : Mirrors N O σ m s)
    (hh : Here O σ scs none m s) (he : Evaluates N O σ m s r R) : Executes N O σ m scs r R := by
  refine he.mono ?_ (fun _ _ hF => hF)
  rintro _ _ _ ⟨σ', ho⟩
  exact ⟨σ', ⟨ho.mirrors, ho.grows.weaken fun _ _ _ => trivial, ho.env⟩, ho.here h hh⟩

theorem trans {r : Lox.Result ν Flow} {R : Result ν Flow} (hm : Moved N O (· ≠ m.env) σ m σ' m' s')
    (h : Executes N O σ' m' scs r R) : Executes N O σ m scs r R := by
  refine h.mono ?_ ?_
  · rintro _ _ _ ⟨σ'', hm', hh⟩
    rw [hm.env] at hm'
    exact ⟨σ'', hm.trans hm', hh⟩
  · rintro _ _ ⟨he, hF⟩
    exact ⟨he.trans hm.env, hF⟩

/-- A statement goes on from where an expression left off. -/
theorem bind {x : Exec ν α} {y : Run ν α} {f : α → Exec ν Flow} {g : α → Run ν Flow}
    (h : Evaluates N O σ m s (x m) (y s))
    (hf : ∀ a σ' m' s', x m = .done a m' → Onward N O σ m s σ' m' s' →
      Executes N O σ' m' scs (f a m') (g a s')) :
    Executes N O σ m scs ((x >>= f) m) ((y >>= g) s) := by
  refine Agree.bind h ?_ (fun _ _ hF => hF)
  rintro a m' s' hx ⟨σ', ho⟩
  exact trans ⟨ho.mirrors, ho.grows.weaken fun _ _ _ => trivial, ho.env⟩ (hf a σ' m' s' hx ho)

/-- A statement goes on from where another one left off. -/
theorem andThen {x : Exec ν Flow} {y : Run ν Flow} {f : Flow → Exec ν Flow} {g : Flow → Run ν Flow}
    (h : Executes N O σ m scs' (x m) (y s))
    (hf : ∀ flow σ' m' s', x m = .done flow m' → Moved N O (· ≠ m.env) σ m σ' m' s' →
      Here O σ' scs' none m' s' → Executes N O σ' m' scs (f flow m') (g flow s')) :
    Executes N O σ m scs ((x >>= f) m) ((y >>= g) s) := by
  refine Agree.bind h ?_ (fun _ _ hF => hF)
  rintro a m' s' hx ⟨σ', hm, hh⟩
  exact trans hm (hf a σ' m' s' hx hm hh)

theorem pure (h : Mirrors N O σ m s) (hh : Here O σ scs none m s) (flow : Flow) :
    Executes N O σ m scs ((pure flow : Exec ν Flow) m) ((pure flow : Run ν Flow) s) :=
  of_evaluates h hh (.pure h flow)

end Executes

theorem printLine_agrees (h : Mirrors N O σ m s) (keyword : Token) (text : String) :
    Evaluates N O σ m s (Exec.printLine keyword text m) (Run.printLine keyword text s) := by
  unfold Exec.printLine Run.printLine
  rw [h.output]
  obtain ⟨whole, output⟩ := m.output.write (text ++ "\n").toUTF8
  cases whole with
  | true => exact .done ⟨σ, ⟨{ h with output := rfl }, .refl, rfl⟩, rfl, rfl⟩
  | false => exact .failed ⟨keyword, .runtime .outputClosed⟩ ⟨rfl, σ, { h with output := rfl }⟩

/-- The initializer of a local variable runs with the cell of the variable in place. -/
theorem initialise_agrees {sc : LexicalScope ν} {outer : Scopes ν} {x : String} {value : Exec ν Value}
    {value' : Run ν Value} (h : Mirrors N O σ m s) (hh : Here O σ (sc :: outer) none m s)
    (hx : Scopes.Free x (sc :: outer))
    (hv : ∀ σ' s', Mirrors N O σ' m s' → Here O σ' (sc :: outer) (some x) m s' →
      Evaluates N O σ' m s' (value m) (value' s')) :
    Agree (fun _ m' s' => ∃ σ', Moved N O (· ≠ m.env) σ m σ' m' s' ∧
      Here O σ' (Scopes.declare x (sc :: outer)) none m' s') (Halted N O m)
      ((value >>= Exec.define x) m) (Run.initialise x value' s) := by
  have hlocal : s.isLocal = true := hh.isLocal
  obtain ⟨σ₁, h₁, hg₁, hh₁⟩ := hh.reserve h hx hlocal
  have hrun : Run.initialise x value' s =
      (Run.inScope ((x, s.cells.size) :: s.names) value' >>= fun v => Run.update fun s' => ((),
        { s' with cells := s'.cells.setIfInBounds s.cells.size (some v),
                  names := (x, s.cells.size) :: s.names }))
      { s with cells := s.cells.push none } := rfl
  rw [hrun]
  refine Agree.bind (Agree.inScope (hv σ₁ _ (h₁.relocate m.env _ true) hh₁)) ?_ ?_
  · rintro v m' _ _ ⟨s₂, ⟨σ', ho⟩, rfl⟩
    have hnames : s₂.names = (x, s.cells.size) :: s.names := ho.names
    have hlocal' : s₂.isLocal = s.isLocal := ho.isLocal.trans hlocal.symm
    obtain ⟨hmove, hhere⟩ := (ho.here (h₁.relocate m.env _ true) hh₁).fill ho.mirrors hnames v
    have hgrows : Grows (· ≠ m.env) σ m.store.frames σ' m'.store.frames :=
      hg₁.trans (ho.grows.weaken fun _ _ _ => trivial)
    have henv : m'.env = m.env := ho.env
    have hdefine := hmove.grows.weaken (q := (· ≠ m.env)) fun f _ hf => henv ▸ hf
    have hsees := hhere.sees
    simp only [hnames] at hsees
    exact .done ⟨σ', ⟨hmove.mirrors.relocate m'.env _ _, hgrows.trans hdefine, ho.env⟩,
      hlocal'.symm.trans hhere.isLocal, hhere.slots, hsees⟩
  · rintro m' _ ⟨s₂, ⟨he, σ', h₂⟩, rfl⟩
    exact ⟨he, σ', h₂.relocate m'.env _ _⟩

/-- A variable with an initializer: at the top level it is declared afterwards, and in a scope its
cell is there before. -/
theorem Lockstep.varDecl_succ (ih : Lockstep N O d n) (x : Token) (e : Expr ν)
    (h : Mirrors N O σ m s) (hh : Here O σ scs none m s) (hx : scs.Free x.lexeme)
    (hs : e.Scoped N scs (scs.waiting x.lexeme)) (hw : Within d O (.exec (.varDecl x (some e)), m)) :
    Executes N O σ m (scs.declare x.lexeme) (Exec.exec d (n + 1) (.varDecl x (some e)) m)
      (Run.exec (n + 1) (.varDecl x (some e)) s) := by
  have hw' := hw.calls .variableValue
  have hlocal := hh.isLocal
  rw [Exec.exec, Run.exec]
  simp only [Run.bind_apply (Run.read _), Run.read]
  cases scs with
  | nil =>
    simp only [List.isEmpty_nil, Bool.not_true] at hlocal
    simp only [hlocal, Bool.false_eq_true, ↓reduceIte]
    refine Executes.bind (ih.eval e h hh hs hw') ?_
    intro v σ' m' s' _ ho
    obtain ⟨σ'', hmove, hhere⟩ := (ho.here h hh).declare ho.mirrors hx v
    exact .done ⟨σ'', hmove, hhere⟩
  | cons sc outer =>
    simp only [List.isEmpty_cons, Bool.not_false] at hlocal
    simp only [hlocal, ↓reduceIte]
    have hassoc : (Exec.eval d n e >>= fun v => Exec.define x.lexeme v >>= fun _ => pure .normal) m =
        ((Exec.eval d n e >>= Exec.define x.lexeme) >>= fun _ => pure Flow.normal) m := by
      simp only [Exec.bind_apply]
      cases Exec.eval d n e m <;> rfl
    rw [hassoc]
    refine Agree.bind (initialise_agrees h hh hx fun σ' s' h' hh' => ih.eval e h' hh' hs hw') ?_
      (fun _ _ hF => hF)
    rintro _ m' s' _ ⟨σ', hmove, hhere⟩
    exact .done ⟨σ', hmove, hhere⟩

theorem Lockstep.loop_succ (ih : Lockstep N O d n) (c : Expr ν) (t : Stmt ν)
    (h : Mirrors N O σ m s) (hh : Here O σ scs none m s) (hs : (Stmt.loop c t).Scoped N scs)
    (hw : Within d O (.exec (.loop c t), m)) :
    Executes N O σ m scs (Exec.exec d (n + 1) (.loop c t) m) (Run.exec (n + 1) (.loop c t) s) := by
  have hs' := hs
  rw [Stmt.Scoped] at hs'
  have hafter : t.after scs = scs := by simp [Stmt.after, hs'.2.1]
  rw [Exec.exec, Run.exec]
  refine Executes.bind (ih.eval c h hh hs'.1 (hw.calls .loopTest)) ?_
  intro v σ₁ m₁ s₁ hx ho
  have hh₁ := ho.here h hh
  by_cases hv : v.truthy = true
  · simp only [hv, ↓reduceIte]
    refine Executes.andThen (ih.exec t ho.mirrors hh₁ hs'.2.2 (hw.calls (.loopBody ⟨n, hx⟩ hv))) ?_
    intro flow σ₂ m₂ s₂ hx₂ hmove hhere
    rw [hafter] at hhere
    cases flow with
    | normal =>
      exact ih.exec (.loop c t) hmove.mirrors hhere hs
        (hw.calls (.loopAgain ⟨n, hx⟩ hv ⟨n, hx₂⟩))
    | returned value =>
      exact .done ⟨σ₂, ⟨hmove.mirrors, .refl, rfl⟩, hhere⟩
  · simp only [hv, Bool.false_eq_true, ↓reduceIte]
    exact Executes.pure ho.mirrors hh₁ .normal

theorem Lockstep.conditional_succ (ih : Lockstep N O d n) (c : Expr ν) (t : Stmt ν)
    (u : Option (Stmt ν)) (h : Mirrors N O σ m s) (hh : Here O σ scs none m s)
    (hs : (Stmt.conditional c t u).Scoped N scs) (hw : Within d O (.exec (.conditional c t u), m)) :
    Executes N O σ m scs (Exec.exec d (n + 1) (.conditional c t u) m)
      (Run.exec (n + 1) (.conditional c t u) s) := by
  rw [Stmt.Scoped] at hs
  obtain ⟨hc, ⟨ht, hts⟩, hu⟩ := hs
  have hthen : t.after scs = scs := by simp [Stmt.after, ht]
  have heval := ih.eval c h hh hc (hw.calls .test)
  cases u with
  | none =>
    rw [Exec.exec, Run.exec]
    refine Executes.bind heval ?_
    intro v σ₁ m₁ s₁ hx ho
    by_cases hv : v.truthy = true
    · simp only [hv, ↓reduceIte]
      rw [← hthen]
      exact ih.exec t ho.mirrors (ho.here h hh) hts (hw.calls (.thenBranch ⟨n, hx⟩ hv))
    · simp only [hv, Bool.false_eq_true, ↓reduceIte]
      exact Executes.pure ho.mirrors (ho.here h hh) .normal
  | some u =>
    rw [Stmt.ScopedOpt] at hu
    have helse : u.after scs = scs := by simp [Stmt.after, hu.1]
    rw [Exec.exec, Run.exec]
    refine Executes.bind heval ?_
    intro v σ₁ m₁ s₁ hx ho
    by_cases hv : v.truthy = true
    · simp only [hv, ↓reduceIte]
      rw [← hthen]
      exact ih.exec t ho.mirrors (ho.here h hh) hts (hw.calls (.thenBranch ⟨n, hx⟩ hv))
    · simp only [hv, Bool.false_eq_true, ↓reduceIte]
      rw [← helse]
      exact ih.exec u ho.mirrors (ho.here h hh) hu.2
        (hw.calls (.elseBranch ⟨n, hx⟩ (Bool.eq_false_iff.2 hv)))

/-- The superclass is evaluated first, and then the class is declared. -/
theorem Lockstep.classDecl_succ (ih : Lockstep N O d n) (x : Token) (parent : Option (Expr ν))
    (methods : List (FunDecl (Stmt ν))) (h : Mirrors N O σ m s) (hh : Here O σ scs none m s)
    (hs : (Stmt.classDecl x parent methods).Scoped N scs)
    (hw : Within d O (.exec (.classDecl x parent methods), m)) :
    Executes N O σ m (scs.declare x.lexeme) (Exec.exec d (n + 1) (.classDecl x parent methods) m)
      (Run.exec (n + 1) (.classDecl x parent methods) s) := by
  rw [Stmt.Scoped] at hs
  obtain ⟨hx, hp, hm⟩ := hs
  cases parent with
  | none =>
    obtain ⟨σ', m', s', hexec, hrun, hmove, hhere⟩ :=
      hh.declareClass h x none methods hx hm (fun hf => nomatch hf)
    have he : Exec.exec d (n + 1) (.classDecl x none methods) m = .done .normal m' := by
      rw [Exec.exec]
      simp only [Exec.bind_apply, Exec.pure_apply, hexec]
    have hr : Run.exec (n + 1) (.classDecl x none methods) s = .done .normal s' := by
      rw [Run.exec]
      simp only [Run.bind_apply, Run.pure_apply, hrun]
    rw [he, hr]
    exact .done ⟨σ', hmove, hhere⟩
  | some e =>
    have heval := ih.eval e h hh hp (hw.calls .superclass)
    rw [Exec.exec, Run.exec]
    refine Executes.bind heval ?_
    intro v σ₁ m₁ s₁ hv ho
    cases v with
    | classRef p =>
      obtain ⟨σ', m', s', hexec, hrun, hmove, hhere⟩ :=
        (ho.here h hh).declareClass ho.mirrors x (some p) methods hx hm
          (fun _ => hw.opens (.parent ⟨n, hv⟩))
      simp only [Exec.bind_apply, Exec.pure_apply, hexec, Run.bind_apply, Run.pure_apply, hrun]
      exact .done ⟨σ', hmove, hhere⟩
    | _ => exact .failed ⟨_, .runtime .superclassNotClass⟩ ⟨rfl, σ₁, ho.mirrors⟩

theorem Lockstep.exec_succ (ih : Lockstep N O d n) (t : Stmt ν) (h : Mirrors N O σ m s)
    (hh : Here O σ scs none m s) (hs : t.Scoped N scs) (hw : Within d O (.exec t, m)) :
    Executes N O σ m (t.after scs) (Exec.exec d (n + 1) t m) (Run.exec (n + 1) t s) := by
  cases t with
  | block body =>
    rw [Stmt.Scoped] at hs
    have hexec : Exec.exec d (n + 1) (.block body) m =
        Exec.inFrame m.store.frames.cells.size (Exec.execAll d n body)
          { m with store := (m.store.addFrame ⟨Table.empty.insertAll [], some m.env⟩).2 } := by
      rw [Exec.exec]
      rfl
    have hrun : Run.exec (n + 1) (.block body) s =
        Run.inScope (s.addCells [] s.names).1 (Run.execAll n body) (s.addCells [] s.names).2 := by
      rw [Run.exec]
      rfl
    rw [hexec, hrun]
    refine Executes.of_evaluates h hh (enter_agrees (.block body) h [] (by simp) hh.chain
      (hw.opens .block) ?_)
    intro σ' s' h' hh'
    exact ih.execAll body h' hh' hs (hw.calls .blockBody)
  | classDecl x parent methods => exact ih.classDecl_succ x parent methods h hh hs hw
  | expression e =>
    rw [Stmt.Scoped] at hs
    rw [Exec.exec, Run.exec]
    refine Executes.bind (ih.eval e h hh hs (hw.calls .expression)) ?_
    intro v _ _ _ _ ho
    exact Executes.pure ho.mirrors (ho.here h hh) .normal
  | function decl =>
    rw [Stmt.Scoped] at hs
    obtain ⟨σ', m', s', hexec, hrun, hmove, hhere⟩ := hh.declareFunction h decl hs.1 hs.2
    have he : Exec.exec d (n + 1) (.function decl) m = .done .normal m' := by
      have hstep : Exec.exec d (n + 1) (.function decl) m =
          ((Exec.newFunction ⟨decl, m.env, false⟩ >>= Exec.define decl.name.lexeme) >>=
            fun _ => pure .normal) m := by
        rw [Exec.exec]
        rfl
      rw [hstep, Exec.bind_apply, hexec]
      rfl
    have hr : Run.exec (n + 1) (.function decl) s = .done .normal s' := by
      rw [Run.exec]
      simp only [Run.bind_apply, Run.pure_apply, hrun]
    rw [he, hr]
    exact .done ⟨σ', hmove, hhere⟩
  | conditional c t u => exact ih.conditional_succ c t u h hh hs hw
  | print keyword e =>
    rw [Stmt.Scoped] at hs
    rw [Exec.exec, Run.exec]
    refine Executes.bind (ih.eval e h hh hs (hw.calls .printed)) ?_
    intro v σ₁ m₁ s₁ _ ho
    have hh₁ := ho.here h hh
    simp only [Exec.bind_apply (Exec.read _), Exec.read, Run.bind_apply (Run.read _), Run.read,
      ho.mirrors.text]
    refine Executes.bind (printLine_agrees ho.mirrors keyword _) ?_
    intro _ _ _ _ _ ho'
    exact Executes.pure ho'.mirrors (ho'.here ho.mirrors hh₁) .normal
  | returning keyword value =>
    rw [Stmt.Scoped] at hs
    cases value with
    | none =>
      rw [Exec.exec, Run.exec]
      exact Executes.pure h hh (.returned .nil)
    | some e =>
      rw [Exec.exec, Run.exec]
      refine Executes.bind (ih.eval e h hh hs (hw.calls .returned)) ?_
      intro v _ _ _ _ ho
      exact Executes.pure ho.mirrors (ho.here h hh) (.returned v)
  | varDecl x value =>
    rw [Stmt.Scoped] at hs
    cases value with
    | none =>
      rw [Exec.exec, Run.exec]
      obtain ⟨σ', hmove, hhere⟩ := hh.declare h hs.1 .nil
      exact .done ⟨σ', hmove, hhere⟩
    | some e => exact ih.varDecl_succ x e h hh hs.1 hs.2 hw
  | loop c t => exact ih.loop_succ c t h hh hs hw

theorem Lockstep.execAll_succ (ih : Lockstep N O d n) (ts : List (Stmt ν)) (h : Mirrors N O σ m s)
    (hh : Here O σ scs none m s) (hs : Stmt.ScopedAll N scs ts) (hw : Within d O (.execAll ts, m)) :
    ExecutesAll N O σ m (Exec.execAll d (n + 1) ts m) (Run.execAll (n + 1) ts s) := by
  cases ts with
  | nil =>
    rw [Exec.execAll, Run.execAll]
    exact .done ⟨σ, h, .refl, rfl⟩
  | cons t ts =>
    rw [Stmt.ScopedAll] at hs
    rw [Exec.execAll, Run.execAll]
    refine Agree.bind (ih.exec t h hh hs.1 (hw.calls .firstStatement)) ?_ (fun _ _ hF => hF)
    rintro flow m₁ s₁ hx ⟨σ₁, hmove, hhere⟩
    cases flow with
    | normal =>
      have hrest := ih.execAll ts hmove.mirrors hhere hs.2
        (hw.calls (.otherStatements ⟨n, hx⟩))
      refine hrest.mono ?_ ?_
      · rintro _ _ _ ⟨σ₂, hmove'⟩
        rw [hmove.env] at hmove'
        exact ⟨σ₂, hmove.trans hmove'⟩
      · rintro _ _ ⟨he, hF⟩
        exact ⟨he.trans hmove.env, hF⟩
    | returned value => exact .done ⟨σ₁, hmove⟩

/-- The machine and the evaluator agree, whatever the fuel. -/
theorem lockstep (hN : ∀ p, N p → p.Resolved d) (n : Nat) : Lockstep N O d n := by
  induction n with
  | zero =>
    constructor <;> intros
    · rw [Exec.eval, Run.eval]
      exact .outOfFuel
    · rw [Exec.evalAll, Run.evalAll]
      exact .outOfFuel
    · rw [Exec.invoke, Run.invoke]
      exact .outOfFuel
    · rw [Exec.apply, Run.apply]
      exact .outOfFuel
    · rw [Exec.applyFunction, Run.applyFunction]
      exact .outOfFuel
    · rw [Exec.exec, Run.exec]
      exact .outOfFuel
    · rw [Exec.execAll, Run.execAll]
      exact .outOfFuel
  | succ n ih =>
    exact {
      eval := ih.eval_succ hN
      evalAll := ih.evalAll_succ
      invoke := ih.invoke_succ
      apply := ih.apply_succ
      applyFunction := ih.applyFunction_succ
      exec := ih.exec_succ
      execAll := ih.execAll_succ }

end

end Lox.Lexical
