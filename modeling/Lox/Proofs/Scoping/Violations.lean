import Lox.Parser.Statement
import Lox.Proofs.Scoping.Resolution
import Lox.Proofs.Scoping.Rules
import Lox.Token.Scan

/-!
# The walk reports what the rules forbid

The walk keeps two markers and a stack of scopes that it changes on the way; the rules look at the
surroundings of a use. At every node the former say the same as the latter (`Walk.Stands`), and what is
behind a part of the tree has moved the innermost scope on and nothing else (`Walk.Moves`). So the
reports are those of the rules, in the order of the uses: `walk_reports_violations`.
-/

namespace Lox

namespace Surroundings

variable (xs : List String) (p : Surroundings)

@[simp] theorem body?_declare : (p.declare xs).body? = p.body? := by
  induction p with
  | nil => rfl
  | cons e outer ih =>
    cases e <;> simp_all [declare, body?, List.find?_cons, Enclosure.isBody]

@[simp] theorem class?_declare : (p.declare xs).class? = p.class? := by
  induction p with
  | nil => rfl
  | cons e outer ih =>
    cases e <;> simp_all [declare, class?, List.findSome?_cons, Enclosure.derived?]

@[simp] theorem scope?_declare : (p.declare xs).scope? = p.scope?.map (xs ++ ·) := by
  induction p with
  | nil => rfl
  | cons e outer ih =>
    cases e <;> simp_all [declare, scope?, List.findSome?_cons, Enclosure.names?]

@[simp] theorem initialized?_declare : (p.declare xs).initialized? = p.initialized? := by
  cases p with
  | nil => rfl
  | cons e outer => cases e <;> rfl

@[simp] theorem scope?_scope (names : List String) : scope? (.scope names :: p) = some names := rfl

@[simp] theorem scope?_initializer (x : String) : scope? (.initializer x :: p) = p.scope? := rfl

@[simp] theorem initialized?_scope (names : List String) : initialized? (.scope names :: p) = none := rfl

@[simp] theorem initialized?_initializer (x : String) : initialized? (.initializer x :: p) = some x := rfl

end Surroundings

/-! ## What the markers say -/

/-- The marker for the nearest function. -/
def FunctionContext.ofBody : Option Enclosure → FunctionContext
  | some .function => .function
  | some (.method name) => Resolve.methodContext name
  | _ => .none

/-- The marker for the nearest class. -/
def ClassContext.ofClass : Option Bool → ClassContext
  | .none => .none
  | some false => .plain
  | some true => .derived

namespace Walk

/-- At a use with these surroundings, markers and scopes say what the surroundings are. -/
structure Stands (p : Surroundings) (c : Context) (w : Walk) : Prop where
  inFunction : c.inFunction = .ofBody p.body?
  inClass : c.inClass = .ofClass p.class?
  scopes : p.scope? = none ↔ w.scopes = []
  names : ∀ x, w.innermost? x =
    if x ∈ p.scope?.getD [] then some (decide (p.initialized? ≠ some x)) else none
  waiting : ∀ x ∈ p.initialized?, ∀ names ∈ p.scope?, x ∈ names

/-- The walk has come from one use to a later one: these names are ready in the innermost scope, these
uses were looked at, and all else is as it was. -/
structure Moves (w w' : Walk) (xs : List String) (os : List Occurrence) : Prop where
  outer : w'.scopes.tail = w.scopes.tail
  inner : w'.scopes = [] ↔ w.scopes = []
  names : ∀ x, w'.innermost? x = if x ∈ xs ∧ w.scopes ≠ [] then some true else w.innermost? x
  reports : w'.reports = w.reports ++ os.flatMap Occurrence.reports

variable {p : Surroundings} {c : Context} {w w₁ w₂ : Walk} {xs ys : List String} {os os' : List Occurrence}

theorem noteIf_reports (w : Walk) (b : Bool) (fault : ScopeFault) (t : Token) :
    (w.noteIf b fault t).reports = w.reports ++ (Occurrence.due b fault).map (·.report t) := by
  cases b <;> simp [Walk.noteIf, Walk.note, Occurrence.due]

namespace Moves

/-- Where no name is declared, the scopes stay. -/
theorem of_scopes (hs : w₁.scopes = w.scopes) (hr : w₁.reports = w.reports ++ os.flatMap Occurrence.reports) :
    Moves w w₁ [] os where
  outer := by rw [hs]
  inner := by rw [hs]
  names x := by simp [innermost?, hs]
  reports := hr

theorem refl (w : Walk) : Moves w w [] [] := of_scopes rfl (by simp)

theorem trans (h : Moves w w₁ xs os) (h' : Moves w₁ w₂ ys os') : Moves w w₂ (ys ++ xs) (os ++ os') where
  outer := h'.outer.trans h.outer
  inner := h'.inner.trans h.inner
  names x := by
    have hinner := h.inner
    rw [h'.names, h.names]
    grind
  reports := by rw [h'.reports, h.reports, List.flatMap_append, List.append_assoc]

/-- What was declared inside a scope is gone behind it. -/
theorem inScope (h : Moves w.openScope w₁ xs os) : Moves w w₁.closeScope [] os :=
  of_scopes h.outer h.reports

theorem note {fault : ScopeFault} {t : Token} {o : Occurrence} (ho : o.reports = [fault.report t]) :
    Moves w (w.note fault t) [] [o] :=
  of_scopes rfl (by simp [Walk.note, ho])

theorem noteIf {b : Bool} {fault : ScopeFault} {t : Token} {o : Occurrence}
    (ho : o.reports = (Occurrence.due b fault).map (·.report t)) : Moves w (w.noteIf b fault t) [] [o] :=
  of_scopes (noteIf_scopes w b fault t) (by rw [noteIf_reports, List.flatMap_singleton, ho])

/-- A distance that is recorded shows neither in the scopes nor in the reports. -/
theorem bindName (h : Moves w w₁ xs os) (k : NodeId) (x : String) : Moves w (w₁.bindName k x) xs os := by
  unfold Walk.bindName
  split <;> exact ⟨h.outer, h.inner, h.names, h.reports⟩

end Moves

namespace Stands

/-- Where no name is declared, the surroundings stay. -/
theorem along (h : Stands p c w) (hm : Moves w w₁ [] os) : Stands p c w₁ where
  inFunction := h.inFunction
  inClass := h.inClass
  scopes := h.scopes.trans hm.inner.symm
  names x := by simp [hm.names, h.names]
  waiting := h.waiting

/-- Behind a statement the nearest scope has the names that it declares. -/
theorem past (h : Stands p c w) (hp : p.initialized? = none) (hm : Moves w w₁ xs os) :
    Stands (p.declare xs) c w₁ where
  inFunction := by rw [Surroundings.body?_declare, h.inFunction]
  inClass := by rw [Surroundings.class?_declare, h.inClass]
  scopes := by rw [Surroundings.scope?_declare, Option.map_eq_none_iff, h.scopes, hm.inner]
  names x := by
    have hs := h.scopes
    rw [hm.names, h.names, Surroundings.scope?_declare, Surroundings.initialized?_declare, hp]
    cases hscope : p.scope? <;> grind
  waiting := by simp [hp]

/-- A scope is opened for a block or a function; markers change with what is around it. -/
theorem enter {c' : Context} (w : Walk) (hf : c'.inFunction = .ofBody p.body?)
    (hc : c'.inClass = .ofClass p.class?) : Stands (.scope [] :: p) c' w.openScope where
  inFunction := hf
  inClass := hc
  scopes := by simp [openScope]
  names x := by simp [openScope, innermost?]
  waiting := by simp

end Stands

end Walk

section
variable {p : Surroundings} {c : Context} {w : Walk}

/-! ## Markers and rules -/

theorem ofBody_eq_none_iff : FunctionContext.ofBody p.body? = .none ↔ p.body? = none := by
  cases hb : p.body? with
  | none => simp [FunctionContext.ofBody]
  | some e =>
    have hbody : e.isBody = true := List.find?_some hb
    cases e with
    | function => simp [FunctionContext.ofBody]
    | method name =>
      simp only [FunctionContext.ofBody, Resolve.methodContext, reduceCtorEq, iff_false]
      split <;> simp
    | _ => simp [Enclosure.isBody] at hbody

theorem ofBody_eq_initializer_iff :
    FunctionContext.ofBody p.body? = .initializer ↔ p.body? = some (.method "init") := by
  cases hb : p.body? with
  | none => simp [FunctionContext.ofBody]
  | some e =>
    cases e with
    | method name => simp [FunctionContext.ofBody, Resolve.methodContext]
    | _ => simp [FunctionContext.ofBody]

theorem ofClass_eq_none_iff : ClassContext.ofClass p.class? = .none ↔ p.class? = none := by
  rcases p.class? with _ | _ | _ <;> simp [ClassContext.ofClass]

/-! ## Expressions -/

theorem moves_super (h : Walk.Stands p c w) (k : NodeId) (kw x : Token) :
    Walk.Moves w (Resolve.expr c (.superRef k kw x) w) [] [⟨.super, kw, p⟩] := by
  rw [Resolve.expr, h.inClass]
  rcases hc : p.class? with _ | _ | _
  · exact (Walk.Moves.note (by simp [Occurrence.reports, Occurrence.faults, Occurrence.due, hc])).bindName k _
  · exact (Walk.Moves.note (by simp [Occurrence.reports, Occurrence.faults, Occurrence.due, hc])).bindName k _
  · exact (Walk.Moves.of_scopes rfl
      (by simp [Occurrence.reports, Occurrence.faults, Occurrence.due, hc])).bindName k _

theorem moves_this (h : Walk.Stands p c w) (k : NodeId) (kw : Token) :
    Walk.Moves w (Resolve.expr c (.thisRef k kw) w) [] [⟨.this, kw, p⟩] := by
  have hiff : c.inClass = .none ↔ p.class? = none := by rw [h.inClass, ofClass_eq_none_iff]
  rw [Resolve.expr]
  by_cases hc : p.class? = none
  · rw [if_pos (hiff.2 hc)]
    exact .note (by simp [Occurrence.reports, Occurrence.faults, Occurrence.due, hc])
  · rw [if_neg fun hn => hc (hiff.1 hn)]
    exact (Walk.Moves.of_scopes rfl
      (by simp [Occurrence.reports, Occurrence.faults, Occurrence.due, hc])).bindName k _

/-- A name is not ready exactly in its own initializer. -/
theorem moves_read (h : Walk.Stands p c w) (x : Token) :
    Walk.Moves w (w.noteIf (w.innermost? x.lexeme = some false) .ownInitializer x) [] [⟨.read, x, p⟩] := by
  refine .noteIf (congrArg (List.map _) (congrArg (Occurrence.due · _) (Bool.eq_iff_iff.2 ?_)))
  have hwaiting := h.waiting
  simp only [Bool.and_eq_true, decide_eq_true_eq, h.names]
  cases hs : p.scope? <;> grind

mutual

theorem moves_expr : ∀ (e : Expr NodeId) {w : Walk}, Walk.Stands p c w →
    Walk.Moves w (Resolve.expr c e w) [] (e.uses p)
  | .assign k x e, _, h => (moves_expr e h).bindName k x.lexeme
  | .binary l _ r, _, h => (moves_expr l h).trans (moves_expr r (h.along (moves_expr l h)))
  | .call f _ args, _, h => (moves_expr f h).trans (moves_exprs args (h.along (moves_expr f h)))
  | .get o _, _, h => moves_expr o h
  | .grouping e, _, h => moves_expr e h
  | .literal _, w, _ => .refl w
  | .logical l _ r, _, h => (moves_expr l h).trans (moves_expr r (h.along (moves_expr l h)))
  | .set o _ e, _, h => (moves_expr e h).trans (moves_expr o (h.along (moves_expr e h)))
  | .superRef k kw x, _, h => moves_super h k kw x
  | .thisRef k kw, _, h => moves_this h k kw
  | .unary _ e, _, h => moves_expr e h
  | .variable k x, _, h => (moves_read h x).bindName k x.lexeme

theorem moves_exprs : ∀ (es : List (Expr NodeId)) {w : Walk}, Walk.Stands p c w →
    Walk.Moves w (Resolve.exprs c es w) [] (Expr.usesAll p es)
  | [], w, _ => .refl w
  | e :: es, _, h => (moves_expr e h).trans (moves_exprs es (h.along (moves_expr e h)))

end

theorem moves_optExpr (e : Option (Expr NodeId)) (h : Walk.Stands p c w) :
    Walk.Moves w (Resolve.optExpr c e w) [] (Expr.usesOpt p e) := by
  cases e with
  | none => exact .refl w
  | some e => exact moves_expr e h

/-! ## Declarations -/

theorem innermost?_mark (w : Walk) (x y : String) (ready : Bool) :
    (w.mark x ready).innermost? y = if y = x ∧ w.scopes ≠ [] then some ready else w.innermost? y := by
  obtain ⟨scopes, bindings, reports⟩ := w
  cases scopes with
  | nil => simp [Walk.mark, Walk.innermost?]
  | cons scope outer => simp [Walk.mark, Walk.innermost?]

theorem mark_eq_nil_iff (w : Walk) (x : String) (ready : Bool) : (w.mark x ready).scopes = [] ↔ w.scopes = [] := by
  rw [mark_scopes]
  cases w.scopes <;> simp

theorem mark_tail (w : Walk) (x : String) (ready : Bool) : (w.mark x ready).scopes.tail = w.scopes.tail := by
  rw [mark_scopes]
  cases w.scopes <;> rfl

theorem declare_scopes (w : Walk) (x : Token) : (w.declare x).scopes = (w.mark x.lexeme false).scopes :=
  noteIf_scopes _ _ _ _

theorem innermost?_declare (w : Walk) (x : Token) (y : String) :
    (w.declare x).innermost? y = (w.mark x.lexeme false).innermost? y := by
  rw [Walk.innermost?, declare_scopes, Walk.innermost?]

/-- A second declaration in one scope is reported. -/
theorem declare_reports (h : Walk.Stands p c w) (x : Token) :
    (w.declare x).reports = w.reports ++ Occurrence.reports ⟨.declared, x, p⟩ := by
  have hdue : (w.innermost? x.lexeme).isSome = p.scope?.any (x.lexeme ∈ ·) := by
    rw [h.names]
    cases p.scope? with
    | none => simp
    | some names => by_cases hx : x.lexeme ∈ names <;> simp [hx]
  have hmark := (mark_bindings w x.lexeme false).2
  unfold Walk.declare Walk.noteIf
  rw [hdue]
  cases hany : p.scope?.any (x.lexeme ∈ ·) with
  | false => simp [hmark, Occurrence.reports, Occurrence.faults, Occurrence.due, hany]
  | true => simp [Walk.note, hmark, Occurrence.reports, Occurrence.faults, Occurrence.due, hany]

/-- A declared name waits for its initializer. -/
theorem stands_declare (h : Walk.Stands p c w) (hp : p.initialized? = none) (x : Token) :
    Walk.Stands (.initializer x.lexeme :: p.declare [x.lexeme]) c (w.declare x) where
  inFunction := by
    rw [h.inFunction, ← Surroundings.body?_declare [x.lexeme]]
    rfl
  inClass := by
    rw [h.inClass, ← Surroundings.class?_declare [x.lexeme]]
    rfl
  scopes := by
    rw [Surroundings.scope?_initializer, Surroundings.scope?_declare, Option.map_eq_none_iff, h.scopes,
      declare_scopes, mark_eq_nil_iff]
  names y := by
    have hs := h.scopes
    rw [innermost?_declare, innermost?_mark, h.names, hp, Surroundings.scope?_initializer,
      Surroundings.scope?_declare, Surroundings.initialized?_initializer]
    by_cases hyx : y = x.lexeme
    · cases hscope : p.scope? <;> simp_all
    · cases hscope : p.scope? <;> simp [hyx, Ne.symm hyx]
  waiting := by simp

/-- Once its initializer is behind it, the name is ready. -/
theorem moves_define (h : Walk.Stands p c w) {w₁ : Walk} {os : List Occurrence} (x : Token)
    (hm : Walk.Moves (w.declare x) w₁ [] os) :
    Walk.Moves w (w₁.define x.lexeme) [x.lexeme] (⟨.declared, x, p⟩ :: os) where
  outer := by rw [Walk.define, mark_tail, hm.outer, declare_scopes, mark_tail]
  inner := by rw [Walk.define, mark_eq_nil_iff, hm.inner, declare_scopes, mark_eq_nil_iff]
  names y := by
    have hinner : w₁.scopes = [] ↔ w.scopes = [] := by rw [hm.inner, declare_scopes, mark_eq_nil_iff]
    rw [Walk.define, innermost?_mark, hm.names, innermost?_declare, innermost?_mark]
    grind
  reports := by
    rw [Walk.define, (mark_bindings w₁ _ true).2, hm.reports, declare_reports h x, List.flatMap_cons,
      List.append_assoc]

theorem moves_introduce (h : Walk.Stands p c w) (x : Token) :
    Walk.Moves w (w.introduce x) [x.lexeme] [⟨.declared, x, p⟩] :=
  moves_define h x (.refl _)

theorem moves_params (params : List Token) {w : Walk} {p : Surroundings} (h : Walk.Stands p c w)
    (hp : p.initialized? = none) :
    Walk.Moves w (params.foldl Walk.introduce w) (params.map Token.lexeme).reverse (Token.usesAll p params) := by
  induction params generalizing w p with
  | nil => exact .refl w
  | cons x params ih =>
    have hx := moves_introduce h x
    have hrest := ih (h.past hp hx) (by rw [Surroundings.initialized?_declare, hp])
    simpa [Token.usesAll] using hx.trans hrest

theorem moves_mark (w : Walk) (x : String) : Walk.Moves w (w.define x) [x] [] where
  outer := mark_tail w x true
  inner := mark_eq_nil_iff w x true
  names y := by
    rw [Walk.define, innermost?_mark]
    simp
  reports := by simp [Walk.define, (mark_bindings w x true).2]

/-! ## Statements -/

/-- A superclass clause is read behind the name of its class. -/
theorem stands_ofClass (h : Walk.Stands p c w) (hp : p.initialized? = none) :
    Walk.Stands (.ofClass true :: p) { c with inClass := .derived } w where
  inFunction := h.inFunction
  inClass := rfl
  scopes := h.scopes
  names x := by
    have hx := h.names x
    rw [hp] at hx
    exact hx
  waiting := by simp [Surroundings.initialized?, Enclosure.initialized?]

theorem moves_parent (h : Walk.Stands p c w) (x : Token) (e : Expr NodeId) :
    Walk.Moves w (Resolve.expr c e (match Resolve.selfInheritance? x (some e) with
      | some t => w.note .inheritsFromItself t
      | none => w)) [] (Expr.usesParent x p (some e)) := by
  cases e with
  | «variable» k parent =>
    have hself : Walk.Moves w (match Resolve.selfInheritance? x (some (.variable k parent)) with
        | some t => w.note .inheritsFromItself t
        | none => w) [] [⟨.parentOf x.lexeme, parent, p⟩] := by
      by_cases hx : parent.lexeme = x.lexeme
      · simp only [Resolve.selfInheritance?, hx, if_true]
        exact .note (by simp [Occurrence.reports, Occurrence.faults, Occurrence.due, hx])
      · simp only [Resolve.selfInheritance?, hx, if_false]
        exact .of_scopes rfl (by simp [Occurrence.reports, Occurrence.faults, Occurrence.due, hx])
    exact hself.trans (moves_expr (.variable k parent) (h.along hself))
  | _ => exact moves_expr _ h

/-- The keyword of a `return` may break two rules. -/
theorem moves_returns (h : Walk.Stands p c w) (kw : Token) (valued : Bool) :
    Walk.Moves w ((w.noteIf (c.inFunction = .none) .returnAtTopLevel kw).noteIf
      (valued && c.inFunction = .initializer) .returnFromInitializer kw) [] [⟨.returns valued, kw, p⟩] := by
  refine .of_scopes (by rw [noteIf_scopes, noteIf_scopes]) ?_
  simp only [Walk.noteIf_reports, h.inFunction, ofBody_eq_none_iff, ofBody_eq_initializer_iff,
    List.flatMap_singleton, Occurrence.reports, Occurrence.faults, List.map_append, List.append_assoc]

mutual

theorem moves_stmt (c : Context) : ∀ (s : Stmt NodeId) {p : Surroundings} {w : Walk}, Walk.Stands p c w →
    p.initialized? = none → Walk.Moves w (Resolve.stmt c s w) s.declared (s.uses p)
  | .block body, _, w, h, _ =>
    have ⟨_, hbody⟩ := moves_stmts c body (.enter w h.inFunction h.inClass) rfl
    hbody.inScope
  | .classDecl x parent methods, p, w, h, hp => by
    have hname := moves_introduce h x
    have hq : (p.declare [x.lexeme]).initialized? = none := by rw [Surroundings.initialized?_declare, hp]
    have hstands := h.past hp hname
    cases parent with
    | none =>
      have hmethods := moves_methods { c with inClass := .plain } methods
        (p := .ofClass false :: p.declare [x.lexeme]) rfl ((w.introduce x).openScope.define "this")
      exact hname.trans ((moves_mark _ "this").trans hmethods).inScope
    | some e =>
      have hparent := moves_parent (stands_ofClass hstands hq) x e
      have hmethods := fun v : Walk => moves_methods { c with inClass := .derived } methods
        (p := .ofClass true :: p.declare [x.lexeme]) rfl (v.openScope.define "this")
      have hthis := fun v : Walk => ((moves_mark v.openScope "this").trans (hmethods v)).inScope
      have hsuper := fun v : Walk => ((moves_mark v.openScope "super").trans (hthis _)).inScope
      exact (hname.trans hparent).trans (hsuper _)
  | .expression e, _, _, h, _ => moves_expr e h
  | .function f, p, w, h, hp => by
    have hname := moves_introduce h f.name
    refine hname.trans (moves_fun { c with inFunction := .function } f
      (p := .function :: p.declare [f.name.lexeme]) rfl ?_ _)
    rw [h.inClass, ← Surroundings.class?_declare [f.name.lexeme]]
    rfl
  | .conditional e s t, p, w, h, hp => by
    have he := moves_expr e h
    have hs := moves_stmt c s (h.along he) hp
    have ht := moves_optStmt c t ((h.along he).past hp hs) (by rw [Surroundings.initialized?_declare, hp])
    have hall := (he.trans hs).trans ht
    rw [List.append_nil] at hall
    exact hall
  | .print _ e, _, _, h, _ => moves_expr e h
  | .returning kw e, _, _, h, _ =>
    have hkeyword := moves_returns h kw e.isSome
    hkeyword.trans (moves_optExpr e (h.along hkeyword))
  | .varDecl x e, _, _, h, hp => moves_define h x (moves_optExpr e (stands_declare h hp x))
  | .loop e s, _, _, h, hp => by
    have he := moves_expr e h
    have hall := he.trans (moves_stmt c s (h.along he) hp)
    rw [List.append_nil] at hall
    exact hall

theorem moves_stmts (c : Context) : ∀ (ss : List (Stmt NodeId)) {p : Surroundings} {w : Walk},
    Walk.Stands p c w → p.initialized? = none →
      ∃ xs, Walk.Moves w (Resolve.stmts c ss w) xs (Stmt.usesAll p ss)
  | [], _, w, _, _ => ⟨[], .refl w⟩
  | s :: ss, _, _, h, hp => by
    have hs := moves_stmt c s h hp
    obtain ⟨_, hss⟩ := moves_stmts c ss (h.past hp hs) (by rw [Surroundings.initialized?_declare, hp])
    exact ⟨_, hs.trans hss⟩

theorem moves_optStmt (c : Context) : ∀ (s : Option (Stmt NodeId)) {p : Surroundings} {w : Walk},
    Walk.Stands p c w → p.initialized? = none →
      Walk.Moves w (Resolve.optStmt c s w) (Stmt.declaredOpt s) (Stmt.usesOpt p s)
  | none, _, w, _, _ => .refl w
  | some s, _, _, h, hp => moves_stmt c s h hp

theorem moves_fun (c : Context) : ∀ (f : FunDecl (Stmt NodeId)) {p : Surroundings},
    c.inFunction = .ofBody p.body? → c.inClass = .ofClass p.class? → ∀ w : Walk,
      Walk.Moves w (Resolve.funDecl c f w) [] (Stmt.usesFun p f)
  | ⟨_, params, body⟩, p, hf, hc, w => by
    have hin : Walk.Stands (.scope [] :: p) c w.openScope := .enter w hf hc
    have hparams := moves_params params hin rfl
    have hafter : Walk.Stands (.scope (params.map Token.lexeme).reverse :: p) c
        (params.foldl Walk.introduce w.openScope) := by
      simpa [Surroundings.declare] using hin.past rfl hparams
    obtain ⟨_, hbody⟩ := moves_stmts c body hafter rfl
    exact (hparams.trans hbody).inScope

theorem moves_methods (c : Context) : ∀ (ms : List (FunDecl (Stmt NodeId))) {p : Surroundings},
    c.inClass = .ofClass p.class? → ∀ w : Walk,
      Walk.Moves w (Resolve.methodDecls c ms w) [] (Stmt.usesMethods p ms)
  | [], _, _, w => .refl w
  | m :: ms, p, hc, w => by
    have hm := moves_fun { c with inFunction := Resolve.methodContext m.name.lexeme } m
      (p := .method m.name.lexeme :: p) rfl hc w
    exact hm.trans (moves_methods c ms hc _)

end

end

/-- Around a program there is nothing. -/
theorem stands_program (bindings : Bindings) : Walk.Stands [] {} { bindings } where
  inFunction := rfl
  inClass := rfl
  scopes := by simp [Surroundings.scope?]
  names x := by simp [Surroundings.scope?, Walk.innermost?]
  waiting := by simp [Surroundings.initialized?]

/-- What is reported of a program is what the rules forbid of its uses, one after another, whatever
distances were recorded before. -/
theorem walk_reports_violations (bindings : Bindings) (tree : List (Stmt NodeId)) :
    (Resolve.program bindings tree).2 = (Stmt.usesAll [] tree).flatMap Occurrence.reports := by
  obtain ⟨_, hwalk⟩ := moves_stmts {} tree (stands_program bindings) rfl
  exact hwalk.reports

example : (Stmt.usesAll [] (Parser.program 0
      (Scan.tokens "{ var a = 1; var a = a; } class A < A { init() { return super.b; } } return this;")).tree).flatMap
    Occurrence.faults =
      [.redeclared, .ownInitializer, .inheritsFromItself, .returnFromInitializer, .returnAtTopLevel,
        .thisOutsideClass] := by
  decide +kernel

end Lox
