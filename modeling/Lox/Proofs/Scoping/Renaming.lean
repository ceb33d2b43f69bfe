import Lox.Proofs.Scoping.Resolution
import Lox.Proofs.Tree.Renaming

/-!
# Resolving renamed trees

What the walk over a program declares and reports depends neither on the identities of its nodes nor
on the distances that were recorded before it, and lines show in the reports only. So programs of one
shape get the same reports (`resolve_reports_of_shape`). Nor does the walk take anything along from one
statement at the top level to the next but the distances: `resolve_append`.
-/

namespace Lox

/-- The second walk stands in the same scopes, with the same reports about other lines. -/
structure Walk.Follows (g : Nat → Nat) (w w' : Walk) : Prop where
  scopes : w'.scopes = w.scopes
  reports : w'.reports = w.reports.map (·.moved g)

namespace Walk.Follows

variable {g : Nat → Nat} {w w' : Walk}

theorem note (h : Follows g w w') (fault : ScopeFault) (t : Token) :
    Follows g (w.note fault t) (w'.note fault (t.moved g)) :=
  ⟨h.scopes, by simp [Walk.note, h.reports, ScopeFault.report, Report.moved]⟩

theorem noteIf (h : Follows g w w') (b : Bool) (fault : ScopeFault) (t : Token) :
    Follows g (w.noteIf b fault t) (w'.noteIf b fault (t.moved g)) := by
  unfold Walk.noteIf
  split
  · exact h.note fault t
  · exact h

theorem openScope (h : Follows g w w') : Follows g w.openScope w'.openScope :=
  ⟨by simp [Walk.openScope, h.scopes], h.reports⟩

theorem closeScope (h : Follows g w w') : Follows g w.closeScope w'.closeScope :=
  ⟨by simp [Walk.closeScope, h.scopes], h.reports⟩

theorem mark (h : Follows g w w') (x : String) (ready : Bool) :
    Follows g (w.mark x ready) (w'.mark x ready) := by
  unfold Walk.mark
  rw [h.scopes]
  split
  · exact h
  · exact ⟨rfl, h.reports⟩

theorem innermost? (h : Follows g w w') (x : String) : w'.innermost? x = w.innermost? x := by
  rw [Walk.innermost?, Walk.innermost?, h.scopes]

theorem declare (h : Follows g w w') (x : Token) : Follows g (w.declare x) (w'.declare (x.moved g)) := by
  unfold Walk.declare
  rw [Token.moved_lexeme, h.innermost?]
  exact (h.mark x.lexeme false).noteIf _ _ x

theorem define (h : Follows g w w') (x : String) : Follows g (w.define x) (w'.define x) := h.mark x true

theorem introduce (h : Follows g w w') (x : Token) :
    Follows g (w.introduce x) (w'.introduce (x.moved g)) := (h.declare x).define x.lexeme

/-- Whichever nodes the two walks record a distance for. -/
theorem bindName (h : Follows g w w') (k l : NodeId) (x : String) :
    Follows g (w.bindName k x) (w'.bindName l x) := by
  unfold Walk.bindName
  rw [h.scopes]
  split
  · exact ⟨rfl, h.reports⟩
  · exact h

theorem introduceAll (params : List Token) (h : Follows g w w') :
    Follows g (params.foldl Walk.introduce w) ((params.map (·.moved g)).foldl Walk.introduce w') := by
  induction params generalizing w w' with
  | nil => exact h
  | cons p ps ih => exact ih (h.introduce p)

end Walk.Follows

section
variable (ρ : Renaming NodeId NodeId)

mutual

theorem follows_expr (c : Context) : ∀ (e : Expr NodeId) {w w' : Walk}, w.Follows ρ.line w' →
    (Resolve.expr c e w).Follows ρ.line (Resolve.expr c (e.rename ρ) w')
  | .assign _ x e, _, _, h => (follows_expr c e h).bindName _ _ x.lexeme
  | .binary l _ r, _, _, h => follows_expr c r (follows_expr c l h)
  | .call f _ args, _, _, h => follows_exprs c args (follows_expr c f h)
  | .get o _, _, _, h => follows_expr c o h
  | .grouping e, _, _, h => follows_expr c e h
  | .literal _, _, _, h => h
  | .logical l _ r, _, _, h => follows_expr c r (follows_expr c l h)
  | .set o _ e, _, _, h => follows_expr c o (follows_expr c e h)
  | .superRef _ kw x, w, w', h => by
    rw [Expr.rename, Resolve.expr, Resolve.expr]
    cases Resolve.superFault? c.inClass with
    | none => exact h.bindName _ _ kw.lexeme
    | some fault => exact (h.note fault kw).bindName _ _ kw.lexeme
  | .thisRef _ kw, w, w', h => by
    rw [Expr.rename, Resolve.expr, Resolve.expr]
    split
    · exact h.note _ kw
    · exact h.bindName _ _ kw.lexeme
  | .unary _ e, _, _, h => follows_expr c e h
  | .variable _ x, w, w', h => by
    rw [Expr.rename, Resolve.expr, Resolve.expr, Token.moved_lexeme, h.innermost?]
    exact (h.noteIf _ _ x).bindName _ _ x.lexeme

theorem follows_exprs (c : Context) : ∀ (es : List (Expr NodeId)) {w w' : Walk}, w.Follows ρ.line w' →
    (Resolve.exprs c es w).Follows ρ.line (Resolve.exprs c (Expr.renameAll ρ es) w')
  | [], _, _, h => h
  | e :: es, _, _, h => follows_exprs c es (follows_expr c e h)

end

theorem follows_optExpr (c : Context) (e : Option (Expr NodeId)) {w w' : Walk} (h : w.Follows ρ.line w') :
    (Resolve.optExpr c e w).Follows ρ.line (Resolve.optExpr c (Expr.renameOpt ρ e) w') := by
  cases e with
  | none => exact h
  | some e => exact follows_expr ρ c e h

theorem selfInheritance?_rename (x : Token) (parent : Option (Expr NodeId)) :
    Resolve.selfInheritance? (x.moved ρ.line) (Expr.renameOpt ρ parent) =
      (Resolve.selfInheritance? x parent).map (·.moved ρ.line) := by
  cases parent with
  | none => rfl
  | some e =>
    cases e with
    | «variable» k y =>
      by_cases hxy : y.lexeme = x.lexeme <;> simp [Expr.renameOpt, Expr.rename, Resolve.selfInheritance?, hxy]
    | _ => rfl

theorem follows_superclass (c : Context) (x : Token) (parent : Option (Expr NodeId)) {w w' : Walk}
    (h : w.Follows ρ.line w') :
    (Resolve.superclass c x parent w).Follows ρ.line
      (Resolve.superclass c (x.moved ρ.line) (Expr.renameOpt ρ parent) w') := by
  cases parent with
  | none => exact h
  | some e =>
    have hself := selfInheritance?_rename ρ x (some e)
    simp only [Expr.renameOpt] at hself ⊢
    simp only [Resolve.superclass, hself]
    cases Resolve.selfInheritance? x (some e) with
    | none => exact ((follows_expr ρ _ e h).openScope).define _
    | some t => exact ((follows_expr ρ _ e (h.note _ t)).openScope).define _

mutual

theorem follows_stmt (c : Context) : ∀ (s : Stmt NodeId) {w w' : Walk}, w.Follows ρ.line w' →
    (Resolve.stmt c s w).Follows ρ.line (Resolve.stmt c (s.rename ρ) w')
  | .block body, _, _, h => (follows_stmts c body h.openScope).closeScope
  | .classDecl x none methods, _, _, h =>
    (follows_methods _ methods ((h.introduce x).openScope.define "this")).closeScope
  | .classDecl x (some e) methods, _, _, h => by
    have hparent := follows_superclass ρ c x (some e) (h.introduce x)
    exact ((follows_methods _ methods (hparent.openScope.define "this")).closeScope).closeScope
  | .expression e, _, _, h => follows_expr ρ c e h
  | .function ⟨x, params, body⟩, _, _, h => follows_fun _ ⟨x, params, body⟩ (h.introduce x)
  | .conditional e s t, _, _, h => follows_opt c t (follows_stmt c s (follows_expr ρ c e h))
  | .print _ e, _, _, h => follows_expr ρ c e h
  | .returning kw e, w, w', h => by
    rw [Stmt.rename, Resolve.stmt, Resolve.stmt, Expr.isSome_renameOpt]
    exact follows_optExpr ρ c e ((h.noteIf _ _ kw).noteIf _ _ kw)
  | .varDecl x e, _, _, h => (follows_optExpr ρ c e (h.declare x)).define x.lexeme
  | .loop e s, _, _, h => follows_stmt c s (follows_expr ρ c e h)

theorem follows_stmts (c : Context) : ∀ (ss : List (Stmt NodeId)) {w w' : Walk}, w.Follows ρ.line w' →
    (Resolve.stmts c ss w).Follows ρ.line (Resolve.stmts c (Stmt.renameAll ρ ss) w')
  | [], _, _, h => h
  | s :: ss, _, _, h => follows_stmts c ss (follows_stmt c s h)

theorem follows_opt (c : Context) : ∀ (s : Option (Stmt NodeId)) {w w' : Walk}, w.Follows ρ.line w' →
    (Resolve.optStmt c s w).Follows ρ.line (Resolve.optStmt c (Stmt.renameOpt ρ s) w')
  | none, _, _, h => h
  | some s, _, _, h => follows_stmt c s h

theorem follows_fun (c : Context) : ∀ (f : FunDecl (Stmt NodeId)) {w w' : Walk}, w.Follows ρ.line w' →
    (Resolve.funDecl c f w).Follows ρ.line (Resolve.funDecl c (Stmt.renameFun ρ f) w')
  | ⟨_, params, body⟩, _, _, h => (follows_stmts c body (h.openScope.introduceAll params)).closeScope

theorem follows_methods (c : Context) : ∀ (ms : List (FunDecl (Stmt NodeId))) {w w' : Walk},
    w.Follows ρ.line w' →
    (Resolve.methodDecls c ms w).Follows ρ.line (Resolve.methodDecls c (Stmt.renameMethods ρ ms) w')
  | [], _, _, h => h
  | ⟨x, params, body⟩ :: ms, _, _, h => follows_methods c ms (follows_fun _ ⟨x, params, body⟩ h)

end

end

/-! ## Programs -/

variable {g : Nat → Nat} {ts us : List (Stmt NodeId)} {b : Bindings}

/-- What the walk reports does not depend on the marks of the tree. -/
theorem resolve_reports_rename (ρ : Renaming NodeId NodeId) (b c : Bindings) (ts : List (Stmt NodeId)) :
    (Resolve.program c (Stmt.renameAll ρ ts)).2 = (Resolve.program b ts).2.map (·.moved ρ.line) := by
  have hstart : Walk.Follows ρ.line { bindings := b } { bindings := c } := ⟨rfl, rfl⟩
  exact (follows_stmts ρ {} ts hstart).reports

/-- Programs of one shape get the same reports. -/
theorem resolve_reports_of_shape (b c : Bindings)
    (h : Stmt.renameAll (.shape g) ts = Stmt.renameAll (.shape g) us) :
    (Resolve.program b ts).2.map (·.moved g) = (Resolve.program c us).2.map (·.moved g) := by
  -- both programs with all their nodes of one identity are the same tree
  have hsame : Stmt.renameAll (⟨fun _ => 0, g⟩ : Renaming NodeId NodeId) ts =
      Stmt.renameAll ⟨fun _ => 0, g⟩ us := by
    have h' := congrArg (Stmt.renameAll (⟨fun _ => 0, id⟩ : Renaming Unit NodeId)) h
    rwa [Stmt.renameAll_renameAll, Stmt.renameAll_renameAll] at h'
  rw [← resolve_reports_rename ⟨fun _ => 0, g⟩ b b, ← resolve_reports_rename ⟨fun _ => 0, g⟩ c b, hsame]

/-- At the top level no scope is left open. -/
theorem stmts_scopes_nil (c : Context) (ts : List (Stmt NodeId)) (hf : Stmt.FormedAll ts) (hc : Around c [])
    (w : Walk) (hw : w.scopes = []) : (Resolve.stmts c ts w).scopes = [] := by
  induction ts generalizing w with
  | nil => exact hw
  | cons t ts ih =>
    have ht := (walked_stmt c t [] w hf.1 hc (by rw [hw]; rfl)).1
    rw [Stmt.after_nil] at ht
    refine ih hf.2 (Resolve.stmt c t w) ?_
    generalize (Resolve.stmt c t w).scopes = ws at ht
    cases ws with
    | nil => rfl
    | cons s ws => exact ht.elim

theorem stmts_append (c : Context) (ts us : List (Stmt NodeId)) (w : Walk) :
    Resolve.stmts c (ts ++ us) w = Resolve.stmts c us (Resolve.stmts c ts w) := by
  induction ts generalizing w with
  | nil => rfl
  | cons t ts ih => exact ih _

/-- A program after one without reports is resolved as if it stood alone. -/
theorem resolve_append (hf : Stmt.FormedAll ts) (hr : (Resolve.program b ts).2 = []) :
    Resolve.program b (ts ++ us) = Resolve.program (Resolve.program b ts).1 us := by
  have hscopes := stmts_scopes_nil {} ts hf (fun h => nomatch h) { bindings := b } rfl
  have hwalk : Resolve.stmts {} ts { bindings := b } = { bindings := (Resolve.program b ts).1 } := by
    generalize hw : Resolve.stmts {} ts { bindings := b } = w at hscopes
    have hreports : w.reports = [] := by rw [← hw]; exact hr
    have hbindings : (Resolve.program b ts).1 = w.bindings := by rw [← hw]; rfl
    rw [hbindings, ← hscopes, ← hreports]
  unfold Resolve.program
  rw [stmts_append, hwalk]

end Lox
