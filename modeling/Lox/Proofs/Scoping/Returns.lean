import Lox.Binding.Resolve
import Lox.Proofs.Execution.Calls
import Lox.Proofs.Reports

/-!
# Where a return may stand

A statement that holds no `return` outside of a function falls off its end whenever it finishes
(`exec_falls`), and a program about which the walk reports nothing is made of such statements
(`falls_of_resolve`). Reports are only ever added on the walk, so each part of a program without
reports is without reports.
-/

namespace Lox

mutual

/-- A statement that holds no `return`, except in the functions it declares. -/
def Stmt.Falls : Stmt ν → Prop
  | .block body => Stmt.FallsAll body
  | .classDecl _ _ _ => True
  | .expression _ => True
  | .function _ => True
  | .conditional _ s t => s.Falls ∧ Stmt.FallsOpt t
  | .print _ _ => True
  | .returning _ _ => False
  | .varDecl _ _ => True
  | .loop _ s => s.Falls

def Stmt.FallsAll : List (Stmt ν) → Prop
  | [] => True
  | s :: ss => s.Falls ∧ Stmt.FallsAll ss

def Stmt.FallsOpt : Option (Stmt ν) → Prop
  | none => True
  | some s => s.Falls

end

theorem Stmt.FallsAll.of_mem {ss : List (Stmt ν)} (h : Stmt.FallsAll ss) {s : Stmt ν} (hs : s ∈ ss) :
    s.Falls := by
  induction ss with
  | nil => cases hs
  | cons t ss ih =>
    rcases List.mem_cons.1 hs with rfl | hs
    · exact h.1
    · exact ih h.2 hs

/-! ## Running -/

namespace Exec

/-- If the step finishes, it has not returned. -/
def Normal (x : Exec ν Flow) : Prop := ∀ m flow m', x m = .done flow m' → flow = .normal

namespace Normal

theorem pure : Normal (Pure.pure .normal : Exec ν Flow) := by
  intro m flow m' h
  cases h
  rfl

theorem bind {x : Exec ν α} {f : α → Exec ν Flow} (hf : ∀ a, Normal (f a)) : Normal (x >>= f) := by
  intro m flow m' h
  obtain ⟨a, m₁, _, h⟩ := bind_eq_done h
  exact hf a m₁ flow m' h

theorem inFrame {frame : FrameId} {x : Exec ν Flow} (hx : Normal x) : Normal (inFrame frame x) := by
  intro m flow m' h
  obtain ⟨m₁, h, _⟩ := inFrame_eq_done h
  exact hx _ flow m₁ h

/-- What follows a statement that does not return is run. -/
theorem andThen {x y : Exec ν Flow} (hx : Normal x) (hy : Normal y) :
    Normal (do match ← x with
      | .normal => y
      | .returned value => return .returned value) := by
  intro m flow m' h
  obtain ⟨flow₁, m₁, h₁, h⟩ := bind_eq_done h
  obtain rfl := hx m flow₁ m₁ h₁
  exact hy m₁ flow m' h

end Normal

/-- A statement without a `return` does not return. -/
theorem exec_falls (d : Distances ν) (n : Nat) :
    (∀ t : Stmt ν, t.Falls → Normal (exec d n t)) ∧
      ∀ ts : List (Stmt ν), Stmt.FallsAll ts → Normal (execAll d n ts) := by
  induction n with
  | zero =>
    refine ⟨fun t _ m flow m' h => ?_, fun ts _ m flow m' h => ?_⟩
    · rw [exec] at h
      cases h
    · rw [execAll] at h
      cases h
  | succ n ih =>
    obtain ⟨ihOne, ihAll⟩ := ih
    constructor
    · intro t ht
      cases t with
      | block body =>
        rw [exec]
        exact .bind fun _ => .bind fun _ => .inFrame (ihAll body ht)
      | classDecl x parent methods =>
        cases parent with
        | none =>
          rw [exec]
          exact .bind fun _ => .bind fun _ => .pure
        | some e =>
          rw [exec]
          refine .bind fun v => ?_
          cases v with
          | classRef p => exact .bind fun _ => .bind fun _ => .pure
          | _ => exact .bind fun _ => .bind fun _ => .pure
      | expression e =>
        rw [exec]
        exact .bind fun _ => .pure
      | function f =>
        rw [exec]
        exact .bind fun _ => .bind fun _ => .bind fun _ => .pure
      | conditional c s t =>
        cases t with
        | none =>
          rw [exec]
          refine .bind fun v => ?_
          split
          · exact ihOne s ht.1
          · exact .pure
        | some t =>
          rw [exec]
          refine .bind fun v => ?_
          split
          · exact ihOne s ht.1
          · exact ihOne t ht.2
      | print kw e =>
        rw [exec]
        exact .bind fun _ => .bind fun _ => .bind fun _ => .pure
      | returning kw e => exact ht.elim
      | varDecl x e =>
        cases e with
        | none =>
          rw [exec]
          exact .bind fun _ => .pure
        | some e =>
          rw [exec]
          exact .bind fun _ => .bind fun _ => .pure
      | loop c s =>
        rw [exec]
        refine .bind fun v => ?_
        split
        · exact (ihOne s ht).andThen (ihOne (.loop c s) ht)
        · exact .pure
    · intro ts hts
      cases ts with
      | nil =>
        rw [execAll]
        exact .pure
      | cons t ts =>
        rw [execAll]
        exact (ihOne t hts.1).andThen (ihAll ts hts.2)

end Exec

/-! ## What the walk adds -/

section
variable {w w' : Walk}

theorem adds_noteIf (w : Walk) (b : Bool) (fault : ScopeFault) (t : Token) :
    Adds w.reports (w.noteIf b fault t).reports := by
  cases b with
  | false => exact .refl _
  | true => exact .one _ rfl

theorem adds_mark (w : Walk) (x : String) (ready : Bool) : Adds w.reports (w.mark x ready).reports := by
  unfold Walk.mark
  split <;> exact .refl _

theorem adds_bindName (w : Walk) (k : NodeId) (x : String) :
    Adds w.reports (w.bindName k x).reports := by
  unfold Walk.bindName
  split <;> exact .refl _

theorem adds_declare (w : Walk) (x : Token) : Adds w.reports (w.declare x).reports :=
  (adds_mark w _ _).trans (adds_noteIf _ _ _ _)

theorem adds_introduce (w : Walk) (x : Token) : Adds w.reports (w.introduce x).reports :=
  (adds_declare w x).trans (adds_mark _ _ _)

theorem adds_params (params : List Token) (w : Walk) :
    Adds w.reports (params.foldl Walk.introduce w).reports := by
  induction params generalizing w with
  | nil => exact .refl _
  | cons p params ih => exact (adds_introduce w p).trans (ih _)

mutual

theorem adds_expr (c : Context) : ∀ (e : Expr NodeId) (w : Walk),
    Adds w.reports (Resolve.expr c e w).reports
  | .assign _ _ e, w => (adds_expr c e w).trans (adds_bindName _ _ _)
  | .binary l _ r, w => (adds_expr c l w).trans (adds_expr c r _)
  | .call f _ args, w => (adds_expr c f w).trans (adds_exprs c args _)
  | .get o _, w => adds_expr c o w
  | .grouping e, w => adds_expr c e w
  | .literal _, _ => .refl _
  | .logical l _ r, w => (adds_expr c l w).trans (adds_expr c r _)
  | .set o _ e, w => (adds_expr c e w).trans (adds_expr c o _)
  | .superRef k kw _, w => by
    rw [Resolve.expr]
    cases Resolve.superFault? c.inClass with
    | none => exact adds_bindName _ _ _
    | some fault => exact (Adds.one _ rfl).trans (adds_bindName (w.note fault kw) _ _)
  | .thisRef k kw, w => by
    rw [Resolve.expr]
    split
    · exact .one _ rfl
    · exact adds_bindName _ _ _
  | .unary _ e, w => adds_expr c e w
  | .variable _ _, w => (adds_noteIf w _ _ _).trans (adds_bindName _ _ _)

theorem adds_exprs (c : Context) : ∀ (es : List (Expr NodeId)) (w : Walk),
    Adds w.reports (Resolve.exprs c es w).reports
  | [], _ => .refl _
  | e :: es, w => (adds_expr c e w).trans (adds_exprs c es _)

end

theorem adds_optExpr (c : Context) (e : Option (Expr NodeId)) (w : Walk) :
    Adds w.reports (Resolve.optExpr c e w).reports := by
  cases e with
  | none => exact .refl _
  | some e => exact adds_expr c e w

theorem adds_superclass (c : Context) (x : Token) (parent : Option (Expr NodeId)) (w : Walk) :
    Adds w.reports (Resolve.superclass c x parent w).reports := by
  cases parent with
  | none => exact .refl _
  | some e =>
    have hexpr : ∀ v : Walk, Adds v.reports
        ((Resolve.expr { c with inClass := .derived } e v).openScope.define "super").reports :=
      fun v => (adds_expr _ e v).trans (adds_mark _ _ _)
    rw [Resolve.superclass]
    cases Resolve.selfInheritance? x (some e) with
    | none => exact hexpr w
    | some t => exact (Adds.one _ rfl).trans (hexpr (w.note .inheritsFromItself t))

mutual

theorem adds_stmt (c : Context) : ∀ (s : Stmt NodeId) (w : Walk),
    Adds w.reports (Resolve.stmt c s w).reports
  | .block body, w => adds_stmts c body w.openScope
  | .classDecl x parent methods, w => by
    have hclass := (adds_introduce w x).trans (adds_superclass c x parent _)
    have hthis := adds_mark (Resolve.superclass c x parent (w.introduce x)).openScope "this" true
    have hall := (hclass.trans hthis).trans
      (adds_methods { c with inClass := if parent.isSome then .derived else .plain } methods _)
    rw [Resolve.stmt]
    cases parent with
    | none => exact hall
    | some e => exact hall
  | .expression e, w => adds_expr c e w
  | .function f, w => (adds_introduce w f.name).trans (adds_funDecl _ f _)
  | .conditional e s t, w => ((adds_expr c e w).trans (adds_stmt c s _)).trans (adds_optStmt c t _)
  | .print _ e, w => adds_expr c e w
  | .returning _ e, w =>
    ((adds_noteIf w _ _ _).trans (adds_noteIf _ _ _ _)).trans (adds_optExpr c e _)
  | .varDecl x e, w => ((adds_declare w x).trans (adds_optExpr c e _)).trans (adds_mark _ _ _)
  | .loop e s, w => (adds_expr c e w).trans (adds_stmt c s _)

theorem adds_stmts (c : Context) : ∀ (ss : List (Stmt NodeId)) (w : Walk),
    Adds w.reports (Resolve.stmts c ss w).reports
  | [], _ => .refl _
  | s :: ss, w => (adds_stmt c s w).trans (adds_stmts c ss _)

theorem adds_optStmt (c : Context) : ∀ (s : Option (Stmt NodeId)) (w : Walk),
    Adds w.reports (Resolve.optStmt c s w).reports
  | none, _ => .refl _
  | some s, w => adds_stmt c s w

theorem adds_funDecl (c : Context) : ∀ (f : FunDecl (Stmt NodeId)) (w : Walk),
    Adds w.reports (Resolve.funDecl c f w).reports
  | ⟨_, params, body⟩, w => (adds_params params w.openScope).trans (adds_stmts c body _)

theorem adds_methods (c : Context) : ∀ (ms : List (FunDecl (Stmt NodeId))) (w : Walk),
    Adds w.reports (Resolve.methodDecls c ms w).reports
  | [], _ => .refl _
  | m :: ms, w => (adds_funDecl _ m w).trans (adds_methods c ms _)

end

end

/-! ## Programs without reports -/

section
variable {c : Context}

/-- A `return` outside of every function is reported. -/
theorem returning_reported (hc : c.inFunction = .none) (kw : Token) (e : Option (Expr NodeId)) (w : Walk) :
    (Resolve.stmt c (.returning kw e) w).reports ≠ w.reports := by
  intro h
  have hrest := (adds_noteIf (w.noteIf (c.inFunction = .none) .returnAtTopLevel kw)
    (e.isSome && c.inFunction = .initializer) .returnFromInitializer kw).trans (adds_optExpr c e _)
  have hfirst := ((adds_noteIf w _ _ kw).eq_of_trans hrest h).1
  simp [Walk.noteIf, Walk.note, hc] at hfirst

mutual

theorem falls_of_stmt (hc : c.inFunction = .none) : ∀ (s : Stmt NodeId) (w : Walk),
    (Resolve.stmt c s w).reports = w.reports → s.Falls
  | .block body, w, h => falls_of_stmts hc body w.openScope h
  | .classDecl _ _ _, _, _ => trivial
  | .expression _, _, _ => trivial
  | .function _, _, _ => trivial
  | .conditional e s t, w, h => by
    have hs := (adds_expr c e w).trans (adds_stmt c s _)
    obtain ⟨hfirst, hlast⟩ := hs.eq_of_trans (adds_optStmt c t _) h
    have hmid := ((adds_expr c e w).eq_of_trans (adds_stmt c s _) hfirst).2
    exact ⟨falls_of_stmt hc s _ hmid, falls_of_optStmt hc t _ hlast⟩
  | .print _ _, _, _ => trivial
  | .returning kw e, w, h => returning_reported hc kw e w h
  | .varDecl _ _, _, _ => trivial
  | .loop e s, w, h =>
    falls_of_stmt hc s _ ((adds_expr c e w).eq_of_trans (adds_stmt c s _) h).2

theorem falls_of_stmts (hc : c.inFunction = .none) : ∀ (ss : List (Stmt NodeId)) (w : Walk),
    (Resolve.stmts c ss w).reports = w.reports → Stmt.FallsAll ss
  | [], _, _ => trivial
  | s :: ss, w, h => by
    obtain ⟨hfirst, hrest⟩ := (adds_stmt c s w).eq_of_trans (adds_stmts c ss _) h
    exact ⟨falls_of_stmt hc s w hfirst, falls_of_stmts hc ss _ hrest⟩

theorem falls_of_optStmt (hc : c.inFunction = .none) : ∀ (s : Option (Stmt NodeId)) (w : Walk),
    (Resolve.optStmt c s w).reports = w.reports → Stmt.FallsOpt s
  | none, _, _ => trivial
  | some s, w, h => falls_of_stmt hc s w h

end

/-- A program without reports holds no `return` outside of a function. -/
theorem falls_of_resolve {bindings : Bindings} {tree : List (Stmt NodeId)}
    (h : (Resolve.program bindings tree).2 = []) : Stmt.FallsAll tree :=
  falls_of_stmts rfl tree { bindings } h

end

end Lox
