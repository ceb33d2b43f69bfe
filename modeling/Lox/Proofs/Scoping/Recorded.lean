import Mathlib.Data.List.Forall2
import Lox.Proofs.Parser.Identities
import Lox.Proofs.Scoping.Markers
import Lox.Proofs.Scoping.Nesting
import Lox.Proofs.Scoping.Resolution
import Lox.Token.Scan

/-!
# The recorded distances are those of the text

The walk looks up each node that names a binding in its stack of scopes, and the stack has the names of
the scopes around the node (`Walk.Inside`). A part of the tree adds its declarations to the innermost
scope and records the distances of its own nodes, one after another (`Walk.Records`), whatever it
reports. The nodes of a parsed program have identities of their own, so no distance is written over:
`recorded_distances_are_lexical`.
-/

namespace Lox

/-! ## Distances of the text -/

namespace Nesting

variable {p : Nesting} {x : String} {d : Nat}

/-- How many scopes out a name is declared. -/
def distance? (p : Nesting) (x : String) : Option Nat := p.scopes.findIdx? (x ∈ ·)

theorem distance?_eq_some_iff : p.distance? x = some d ↔ p.Declares x d := by
  unfold distance? Declares
  constructor
  · intro h
    obtain ⟨hlt, hx, hnot⟩ := List.findIdx?_eq_some_iff_getElem.1 h
    refine ⟨p.scopes.take d, p.scopes[d], p.scopes.drop (d + 1), ?_, by simpa using hx, ?_, ?_⟩
    · rw [List.getElem_cons_drop, List.take_append_drop]
    · intro ns hns
      obtain ⟨i, hi, rfl⟩ := List.mem_take_iff_getElem.1 hns
      simpa using hnot i (Nat.lt_of_lt_of_le hi (Nat.min_le_left _ _))
    · rw [List.length_take, Nat.min_eq_left (Nat.le_of_lt hlt)]
  · rintro ⟨inner, names, outer, hs, hx, hnot, rfl⟩
    rw [hs, List.findIdx?_append, List.findIdx?_eq_none_iff.2 (by simpa using hnot)]
    simp [List.findIdx?_cons, hx]

end Nesting

namespace Mention

/-- The distance of a node, if it is bound in a scope. -/
def distance? (m : Mention ν) : Option Nat :=
  if m.kind = .this ∧ m.around.inClass = false then none else m.around.distance? m.name.lexeme

theorem distance?_eq_some_iff {m : Mention ν} {d : Nat} : m.distance? = some d ↔ m.BoundAt d := by
  unfold distance? BoundAt
  rw [← Nesting.distance?_eq_some_iff]
  split <;> simp_all

/-- Records the distance of a node that is bound in a scope. -/
def record (b : Bindings) (m : Mention NodeId) : Bindings :=
  match m.distance? with
  | some d => b.record m.mark d
  | none => b

theorem find?_record (b : Bindings) (m : Mention NodeId) (k : NodeId) :
    (record b m).find? k = if k = m.mark then m.distance?.or (b.find? k) else b.find? k := by
  unfold record
  cases m.distance? with
  | none => simp
  | some d => by_cases hk : k = m.mark <;> simp [hk]

theorem find?_records_of_not_mem {ms : List (Mention NodeId)} {k : NodeId}
    (hk : k ∉ ms.map mark) (b : Bindings) : (ms.foldl record b).find? k = b.find? k := by
  induction ms generalizing b with
  | nil => rfl
  | cons m ms ih =>
    rw [List.map_cons, List.mem_cons, not_or] at hk
    rw [List.foldl_cons, ih hk.2, find?_record, if_neg hk.1]

/-- Where no two nodes share a mark, each has its own distance. -/
theorem find?_records {ms : List (Mention NodeId)} (hn : (ms.map mark).Nodup) {m : Mention NodeId}
    (hm : m ∈ ms) (b : Bindings) :
    (ms.foldl record b).find? m.mark = m.distance?.or (b.find? m.mark) := by
  induction ms generalizing b with
  | nil => cases hm
  | cons l ms ih =>
    rw [List.map_cons, List.nodup_cons] at hn
    rw [List.foldl_cons]
    rcases List.mem_cons.1 hm with rfl | hm
    · rw [find?_records_of_not_mem hn.1, find?_record, if_pos rfl]
    · have hne : m.mark ≠ l.mark := fun he => hn.1 (he ▸ List.mem_map_of_mem hm)
      rw [ih hn.2 hm, find?_record, if_neg hne]

end Mention

/-! ## The listing is complete -/

mutual

theorem Expr.marks_mentions (p : Nesting) : ∀ e : Expr ν, ((e.mentions p).map Mention.mark).Perm e.marks
  | .assign k x e => by
    rw [Expr.mentions, List.map_append]
    exact (Expr.marks_mentions p e).append_right _
  | .binary l _ r => by
    rw [Expr.mentions, List.map_append]
    exact (Expr.marks_mentions p l).append (Expr.marks_mentions p r)
  | .call f _ args => by
    rw [Expr.mentions, List.map_append]
    exact (Expr.marks_mentions p f).append (Expr.marksAll_mentions p args)
  | .get o _ => Expr.marks_mentions p o
  | .grouping e => Expr.marks_mentions p e
  | .literal _ => .nil
  | .logical l _ r => by
    rw [Expr.mentions, List.map_append]
    exact (Expr.marks_mentions p l).append (Expr.marks_mentions p r)
  | .set o _ e => by
    rw [Expr.mentions, List.map_append]
    exact List.perm_append_comm.trans ((Expr.marks_mentions p o).append (Expr.marks_mentions p e))
  | .superRef _ _ _ => .refl _
  | .thisRef _ _ => .refl _
  | .unary _ e => Expr.marks_mentions p e
  | .variable _ _ => .refl _

theorem Expr.marksAll_mentions (p : Nesting) : ∀ es : List (Expr ν),
    ((Expr.mentionsAll p es).map Mention.mark).Perm (Expr.marksAll es)
  | [] => .nil
  | e :: es => by
    rw [Expr.mentionsAll, List.map_append]
    exact (Expr.marks_mentions p e).append (Expr.marksAll_mentions p es)

end

theorem Expr.marksOpt_mentions (p : Nesting) (e : Option (Expr ν)) :
    ((Expr.mentionsOpt p e).map Mention.mark).Perm (Expr.marksOpt e) := by
  cases e with
  | none => exact .nil
  | some e => exact Expr.marks_mentions p e

mutual

theorem Stmt.marks_mentions (p : Nesting) : ∀ s : Stmt ν, ((s.mentions p).map Mention.mark).Perm s.marks
  | .block body => Stmt.marksAll_mentions _ body
  | .classDecl _ parent methods => by
    rw [Stmt.mentions, List.map_append]
    exact (Expr.marksOpt_mentions _ parent).append (Stmt.marksMethods_mentions _ methods)
  | .expression e => Expr.marks_mentions p e
  | .function f => Stmt.marksFun_mentions _ f
  | .conditional c s t => by
    rw [Stmt.mentions, List.map_append, List.map_append]
    exact ((Expr.marks_mentions p c).append (Stmt.marks_mentions p s)).append
      (Stmt.marksOpt_mentions _ t)
  | .print _ e => Expr.marks_mentions p e
  | .returning _ e => Expr.marksOpt_mentions p e
  | .varDecl _ e => Expr.marksOpt_mentions _ e
  | .loop c s => by
    rw [Stmt.mentions, List.map_append]
    exact (Expr.marks_mentions p c).append (Stmt.marks_mentions p s)

theorem Stmt.marksAll_mentions (p : Nesting) : ∀ ss : List (Stmt ν),
    ((Stmt.mentionsAll p ss).map Mention.mark).Perm (Stmt.marksAll ss)
  | [] => .nil
  | s :: ss => by
    rw [Stmt.mentionsAll, List.map_append]
    exact (Stmt.marks_mentions p s).append (Stmt.marksAll_mentions _ ss)

theorem Stmt.marksOpt_mentions (p : Nesting) : ∀ s : Option (Stmt ν),
    ((Stmt.mentionsOpt p s).map Mention.mark).Perm (Stmt.marksOpt s)
  | none => .nil
  | some s => Stmt.marks_mentions p s

theorem Stmt.marksFun_mentions (p : Nesting) : ∀ f : FunDecl (Stmt ν),
    ((Stmt.mentionsFun p f).map Mention.mark).Perm (Stmt.marksFun f)
  | ⟨_, _, body⟩ => Stmt.marksAll_mentions _ body

theorem Stmt.marksMethods_mentions (p : Nesting) : ∀ ms : List (FunDecl (Stmt ν)),
    ((Stmt.mentionsMethods p ms).map Mention.mark).Perm (Stmt.marksMethods ms)
  | [] => .nil
  | m :: ms => by
    rw [Stmt.mentionsMethods, List.map_append]
    exact (Stmt.marksFun_mentions _ m).append (Stmt.marksMethods_mentions p ms)

end

/-! ## The walk and the text -/

/-- The stack of the walk has the names of the scopes, one for one. -/
def Named (stack : List Scope) (scopes : List (List String)) : Prop :=
  List.Forall₂ (fun scope names => ∀ x, scope.contains x = true ↔ x ∈ names) stack scopes

namespace Walk

variable {p : Nesting} {c : Context} {w w₁ w₂ : Walk} {xs ys : List String}
  {ms ms' : List (Mention NodeId)}

/-- The walk has come to a node with these surroundings. -/
structure Inside (p : Nesting) (c : Context) (w : Walk) : Prop where
  names : Named w.scopes p.scopes
  inClass : c.inClass = .none ↔ p.inClass = false

/-- From one stage to a later one: these names are declared in the innermost scope and the distances
of these nodes are recorded; all else is as it was. -/
structure Records (w w' : Walk) (xs : List String) (ms : List (Mention NodeId)) : Prop where
  names : ∀ {p : Nesting}, Named w.scopes p.scopes → Named w'.scopes (p.declare xs).scopes
  bindings : w'.bindings = ms.foldl Mention.record w.bindings

theorem declare_nil (p : Nesting) : p.declare [] = p := by
  obtain ⟨scopes, inClass⟩ := p
  cases scopes <;> rfl

theorem declare_declare (p : Nesting) : (p.declare xs).declare ys = p.declare (ys ++ xs) := by
  obtain ⟨scopes, inClass⟩ := p
  cases scopes <;> simp [Nesting.declare]

namespace Records

/-- Where no name is declared, the scopes stay. -/
theorem of_scopes (hs : w₁.scopes = w.scopes) (hb : w₁.bindings = ms.foldl Mention.record w.bindings) :
    Records w w₁ [] ms where
  names h := by rwa [declare_nil, hs]
  bindings := hb

theorem refl (w : Walk) : Records w w [] [] := of_scopes rfl rfl

theorem trans (h : Records w w₁ xs ms) (h' : Records w₁ w₂ ys ms') :
    Records w w₂ (ys ++ xs) (ms ++ ms') where
  names hn := by
    rw [← declare_declare]
    exact h'.names (h.names hn)
  bindings := by rw [h'.bindings, h.bindings, List.foldl_append]

/-- What was declared inside a scope is gone behind it. -/
theorem inScope (h : Records w.openScope w₁ xs ms) : Records w w₁.closeScope [] ms where
  names {p} hn := by
    have hin : Named w.openScope.scopes (p.enter []).scopes := .cons (by simp [Table.contains]) hn
    rw [declare_nil]
    have hout := h.names hin
    simp only [Nesting.enter, Nesting.declare] at hout
    unfold closeScope
    cases hw : w₁.scopes with
    | nil =>
      rw [hw] at hout
      cases hout
    | cons scope stack =>
      rw [hw] at hout
      cases hout with
      | cons _ hrest => exact hrest
  bindings := h.bindings

end Records

namespace Inside

theorem along (h : Inside p c w) (hr : Records w w₁ xs ms) : Inside (p.declare xs) c w₁ :=
  ⟨hr.names h.names, h.inClass⟩

theorem enter (h : Inside p c w) : Inside (p.enter []) c w.openScope :=
  ⟨.cons (by simp [Table.contains]) h.names, h.inClass⟩

end Inside

end Walk

section
variable {p : Nesting} {c : Context} {w : Walk}

/-! ## Expressions -/

theorem distanceOf?_eq {stack : List Scope} {names : List (List String)} (h : Named stack names)
    (x : String) : distanceOf? stack x = names.findIdx? (x ∈ ·) := by
  induction h with
  | nil => rfl
  | @cons scope ns stack names hx _ ih =>
    have hhead : scope.contains x = decide (x ∈ ns) := by simp [← hx x]
    unfold distanceOf? at ih ⊢
    rw [List.findIdx?_cons, List.findIdx?_cons, hhead, ih]

/-- Looking up a node records its distance. -/
theorem bindName_bindings (h : Walk.Inside p c w) (kind : Naming) (hk : kind = .this → p.inClass = true)
    (k : NodeId) (x : Token) :
    (w.bindName k x.lexeme).bindings = Mention.record w.bindings ⟨kind, k, x, p⟩ := by
  have hd : Mention.distance? ⟨kind, k, x, p⟩ = distanceOf? w.scopes x.lexeme := by
    rw [distanceOf?_eq h.names, Mention.distance?, if_neg]
    · rfl
    · rintro ⟨hkind, hclass⟩
      simp [hk hkind] at hclass
  unfold Walk.bindName Mention.record
  rw [hd]
  cases distanceOf? w.scopes x.lexeme <;> rfl

theorem note_inside (h : Walk.Inside p c w) (fault : ScopeFault) (t : Token) :
    Walk.Inside p c (w.note fault t) :=
  ⟨h.names, h.inClass⟩

theorem noteIf_inside (h : Walk.Inside p c w) (b : Bool) (fault : ScopeFault) (t : Token) :
    Walk.Inside p c (w.noteIf b fault t) :=
  ⟨by rw [noteIf_scopes]; exact h.names, h.inClass⟩

theorem noteIf_keeps (w : Walk) (b : Bool) (fault : ScopeFault) (t : Token) :
    (w.noteIf b fault t).bindings = w.bindings := by
  cases b <;> rfl

theorem super_bindings (h : Walk.Inside p c w) (k : NodeId) (kw x : Token) :
    (Resolve.expr c (.superRef k kw x) w).bindings = Mention.record w.bindings ⟨.super, k, kw, p⟩ := by
  rw [Resolve.expr]
  cases Resolve.superFault? c.inClass with
  | none => exact bindName_bindings h .super (by simp) k kw
  | some fault => exact bindName_bindings (note_inside h fault kw) .super (by simp) k kw

/-- A `this` in no class is reported and not looked up. -/
theorem this_bindings (h : Walk.Inside p c w) (k : NodeId) (kw : Token) :
    (Resolve.expr c (.thisRef k kw) w).bindings = Mention.record w.bindings ⟨.this, k, kw, p⟩ := by
  rw [Resolve.expr]
  by_cases hc : c.inClass = .none
  · rw [if_pos hc]
    simp [Walk.note, Mention.record, Mention.distance?, h.inClass.1 hc]
  · have hclass : p.inClass = true := by
      simpa using fun hf => hc (h.inClass.2 hf)
    rw [if_neg hc]
    exact bindName_bindings h .this (fun _ => hclass) k kw

theorem inside_expr (h : Walk.Inside p c w) (e : Expr NodeId) : Walk.Inside p c (Resolve.expr c e w) :=
  ⟨by rw [expr_scopes]; exact h.names, h.inClass⟩

mutual

theorem expr_records : ∀ (e : Expr NodeId) {w : Walk}, Walk.Inside p c w →
    (Resolve.expr c e w).bindings = (e.mentions p).foldl Mention.record w.bindings
  | .assign k x e, w, h => by
    rw [Resolve.expr, bindName_bindings (inside_expr h e) .assigned (by simp) k x, expr_records e h,
      Expr.mentions, List.foldl_append]
    rfl
  | .binary l _ r, w, h => by
    rw [Resolve.expr, expr_records r (inside_expr h l), expr_records l h, Expr.mentions,
      List.foldl_append]
  | .call f _ args, w, h => by
    rw [Resolve.expr, exprs_records args (inside_expr h f), expr_records f h, Expr.mentions,
      List.foldl_append]
  | .get o _, _, h => expr_records o h
  | .grouping e, _, h => expr_records e h
  | .literal _, _, _ => rfl
  | .logical l _ r, w, h => by
    rw [Resolve.expr, expr_records r (inside_expr h l), expr_records l h, Expr.mentions,
      List.foldl_append]
  | .set o _ e, w, h => by
    rw [Resolve.expr, expr_records o (inside_expr h e), expr_records e h, Expr.mentions,
      List.foldl_append]
  | .superRef k kw x, _, h => super_bindings h k kw x
  | .thisRef k kw, _, h => this_bindings h k kw
  | .unary _ e, _, h => expr_records e h
  | .variable k x, w, h => by
    rw [Resolve.expr, bindName_bindings (noteIf_inside h _ _ x) .read (by simp) k x, noteIf_keeps]
    rfl

theorem exprs_records : ∀ (es : List (Expr NodeId)) {w : Walk}, Walk.Inside p c w →
    (Resolve.exprs c es w).bindings = (Expr.mentionsAll p es).foldl Mention.record w.bindings
  | [], _, _ => rfl
  | e :: es, w, h => by
    rw [Resolve.exprs, exprs_records es (inside_expr h e), expr_records e h, Expr.mentionsAll,
      List.foldl_append]

end

theorem records_expr (h : Walk.Inside p c w) (e : Expr NodeId) :
    Walk.Records w (Resolve.expr c e w) [] (e.mentions p) :=
  .of_scopes (expr_scopes c e w) (expr_records e h)

theorem records_optExpr (h : Walk.Inside p c w) (e : Option (Expr NodeId)) :
    Walk.Records w (Resolve.optExpr c e w) [] (Expr.mentionsOpt p e) := by
  cases e with
  | none => exact .refl w
  | some e => exact records_expr h e

/-! ## Declarations -/

theorem records_mark (w : Walk) (x : String) (ready : Bool) : Walk.Records w (w.mark x ready) [x] [] where
  names {p} h := by
    rw [mark_scopes]
    unfold Nesting.declare
    generalize w.scopes = stack, p.scopes = names at h
    cases h with
    | nil => exact .nil
    | @cons scope ns _ _ hx hrest =>
      refine .cons (fun y => ?_) hrest
      have hy := hx y
      unfold Table.contains at hy ⊢
      by_cases hyx : y = x <;> simp [hyx, hy]
  bindings := (mark_bindings w x ready).1

theorem records_declare (w : Walk) (x : Token) : Walk.Records w (w.declare x) [x.lexeme] [] where
  names h := by
    rw [Walk.declare, noteIf_scopes]
    exact (records_mark w x.lexeme false).names h
  bindings := by
    rw [Walk.declare, noteIf_keeps]
    exact (mark_bindings w x.lexeme false).1

/-- Once a name is declared, making it ready declares nothing new. -/
theorem records_define {w₁ : Walk} {ms : List (Mention NodeId)} {x : String}
    (h : Walk.Records w w₁ [x] ms) : Walk.Records w (w₁.define x) [x] ms where
  names {p} hn := by
    have htwice := (records_mark w₁ x true).names (h.names hn)
    rw [Walk.declare_declare] at htwice
    unfold Nesting.declare at htwice ⊢
    generalize p.scopes = names at htwice
    cases names with
    | nil => exact htwice
    | cons ns outer =>
      rcases List.forall₂_cons_right_iff.1 htwice with ⟨scope, stack, hx, hrest, hs⟩
      rw [Walk.define, hs]
      exact .cons (fun y => by rw [hx y]; simp) hrest
  bindings := by rw [Walk.define, (mark_bindings w₁ x true).1, h.bindings]

theorem records_introduce (w : Walk) (x : Token) : Walk.Records w (w.introduce x) [x.lexeme] [] :=
  records_define (records_declare w x)

theorem records_params (params : List Token) (w : Walk) :
    Walk.Records w (params.foldl Walk.introduce w) (params.map Token.lexeme).reverse [] := by
  induction params generalizing w with
  | nil => exact .refl w
  | cons x params ih => simpa using (records_introduce w x).trans (ih (w.introduce x))

/-! ## Statements -/

/-- In a class the context is that of its methods. -/
theorem inside_class (h : Walk.Inside p c w) (x : Token) (kind : ClassContext) (hk : kind ≠ .none) :
    Walk.Inside (p.enterClass x.lexeme) { c with inClass := kind } (w.introduce x) :=
  ⟨(records_introduce w x).names h.names, by simp [Nesting.enterClass, hk]⟩

/-- A superclass clause, without the scope of `super`. -/
theorem records_parent (h : Walk.Inside p c w) (x : Token) (e : Expr NodeId) :
    Walk.Records w (Resolve.expr c e (match Resolve.selfInheritance? x (some e) with
      | some t => w.note .inheritsFromItself t
      | none => w)) [] (e.mentions p) := by
  cases Resolve.selfInheritance? x (some e) with
  | none => exact records_expr h e
  | some t =>
    have hnote : Walk.Records w (w.note .inheritsFromItself t) [] [] := .of_scopes rfl rfl
    exact hnote.trans (records_expr (note_inside h _ t) e)

mutual

theorem records_stmt (c : Context) : ∀ (s : Stmt NodeId) {p : Nesting} {w : Walk}, Walk.Inside p c w →
    Walk.Records w (Resolve.stmt c s w) s.declared (s.mentions p)
  | .block body, _, _, h => by
    obtain ⟨xs, hbody⟩ := records_stmts c body h.enter
    exact hbody.inScope
  | .classDecl x parent methods, p, w, h => by
    have hname := records_introduce w x
    cases parent with
    | none =>
      have hin := inside_class h x .plain (by simp)
      exact hname.trans (records_class { c with inClass := .plain } methods hin)
    | some e =>
      have hin := inside_class h x .derived (by simp)
      have hparent := records_parent hin x e
      have hsuper := records_mark (Resolve.expr { c with inClass := .derived } e
        (match Resolve.selfInheritance? x (some e) with
          | some t => (w.introduce x).note .inheritsFromItself t
          | none => w.introduce x)).openScope "super" true
      have hmethods := records_class { c with inClass := .derived } methods
        ((hin.along hparent).enter.along hsuper)
      rw [Walk.declare_nil] at hmethods
      exact (hname.trans hparent).trans (hsuper.trans hmethods).inScope
  | .expression e, _, _, h => records_expr h e
  | .function f, _, w, h =>
    have hname := records_introduce w f.name
    hname.trans (records_fun { c with inFunction := .function } f ⟨(h.along hname).names, h.inClass⟩)
  | .conditional e s t, _, _, h => by
    have he := records_expr h e
    have hin := h.along he
    rw [Walk.declare_nil] at hin
    have hs := records_stmt c s hin
    have hall := (he.trans hs).trans (records_optStmt c t (hin.along hs))
    rwa [List.append_nil] at hall
  | .print _ e, _, _, h => records_expr h e
  | .returning kw e, p, w, h => by
    have hkeyword : Walk.Records w ((w.noteIf (c.inFunction = .none) .returnAtTopLevel kw).noteIf
        (e.isSome && c.inFunction = .initializer) .returnFromInitializer kw) [] [] :=
      .of_scopes (by rw [noteIf_scopes, noteIf_scopes]) (by rw [noteIf_keeps, noteIf_keeps]; rfl)
    exact hkeyword.trans (records_optExpr (noteIf_inside (noteIf_inside h _ _ kw) _ _ kw) e)
  | .varDecl x e, _, w, h => by
    have hname := records_declare w x
    exact records_define (hname.trans (records_optExpr (h.along hname) e))
  | .loop e s, _, _, h => by
    have he := records_expr h e
    have hin := h.along he
    rw [Walk.declare_nil] at hin
    have hall := he.trans (records_stmt c s hin)
    rwa [List.append_nil] at hall

theorem records_stmts (c : Context) : ∀ (ss : List (Stmt NodeId)) {p : Nesting} {w : Walk},
    Walk.Inside p c w → ∃ xs, Walk.Records w (Resolve.stmts c ss w) xs (Stmt.mentionsAll p ss)
  | [], _, w, _ => ⟨[], .refl w⟩
  | s :: ss, _, _, h => by
    have hs := records_stmt c s h
    obtain ⟨xs, hss⟩ := records_stmts c ss (h.along hs)
    exact ⟨_, hs.trans hss⟩

theorem records_optStmt (c : Context) : ∀ (s : Option (Stmt NodeId)) {p : Nesting} {w : Walk},
    Walk.Inside p c w →
      Walk.Records w (Resolve.optStmt c s w) (Stmt.declaredOpt s) (Stmt.mentionsOpt p s)
  | none, _, w, _ => .refl w
  | some s, _, _, h => records_stmt c s h

theorem records_fun (c : Context) : ∀ (f : FunDecl (Stmt NodeId)) {p : Nesting} {w : Walk},
    Walk.Inside p c w → Walk.Records w (Resolve.funDecl c f w) [] (Stmt.mentionsFun p f)
  | ⟨_, params, body⟩, p, w, h => by
    have hparams := records_params params w.openScope
    have hin := h.enter.along hparams
    have hscope : (p.enter []).declare (params.map Token.lexeme).reverse =
        p.enter (params.map Token.lexeme).reverse := by simp [Nesting.enter, Nesting.declare]
    rw [hscope] at hin
    obtain ⟨xs, hbody⟩ := records_stmts c body hin
    exact (hparams.trans hbody).inScope

theorem records_methods (c : Context) : ∀ (ms : List (FunDecl (Stmt NodeId))) {p : Nesting} {w : Walk},
    Walk.Inside (p.enter ["this"]) c w →
      Walk.Records w (Resolve.methodDecls c ms w) [] (Stmt.mentionsMethods p ms)
  | [], _, w, _ => .refl w
  | m :: ms, p, w, h => by
    have hm := records_fun { c with inFunction := Resolve.methodContext m.name.lexeme } m
      (p := p.enter ["this"]) (w := w) ⟨h.names, h.inClass⟩
    have hin := h.along hm
    rw [Walk.declare_nil] at hin
    exact hm.trans (records_methods c ms hin)

/-- The methods of a class, with the scope of `this`. -/
theorem records_class (c : Context) (ms : List (FunDecl (Stmt NodeId))) {p : Nesting} {w : Walk}
    (h : Walk.Inside p c w) :
    Walk.Records w (Resolve.methodDecls c ms (w.openScope.define "this")).closeScope []
      (Stmt.mentionsMethods p ms) := by
  have hthis := records_mark w.openScope "this" true
  exact (hthis.trans (records_methods c ms (h.enter.along hthis))).inScope

end

end

/-! ## Programs -/

/-- Around a program there is no scope. -/
theorem inside_program (bindings : Bindings) : Walk.Inside {} {} { bindings } :=
  ⟨.nil, by simp⟩

theorem program_scopes {bindings : Bindings} {w : Walk} {xs : List String}
    {ms : List (Mention NodeId)} (h : Walk.Records { bindings } w xs ms) : w.scopes = [] := by
  have hnames := h.names (p := {}) .nil
  cases hw : w.scopes with
  | nil => rfl
  | cons _ _ =>
    rw [hw] at hnames
    cases hnames

/-- The distances recorded of a parsed program are those of its text. The nodes that name a binding are
listed by `Stmt.mentionsAll`, each with an identity of its own; such a node gets a distance if and only
if it is bound in a scope around it, and no other identity gets one. The walk ends with its markers and
its stack of scopes as they began. -/
theorem recorded_distances_are_lexical (nextId : NodeId) (tokens : List Token) (bindings : Bindings)
    (hb : ∀ k, nextId ≤ k → bindings.find? k = none) :
    let tree := (Parser.program nextId tokens).tree
    let nodes := Stmt.mentionsAll {} tree
    let resolved := Resolve.program bindings tree
    (nodes.map Mention.mark).Perm (Stmt.marksAll tree) ∧ (nodes.map Mention.mark).Nodup ∧
      (∀ m ∈ nodes, ∀ d, resolved.1.find? m.mark = some d ↔ m.BoundAt d) ∧
      (∀ k, k ∉ Stmt.marksAll tree → resolved.1.find? k = bindings.find? k) ∧
      MarkedWalk.stmts tree { walk := { bindings } } =
        { walk := { bindings := resolved.1, reports := resolved.2 } } := by
  intro tree nodes resolved
  have hfresh := Parser.program_fresh nextId tokens
  have hperm : (nodes.map Mention.mark).Perm (Stmt.marksAll tree) := Stmt.marksAll_mentions {} tree
  have hnodup : (nodes.map Mention.mark).Nodup := hperm.nodup_iff.2 hfresh.nodup
  obtain ⟨xs, hwalk⟩ := records_stmts {} tree (inside_program bindings)
  have hafter : resolved.1 = nodes.foldl Mention.record bindings := hwalk.bindings
  refine ⟨hperm, hnodup, fun m hm d => ?_, fun k hk => ?_, ?_⟩
  · have hmark : m.mark ∈ Stmt.marksAll tree := hperm.subset (List.mem_map_of_mem hm)
    have hunused : bindings.find? m.mark = none := hb _ (hfresh.range _ hmark).1
    rw [hafter, Mention.find?_records hnodup hm, hunused, Option.or_none,
      Mention.distance?_eq_some_iff]
  · rw [hafter, Mention.find?_records_of_not_mem (fun h => hk (hperm.subset h))]
  · rw [MarkedWalk.stmts_eq]
    have hscopes := program_scopes hwalk
    generalize hw : Resolve.stmts {} tree { bindings } = w at hscopes
    have hresolved : resolved = (w.bindings, w.reports) := by rw [← hw]; rfl
    rw [hresolved, ← hscopes]

/-- Behind an older entry, in a function in a block and in a method of a derived class. -/
theorem recorded_distances_are_lexical_behind_older_entries :
    let bindings := Bindings.empty.record 2 0
    let tokens := Scan.tokens
      "{ var a = a; fun f(b) { { a = b; } } } class A < B { m() { super.m(); return this; } } this;"
    let tree := (Parser.program 7 tokens).tree
    let nodes := Stmt.mentionsAll {} tree
    let resolved := Resolve.program bindings tree
    (∀ k, 7 ≤ k → bindings.find? k = none) ∧
      nodes.map (fun m => (m.name.lexeme, resolved.1.find? m.mark)) =
        [("a", some 0), ("b", some 1), ("a", some 2), ("B", none), ("super", some 2), ("this", some 1),
          ("this", none)] ∧
      (∀ m ∈ nodes, ∀ d, resolved.1.find? m.mark = some d ↔ m.BoundAt d) := by
  intro bindings tokens tree nodes resolved
  have hb : ∀ k, 7 ≤ k → bindings.find? k = none := fun k hk => by
    have hne : k ≠ 2 := by
      rintro rfl
      exact absurd hk (by decide)
    simp [bindings, hne]
  exact ⟨hb, by decide +kernel, (recorded_distances_are_lexical 7 tokens bindings hb).2.2.1⟩

end Lox
