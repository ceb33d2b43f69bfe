import Lox.Binding.Resolve
import Lox.Proofs.Reports
import Lox.Proofs.Scoping.Formed
import Lox.Proofs.Tree.Marks

/-!
# The walk agrees with the scopes of the text

If the walk over a program reports nothing, the distances it records are those of the scopes around
each node, and the declarations keep the rules of scope. The walk's stack of scopes holds the names
of the scopes in the text, one for one (`Tracks`); a walk touches the distances of its own nodes only
(`Walked`), so a distance once recorded is never lost.
-/

namespace Lox

/-! ## Scopes -/

namespace Scopes

variable {scopes : Scopes ν} {x y : String}

theorem distance?_cons (s : LexicalScope ν) (scopes : Scopes ν) (x : String) :
    distance? (s :: scopes) x =
      if x ∈ s.names then some 0 else (scopes.distance? x).map (· + 1) := by
  simp only [distance?, List.findIdx?_cons, decide_eq_true_eq]

theorem distance?_declare (h : y ≠ x) : (scopes.declare x).distance? y = scopes.distance? y := by
  cases scopes with
  | nil => rfl
  | cons s outer => simp [declare, distance?_cons, h]

end Scopes

/-- The stack of the walk holds the names of the scopes; a variable that waits for its initializer is
there but not ready. -/
def Tracks (pending : Option String) : List Scope → Scopes NodeId → Prop
  | [], [] => pending = none
  | w :: ws, s :: ss =>
    (∀ x, w.get? x =
      if pending = some x then some false else if x ∈ s.names then some true else none) ∧
      Tracks none ws ss
  | _, _ => False

namespace Tracks

variable {pending : Option String} {ws : List Scope} {ss : Scopes NodeId} {x : String}

theorem distance (h : Tracks pending ws ss) (hx : pending ≠ some x) :
    distanceOf? ws x = ss.distance? x := by
  induction ws generalizing ss pending with
  | nil =>
    cases ss with
    | nil => rfl
    | cons s ss => exact h.elim
  | cons w ws ih =>
    cases ss with
    | nil => exact h.elim
    | cons s ss =>
      have hrest := ih h.2 (by simp)
      have hhead : w.contains x = decide (x ∈ s.names) := by
        rw [Table.contains, h.1 x, if_neg hx]
        split <;> simp_all
      unfold distanceOf? at hrest ⊢
      rw [List.findIdx?_cons, hhead, hrest, Scopes.distance?_cons]
      simp

theorem distance_pending (h : Tracks (some x) ws ss) : distanceOf? ws x = some 0 := by
  match ws, ss, h with
  | [], [], h => cases h
  | w :: ws, s :: ss, h => simp [distanceOf?, List.findIdx?_cons, Table.contains, h.1 x]

theorem innermost (h : Tracks pending ws ss) :
    ws.head?.bind (·.get? x) = some false ↔ pending = some x := by
  match ws, ss, h with
  | [], [], h =>
    obtain rfl : pending = none := h
    simp
  | w :: ws, s :: ss, h =>
    simp only [List.head?_cons, Option.bind_some, h.1 x]
    split
    · simp_all
    · split <;> simp_all

theorem isSome_innermost (h : Tracks none ws ss) :
    (ws.head?.bind (·.get? x)).isSome = true ↔ ∃ s ∈ ss.head?, x ∈ s.names := by
  match ws, ss, h with
  | [], [], _ => simp
  | w :: ws, s :: ss, h =>
    simp only [List.head?_cons, Option.bind_some, h.1 x]
    split <;> simp_all

theorem tail (h : Tracks pending ws ss) : Tracks none ws.tail ss.tail := by
  match ws, ss, h with
  | [], [], _ => rfl
  | w :: ws, s :: ss, h => exact h.2

theorem onSite {s : LexicalScope NodeId} (h : Tracks pending ws (s :: ss)) (site : Site NodeId) :
    Tracks pending ws (⟨site, s.names⟩ :: ss) := by
  match ws, h with
  | w :: ws, h => exact h

theorem push (h : Tracks none ws ss) (site : Site NodeId) : Tracks none (.empty :: ws) (⟨site, []⟩ :: ss) :=
  ⟨fun x => by simp, h⟩

end Tracks

/-! ## Marking names -/

section
variable {pending : Option String} {w : Walk} {scopes : Scopes NodeId}

theorem mark_scopes (w : Walk) (x : String) (ready : Bool) :
    (w.mark x ready).scopes = match w.scopes with
      | [] => []
      | t :: ts => t.insert x ready :: ts := by
  unfold Walk.mark
  split <;> simp_all

@[simp] theorem noteIf_scopes (w : Walk) (b : Bool) (fault : ScopeFault) (t : Token) :
    (w.noteIf b fault t).scopes = w.scopes := by
  unfold Walk.noteIf
  split <;> rfl

@[simp] theorem bindName_scopes (w : Walk) (k : NodeId) (x : String) :
    (w.bindName k x).scopes = w.scopes := by
  unfold Walk.bindName
  split <;> rfl

/-- A name that is made ready is declared. -/
theorem Tracks.define {x : String} (h : Tracks pending w.scopes scopes)
    (hp : ∀ y, pending = some y → y = x) : Tracks none (w.define x).scopes (scopes.declare x) := by
  rw [Walk.define, mark_scopes]
  generalize w.scopes = ws at h
  match ws, scopes, h with
  | [], [], _ => rfl
  | t :: ws, s :: ss, h =>
    refine ⟨?_, h.2⟩
    intro y
    have hy := h.1 y
    by_cases hyx : y = x
    · simp [hyx]
    · have hpy : pending ≠ some y := fun he => hyx (hp y he)
      simp [hyx, hy, hpy]

/-- A name that is declared waits for its initializer. -/
theorem Tracks.declare {x : Token} (h : Tracks none w.scopes scopes) :
    Tracks (scopes.waiting x.lexeme) (w.declare x).scopes scopes := by
  rw [Walk.declare, noteIf_scopes, mark_scopes]
  generalize w.scopes = ws at h
  match ws, scopes, h with
  | [], [], _ => rfl
  | t :: ws, s :: ss, h =>
    refine ⟨?_, h.2⟩
    intro y
    have hy := h.1 y
    simp only [Scopes.waiting, Table.get?_insert, Option.some.injEq, hy]
    by_cases hyx : y = x.lexeme
    · simp [hyx]
    · simp [hyx, Ne.symm hyx]

end

/-! ## Walks -/

/-- From one stage of the walk to a later one: only the distances of some nodes are touched, and if
nothing is reported and these nodes are new, what is recorded for them is as `good` says. -/
structure Walked (w w' : Walk) (ks : List NodeId) (good : (NodeId → Option Nat) → Prop) : Prop where
  reports : Adds w.reports w'.reports
  kept : ∀ k ∉ ks, w'.bindings.find? k = w.bindings.find? k
  bound : w'.reports = w.reports → ks.Nodup → (∀ k ∈ ks, w.bindings.find? k = none) →
    ∀ d : NodeId → Option Nat, (∀ k ∈ ks, d k = w'.bindings.find? k) → good d

namespace Walked

variable {w w₁ w₂ : Walk} {ks ls : List NodeId} {g g₁ g₂ : (NodeId → Option Nat) → Prop}

theorem mono (h : Walked w w₁ ks g₁) (hg : ∀ d, g₁ d → g₂ d) : Walked w w₁ ks g₂ :=
  ⟨h.reports, h.kept, fun hr hn hf d hd => hg d (h.bound hr hn hf d hd)⟩

theorem refl (hb : w₁.bindings = w.bindings) (hr : w₁.reports = w.reports) :
    Walked w w₁ [] fun _ => True :=
  ⟨by rw [hr]; exact .refl _, fun k _ => by rw [hb], fun _ _ _ _ _ => trivial⟩

theorem perm (h : Walked w w₁ ks g) (hp : ks.Perm ls) : Walked w w₁ ls g := by
  refine ⟨h.reports, fun k hk => h.kept k fun hm => hk (hp.mem_iff.1 hm), ?_⟩
  intro hr hn hf d hd
  exact h.bound hr (hp.nodup_iff.2 hn) (fun k hk => hf k (hp.mem_iff.1 hk)) d
    fun k hk => hd k (hp.mem_iff.1 hk)

theorem trans (h : Walked w w₁ ks g₁) (h' : Walked w₁ w₂ ls g₂) :
    Walked w w₂ (ks ++ ls) fun d => g₁ d ∧ g₂ d := by
  refine ⟨h.reports.trans h'.reports, ?_, ?_⟩
  · intro k hk
    rw [List.mem_append, not_or] at hk
    rw [h'.kept k hk.2, h.kept k hk.1]
  · intro hr hn hf d hd
    obtain ⟨hr₁, hr₂⟩ := h.reports.eq_of_trans h'.reports hr
    obtain ⟨hks, hls, hdisj⟩ := List.nodup_append.1 hn
    constructor
    · refine h.bound hr₁ hks (fun k hk => hf k (List.mem_append_left _ hk)) d ?_
      intro k hk
      rw [hd k (List.mem_append_left _ hk), h'.kept k fun hl => hdisj k hk k hl rfl]
    · refine h'.bound hr₂ hls ?_ d fun k hk => hd k (List.mem_append_right _ hk)
      intro k hk
      rw [h.kept k fun hm => hdisj k hm k hk rfl]
      exact hf k (List.mem_append_right _ hk)

theorem inScope (h : Walked w.openScope w₁ ks g) : Walked w w₁.closeScope ks g :=
  ⟨h.reports, h.kept, h.bound⟩

theorem andThen (h : Walked w w₁ ks g₁) (h' : Walked w₁ w₂ ls g₂) (hg : ∀ d, g₁ d → g₂ d → g d) :
    Walked w w₂ (ks ++ ls) g :=
  (h.trans h').mono fun d hd => hg d hd.1 hd.2

/-- A report that is not made was not due. -/
theorem noteIf (b : Bool) (fault : ScopeFault) (t : Token) :
    Walked w (w.noteIf b fault t) [] fun _ => b = false := by
  cases b with
  | false => exact (refl rfl rfl).mono fun _ _ => rfl
  | true =>
    refine ⟨.one _ rfl, fun _ _ => rfl, ?_⟩
    intro hr
    simp [Walk.noteIf, Walk.note] at hr

theorem note (fault : ScopeFault) (t : Token) : Walked w (w.note fault t) [] g := by
  refine ⟨.one _ rfl, fun _ _ => rfl, ?_⟩
  intro hr
  simp [Walk.note] at hr

theorem bindName (k : NodeId) (x : String) :
    Walked w (w.bindName k x) [k] fun d => d k = distanceOf? w.scopes x := by
  unfold Walk.bindName
  split
  · rename_i distance hd
    refine ⟨.refl _, ?_, ?_⟩
    · intro l hl
      rw [List.mem_singleton] at hl
      simp [hl]
    · intro _ _ _ d hk
      rw [hk k (by simp), hd]
      simp
  · rename_i hd
    refine ⟨.refl _, fun _ _ => rfl, ?_⟩
    intro _ _ hf d hk
    rw [hk k (by simp), hf k (by simp), hd]

end Walked

/-! ## Expressions -/

/-- The distances agree with the scopes around a node, and a `super` and a `this` are found in them. -/
def Place.Settled (d : ν → Option Nat) (p : Place ν) : Prop :=
  p.Resolved d ∧ (∀ k kw x, p.node = .superRef k kw x → (d k).isSome = true) ∧
    ∀ k kw, p.node = .thisRef k kw → (d k).isSome = true

/-- In a class there is a `this`, and with a superclass `super` lies one scope beyond it. -/
def Around (c : Context) (scopes : Scopes NodeId) : Prop :=
  c.inClass ≠ .none → ∃ i, scopes.distance? "this" = some i ∧
    (c.inClass = .derived → scopes.distance? "super" = some (i + 1))

namespace Around

variable {c : Context} {scopes : Scopes NodeId}

theorem declare (h : Around c scopes) {x : String} (hx : Plain x) : Around c (scopes.declare x) := by
  intro hc
  rw [Scopes.distance?_declare (Ne.symm hx.1), Scopes.distance?_declare (Ne.symm hx.2)]
  exact h hc

theorem push (h : Around c scopes) {s : LexicalScope NodeId} (hthis : "this" ∉ s.names)
    (hsuper : "super" ∉ s.names) : Around c (s :: scopes) := by
  intro hc
  obtain ⟨i, hi, hj⟩ := h hc
  refine ⟨i + 1, ?_, fun hd => ?_⟩
  · rw [Scopes.distance?_cons, if_neg hthis, hi]
    rfl
  · rw [Scopes.distance?_cons, if_neg hsuper, hj hd]
    rfl

theorem receiver (m : FunDecl (Stmt NodeId)) (methods : List (FunDecl (Stmt NodeId)))
    (h : c.inClass ≠ .derived ∨ ∃ outer, scopes = .ofParent methods :: outer) :
    Around c (.ofReceiver m :: scopes) := by
  intro _
  refine ⟨0, by simp [Scopes.distance?_cons, LexicalScope.ofReceiver], fun hd => ?_⟩
  rcases h with h | ⟨outer, rfl⟩
  · exact absurd hd h
  · simp [Scopes.distance?_cons, LexicalScope.ofReceiver, LexicalScope.ofParent]

end Around

section
variable {c : Context} {scopes : Scopes NodeId} {pending : Option String}

mutual

theorem expr_scopes (c : Context) : ∀ (e : Expr NodeId) (w : Walk),
    (Resolve.expr c e w).scopes = w.scopes
  | .assign k x e, w => by rw [Resolve.expr, bindName_scopes, expr_scopes c e]
  | .binary l _ r, w => by rw [Resolve.expr, expr_scopes c r, expr_scopes c l]
  | .call f _ args, w => by rw [Resolve.expr, exprs_scopes c args, expr_scopes c f]
  | .get o _, w => by rw [Resolve.expr, expr_scopes c o]
  | .grouping e, w => by rw [Resolve.expr, expr_scopes c e]
  | .literal _, w => by rw [Resolve.expr]
  | .logical l _ r, w => by rw [Resolve.expr, expr_scopes c r, expr_scopes c l]
  | .set o _ e, w => by rw [Resolve.expr, expr_scopes c o, expr_scopes c e]
  | .superRef k kw _, w => by
    rw [Resolve.expr]
    cases Resolve.superFault? c.inClass with
    | none => exact bindName_scopes _ _ _
    | some fault => exact bindName_scopes _ _ _
  | .thisRef k kw, w => by
    rw [Resolve.expr]
    split
    · rfl
    · exact bindName_scopes _ _ _
  | .unary _ e, w => by rw [Resolve.expr, expr_scopes c e]
  | .variable k x, w => by rw [Resolve.expr, bindName_scopes, noteIf_scopes]

theorem exprs_scopes (c : Context) : ∀ (es : List (Expr NodeId)) (w : Walk),
    (Resolve.exprs c es w).scopes = w.scopes
  | [], w => by rw [Resolve.exprs]
  | e :: es, w => by rw [Resolve.exprs, exprs_scopes c es, expr_scopes c e]

end

/-- What is recorded for an assignment. -/
theorem assign_distance {w : Walk} (ht : Tracks pending w.scopes scopes) (x : String) :
    distanceOf? w.scopes x = if pending = some x then some 0 else scopes.distance? x := by
  split
  · rename_i hp
    subst hp
    exact ht.distance_pending
  · rename_i hp
    exact ht.distance hp

theorem walked_super {w : Walk} (hc : Around c scopes) (ht : Tracks pending w.scopes scopes)
    (hp : ∀ x, pending = some x → Plain x) (k : NodeId) (kw x : Token) (hkw : kw.lexeme = "super") :
    Walked w (Resolve.expr c (.superRef k kw x) w) [k]
      fun d => Place.Settled d ⟨scopes, pending, .superRef k kw x⟩ := by
  rw [Resolve.expr]
  have hnot : pending ≠ some kw.lexeme := by
    intro he
    rw [hkw] at he
    exact (hp _ he).2 rfl
  have hthis : pending ≠ some "this" := fun he => (hp _ he).1 rfl
  cases hclass : c.inClass with
  | derived =>
    obtain ⟨i, hi, hj⟩ := hc (by simp [hclass])
    refine (Walked.bindName k kw.lexeme).mono ?_
    intro d hd
    rw [ht.distance hnot] at hd
    have hk : d k = some (i + 1) := by rw [hd, hkw, hj hclass]
    refine ⟨⟨⟨hnot, hd⟩, hthis, ?_⟩, ?_, by simp⟩
    · intro j hdj
      rw [hk, Option.some.injEq] at hdj
      exact ⟨i, hdj.symm, hi⟩
    · intro k' _ _ he
      cases he
      simp [hk]
  | none => exact (Walked.note (g := fun _ => False) _ kw).andThen (Walked.bindName k _) fun _ hf _ => hf.elim
  | plain => exact (Walked.note (g := fun _ => False) _ kw).andThen (Walked.bindName k _) fun _ hf _ => hf.elim

theorem walked_this {w : Walk} (hc : Around c scopes) (ht : Tracks pending w.scopes scopes)
    (hp : ∀ x, pending = some x → Plain x) (k : NodeId) (kw : Token) (hkw : kw.lexeme = "this") :
    Walked w (Resolve.expr c (.thisRef k kw) w) [k]
      fun d => Place.Settled d ⟨scopes, pending, .thisRef k kw⟩ := by
  rw [Resolve.expr]
  split
  · have hnote := (Walked.note (w := w) (g := fun _ => False) .thisOutsideClass kw)
    refine ⟨hnote.reports, fun _ _ => rfl, ?_⟩
    intro hr
    exact (hnote.bound hr (by simp) (by simp) (fun _ => none) (by simp)).elim
  · rename_i hclass
    have hnot : pending ≠ some kw.lexeme := by
      intro he
      rw [hkw] at he
      exact (hp _ he).1 rfl
    obtain ⟨i, hi, _⟩ := hc hclass
    refine (Walked.bindName k kw.lexeme).mono ?_
    intro d hd
    rw [ht.distance hnot] at hd
    refine ⟨⟨hnot, hd⟩, by simp, ?_⟩
    intro k' _ he
    cases he
    rw [hd, hkw, hi]
    rfl

theorem walked_variable {w : Walk} (ht : Tracks pending w.scopes scopes) (k : NodeId) (x : Token) :
    Walked w (Resolve.expr c (.variable k x) w) [k]
      fun d => Place.Settled d ⟨scopes, pending, .variable k x⟩ := by
  rw [Resolve.expr]
  refine (Walked.noteIf (w := w) _ _ x).andThen (Walked.bindName k x.lexeme) ?_
  intro d hb hd
  have hnot : pending ≠ some x.lexeme := by
    intro he
    rw [decide_eq_false_iff_not, Walk.innermost?, ht.innermost] at hb
    exact hb he
  rw [noteIf_scopes, ht.distance hnot] at hd
  exact ⟨⟨hnot, hd⟩, by simp⟩

mutual

theorem walked_expr (hc : Around c scopes) (hp : ∀ x, pending = some x → Plain x) :
    ∀ (e : Expr NodeId) (w : Walk), e.Formed → Tracks pending w.scopes scopes →
      Walked w (Resolve.expr c e w) e.marks fun d => e.Scoped (·.Settled d) scopes pending
  | .assign k x e, w, hf, ht => by
    have he := walked_expr hc hp e w hf.2 ht
    rw [Resolve.expr]
    refine he.andThen (Walked.bindName k x.lexeme) ?_
    intro d hs hd
    rw [expr_scopes, assign_distance ht] at hd
    exact ⟨hs, hd, by simp⟩
  | .binary l _ r, w, hf, ht => by
    have hl := walked_expr hc hp l w hf.2.1 ht
    have hr := walked_expr hc hp r (Resolve.expr c l w) hf.2.2 (by rwa [expr_scopes])
    exact hl.andThen hr fun d h h' => ⟨h, h'⟩
  | .call f _ args, w, hf, ht => by
    have hl := walked_expr hc hp f w hf.1 ht
    have hr := walked_exprs hc hp args (Resolve.expr c f w) hf.2 (by rwa [expr_scopes])
    exact hl.andThen hr fun d h h' => ⟨h, h'⟩
  | .get o _, w, hf, ht => walked_expr hc hp o w hf ht
  | .grouping e, w, hf, ht => walked_expr hc hp e w hf ht
  | .literal _, w, _, _ => Walked.refl rfl rfl
  | .logical l _ r, w, hf, ht => by
    have hl := walked_expr hc hp l w hf.1 ht
    have hr := walked_expr hc hp r (Resolve.expr c l w) hf.2 (by rwa [expr_scopes])
    exact hl.andThen hr fun d h h' => ⟨h, h'⟩
  | .set o _ e, w, hf, ht => by
    -- the value is walked before the object
    have he := walked_expr hc hp e w hf.2 ht
    have ho := walked_expr hc hp o (Resolve.expr c e w) hf.1 (by rwa [expr_scopes])
    exact (he.andThen ho fun d h h' => ⟨h', h⟩).perm List.perm_append_comm
  | .superRef k kw x, w, hf, ht => walked_super hc ht hp k kw x hf
  | .thisRef k kw, w, hf, ht => walked_this hc ht hp k kw hf
  | .unary _ e, w, hf, ht => walked_expr hc hp e w hf.2 ht
  | .variable k x, w, _, ht => walked_variable ht k x

theorem walked_exprs (hc : Around c scopes) (hp : ∀ x, pending = some x → Plain x) :
    ∀ (es : List (Expr NodeId)) (w : Walk), Expr.FormedAll es → Tracks pending w.scopes scopes →
      Walked w (Resolve.exprs c es w) (Expr.marksAll es)
        fun d => Expr.ScopedAll (·.Settled d) scopes pending es
  | [], w, _, _ => Walked.refl rfl rfl
  | e :: es, w, hf, ht => by
    have he := walked_expr hc hp e w hf.1 ht
    have hes := walked_exprs hc hp es (Resolve.expr c e w) hf.2 (by rwa [expr_scopes])
    exact he.andThen hes fun d h h' => ⟨h, h'⟩

end

theorem walked_optExpr (hc : Around c scopes) (hp : ∀ x, pending = some x → Plain x)
    (e : Option (Expr NodeId)) (w : Walk) (hf : Expr.FormedOpt e) (ht : Tracks pending w.scopes scopes) :
    Walked w (Resolve.optExpr c e w) (Expr.marksOpt e)
      fun d => Expr.ScopedOpt (·.Settled d) scopes pending e := by
  cases e with
  | none => exact Walked.refl rfl rfl
  | some e => exact walked_expr hc hp e w hf ht

theorem optExpr_scopes (e : Option (Expr NodeId)) (w : Walk) :
    (Resolve.optExpr c e w).scopes = w.scopes := by
  cases e with
  | none => rfl
  | some e => exact expr_scopes c e w

/-! ## Declarations -/

theorem mark_bindings (w : Walk) (x : String) (ready : Bool) :
    (w.mark x ready).bindings = w.bindings ∧ (w.mark x ready).reports = w.reports := by
  unfold Walk.mark
  split <;> exact ⟨rfl, rfl⟩

theorem walked_define (w : Walk) (x : String) : Walked w (w.define x) [] fun _ => True :=
  Walked.refl (mark_bindings w x true).1 (mark_bindings w x true).2

/-- A name that may not be declared is reported. -/
theorem walked_declare {w : Walk} (ht : Tracks none w.scopes scopes) (x : Token) :
    Walked w (w.declare x) [] fun _ => ∀ s ∈ scopes.head?, x.lexeme ∉ s.names := by
  have hmark : Walked w (w.mark x.lexeme false) [] fun _ => True :=
    Walked.refl (mark_bindings w _ _).1 (mark_bindings w _ _).2
  refine hmark.andThen (Walked.noteIf _ _ x) ?_
  intro d _ hb s hs hx
  have hsome := ht.isSome_innermost.2 ⟨s, hs, hx⟩
  rw [Walk.innermost?, hsome] at hb
  cases hb

theorem walked_introduce {w : Walk} (ht : Tracks none w.scopes scopes) (x : Token) :
    Tracks none (w.introduce x).scopes (scopes.declare x.lexeme) ∧
      Walked w (w.introduce x) [] fun _ => ∀ s ∈ scopes.head?, x.lexeme ∉ s.names := by
  refine ⟨ht.declare.define ?_, (walked_declare ht x).andThen (walked_define _ _) fun _ h _ => h⟩
  intro y hy
  cases scopes with
  | nil => cases hy
  | cons s outer => exact (Option.some.inj hy).symm

/-- Parameters differ from one another and from the names already there. -/
theorem walked_params (params : List Token) {w : Walk} {s : LexicalScope NodeId}
    (ht : Tracks none w.scopes (s :: scopes)) :
    Tracks none (params.foldl Walk.introduce w).scopes
        (⟨s.site, (params.map Token.lexeme).reverse ++ s.names⟩ :: scopes) ∧
      Walked w (params.foldl Walk.introduce w) []
        fun _ => (params.map Token.lexeme).Nodup ∧ ∀ p ∈ params, p.lexeme ∉ s.names := by
  induction params generalizing w s with
  | nil => exact ⟨ht, (Walked.refl rfl rfl).mono fun _ _ => ⟨.nil, by simp⟩⟩
  | cons p params ih =>
    obtain ⟨ht', hp⟩ := walked_introduce ht p
    obtain ⟨ht'', hps⟩ := ih (s := ⟨s.site, p.lexeme :: s.names⟩) ht'
    refine ⟨?_, hp.andThen hps ?_⟩
    · simpa using ht''
    · intro d hfree hrest
      refine ⟨?_, ?_⟩
      · rw [List.map_cons, List.nodup_cons]
        refine ⟨?_, hrest.1⟩
        intro hmem
        obtain ⟨q, hq, he⟩ := List.mem_map.1 hmem
        exact hrest.2 q hq (by simp [he])
      · intro q hq
        rcases List.mem_cons.1 hq with rfl | hq
        · exact hfree s (by simp)
        · exact fun hm => hrest.2 q hq (List.mem_cons_of_mem _ hm)

/-! ## Statements -/

theorem after_tail (s : Stmt NodeId) (scopes : Scopes NodeId) : (s.after scopes).tail = scopes.tail := by
  unfold Stmt.after
  cases s.declares? with
  | none => rfl
  | some x => cases scopes <;> rfl

theorem after_of_declares? {s : Stmt NodeId} (h : s.declares? = none) (scopes : Scopes NodeId) :
    s.after scopes = scopes := by
  rw [Stmt.after, h]

theorem Around.after {s : Stmt NodeId} (h : Around c scopes) (hs : s.Formed) :
    Around c (s.after scopes) := by
  cases s with
  | classDecl x _ _ => exact h.declare hs.1
  | function f => exact h.declare hs.1
  | varDecl x _ => exact h.declare hs.1
  | _ => exact h

/-- The superclass clause. -/
theorem walked_superclass {w : Walk} (x : Token) (parent : Option (Expr NodeId))
    (hp : Expr.IsParent parent) (methods : List (FunDecl (Stmt NodeId)))
    (ht : Tracks none w.scopes (scopes.declare x.lexeme)) :
    Tracks none (Resolve.superclass c x parent w).scopes
        (scopes.ofClass x.lexeme parent.isSome methods) ∧
      Walked w (Resolve.superclass c x parent w) (Expr.marksOpt parent)
        fun d => Expr.ScopedOpt (·.Settled d) scopes none parent := by
  cases parent with
  | none => exact ⟨ht, Walked.refl rfl rfl⟩
  | some e =>
    obtain ⟨k, y, rfl⟩ := hp
    have hopen : ∀ v : Walk, Tracks none v.scopes (scopes.declare x.lexeme) →
        Tracks none (v.openScope.define "super").scopes
          (scopes.ofClass x.lexeme (some (Expr.variable k y)).isSome methods) := by
      intro v hv
      exact (hv.push (.parent methods)).define (w := v.openScope) (by simp)
    have hclose : ∀ v : Walk, Walked v (v.openScope.define "super") [] fun _ => True :=
      fun v => Walked.refl (mark_bindings _ _ _).1 (mark_bindings _ _ _).2
    rw [Resolve.superclass, Resolve.selfInheritance?]
    by_cases hself : y.lexeme = x.lexeme
    · rw [if_pos hself]
      refine ⟨hopen _ (by rw [expr_scopes]; exact ht), ?_⟩
      have hnote := Walked.note (w := w) (g := fun _ => False) .inheritsFromItself y
      have hvar := walked_variable (c := { c with inClass := .derived })
        (w := w.note .inheritsFromItself y) ht k y
      exact (hnote.trans hvar).andThen (hclose _) fun _ hf _ => hf.1.elim
    · rw [if_neg hself]
      refine ⟨hopen _ (by rw [expr_scopes]; exact ht), ?_⟩
      refine (walked_variable ht k y).andThen (hclose _) ?_
      rintro d ⟨⟨_, hd⟩, _⟩ _
      rw [Scopes.distance?_declare hself] at hd
      exact ⟨⟨by simp, hd⟩, by simp⟩

mutual

theorem walked_stmt (c : Context) : ∀ (s : Stmt NodeId) (scopes : Scopes NodeId) (w : Walk),
    s.Formed → Around c scopes → Tracks none w.scopes scopes →
      Tracks none (Resolve.stmt c s w).scopes (s.after scopes) ∧
      Walked w (Resolve.stmt c s w) s.marks fun d => s.Scoped (·.Settled d) scopes
  | .block body, scopes, w, hf, hc, ht => by
    obtain ⟨⟨ss, hss, ht'⟩, hw⟩ := walked_stmts c body (.ofBlock body :: scopes) w.openScope hf
      (hc.push (by simp [LexicalScope.ofBlock]) (by simp [LexicalScope.ofBlock])) (ht.push _)
    have htail := ht'.tail
    rw [hss] at htail
    exact ⟨htail, hw.inScope⟩
  | .classDecl x parent methods, scopes, w, hf, hc, ht => by
    obtain ⟨ht₁, hw₁⟩ := walked_introduce ht x
    obtain ⟨ht₂, hw₂⟩ := walked_superclass (c := c) x parent hf.2.1 methods ht₁
    have hopen : ∀ site, Tracks none
        ((Resolve.superclass c x parent (w.introduce x)).openScope.define "this").scopes
        (⟨site, ["this"]⟩ :: scopes.ofClass x.lexeme parent.isSome methods) := fun site =>
      (ht₂.push site).define (w := (Resolve.superclass c x parent (w.introduce x)).openScope) (by simp)
    have hw₃ := walked_define (Resolve.superclass c x parent (w.introduce x)).openScope "this"
    obtain ⟨ht₄, hw₄⟩ := walked_methods
      { c with inClass := if parent.isSome then .derived else .plain } methods
      (scopes.ofClass x.lexeme parent.isSome methods) _ hf.2.2
      (fun m => Around.receiver m methods (by cases parent <;> simp [Scopes.ofClass])) hopen
    have hw := hw₁.andThen (hw₂.trans ((hw₃.trans hw₄).inScope)) (g := fun d =>
      (Stmt.classDecl x parent methods).Scoped (·.Settled d) scopes) fun d h₁ h₂ =>
        ⟨⟨hf.1.1, hf.1.2, h₁⟩, h₂.1, h₂.2.2⟩
    have htail := (ht₄ (.block [])).tail
    rw [Resolve.stmt]
    cases parent with
    | none => exact ⟨htail, hw⟩
    | some e => exact ⟨htail.tail, hw.reports, hw.kept, hw.bound⟩
  | .expression e, scopes, w, hf, hc, ht =>
    ⟨by rw [Resolve.stmt, expr_scopes]; exact ht, walked_expr hc (by simp) e w hf ht⟩
  | .function f, scopes, w, hf, hc, ht => by
    obtain ⟨ht₁, hw₁⟩ := walked_introduce ht f.name
    obtain ⟨ht₂, hw₂⟩ := walked_funDecl { c with inFunction := .function } f
      (scopes.declare f.name.lexeme) _ hf.2 (hc.declare hf.1) ht₁
    exact ⟨ht₂, hw₁.andThen hw₂ fun d h h' => ⟨⟨hf.1.1, hf.1.2, h⟩, h'⟩⟩
  | .conditional e s t, scopes, w, hf, hc, ht => by
    have hw₁ := walked_expr hc (by simp) e w hf.1 ht
    obtain ⟨ht₂, hw₂⟩ := walked_stmt c s scopes (Resolve.expr c e w) hf.2.1.2 hc
      (by rwa [expr_scopes])
    rw [after_of_declares? hf.2.1.1] at ht₂
    obtain ⟨ht₃, hw₃⟩ := walked_optStmt c t scopes _ hf.2.2 hc ht₂
    exact ⟨ht₃, (hw₁.trans hw₂).andThen hw₃ fun d h h' => ⟨h.1, ⟨hf.2.1.1, h.2⟩, h'⟩⟩
  | .print _ e, scopes, w, hf, hc, ht =>
    ⟨by rw [Resolve.stmt, expr_scopes]; exact ht, walked_expr hc (by simp) e w hf ht⟩
  | .returning kw e, scopes, w, hf, hc, ht => by
    rw [Resolve.stmt]
    refine ⟨by rw [optExpr_scopes, noteIf_scopes, noteIf_scopes]; exact ht, ?_⟩
    have ht' : Tracks none ((w.noteIf (c.inFunction = .none) .returnAtTopLevel kw).noteIf
        (e.isSome && c.inFunction = .initializer) .returnFromInitializer kw).scopes scopes := by
      rw [noteIf_scopes, noteIf_scopes]
      exact ht
    have hw := walked_optExpr hc (by simp) e _ hf ht'
    exact ((Walked.noteIf _ _ kw).trans (Walked.noteIf _ _ kw)).andThen hw fun d _ h => h
  | .varDecl x e, scopes, w, hf, hc, ht => by
    have hpend : ∀ y, scopes.waiting x.lexeme = some y → y = x.lexeme := by
      intro y hy
      cases scopes with
      | nil => cases hy
      | cons s outer => exact (Option.some.inj hy).symm
    have hw := walked_optExpr hc (fun y hy => by rw [hpend y hy]; exact hf.1) e (w.declare x) hf.2
      ht.declare
    rw [Resolve.stmt]
    refine ⟨?_, ?_⟩
    · refine Tracks.define (w := Resolve.optExpr c e (w.declare x)) ?_ hpend
      rw [optExpr_scopes]
      exact ht.declare
    · have hall := ((walked_declare ht x).trans hw).trans (walked_define _ x.lexeme)
      rw [List.append_nil] at hall
      exact hall.mono fun d h => ⟨⟨hf.1.1, hf.1.2, h.1.1⟩, h.1.2⟩
  | .loop e s, scopes, w, hf, hc, ht => by
    have hw₁ := walked_expr hc (by simp) e w hf.1 ht
    obtain ⟨ht₂, hw₂⟩ := walked_stmt c s scopes (Resolve.expr c e w) hf.2.2 hc
      (by rwa [expr_scopes])
    rw [after_of_declares? hf.2.1] at ht₂
    exact ⟨ht₂, hw₁.andThen hw₂ fun d h h' => ⟨h, hf.2.1, h'⟩⟩

theorem walked_stmts (c : Context) : ∀ (ss : List (Stmt NodeId)) (scopes : Scopes NodeId) (w : Walk),
    Stmt.FormedAll ss → Around c scopes → Tracks none w.scopes scopes →
      (∃ scopes', scopes'.tail = scopes.tail ∧ Tracks none (Resolve.stmts c ss w).scopes scopes') ∧
      Walked w (Resolve.stmts c ss w) (Stmt.marksAll ss)
        fun d => Stmt.ScopedAll (·.Settled d) scopes ss
  | [], scopes, w, _, _, ht => ⟨⟨scopes, rfl, ht⟩, Walked.refl rfl rfl⟩
  | s :: ss, scopes, w, hf, hc, ht => by
    obtain ⟨ht₁, hw₁⟩ := walked_stmt c s scopes w hf.1 hc ht
    obtain ⟨⟨scopes', htail, ht₂⟩, hw₂⟩ := walked_stmts c ss (s.after scopes) _ hf.2 (hc.after hf.1) ht₁
    exact ⟨⟨scopes', htail.trans (after_tail s scopes), ht₂⟩, hw₁.andThen hw₂ fun d h h' => ⟨h, h'⟩⟩

theorem walked_optStmt (c : Context) : ∀ (s : Option (Stmt NodeId)) (scopes : Scopes NodeId) (w : Walk),
    Stmt.FormedOpt s → Around c scopes → Tracks none w.scopes scopes →
      Tracks none (Resolve.optStmt c s w).scopes scopes ∧
      Walked w (Resolve.optStmt c s w) (Stmt.marksOpt s)
        fun d => Stmt.ScopedOpt (·.Settled d) scopes s
  | none, scopes, w, _, _, ht => ⟨ht, Walked.refl rfl rfl⟩
  | some s, scopes, w, hf, hc, ht => by
    obtain ⟨ht₁, hw₁⟩ := walked_stmt c s scopes w hf.2 hc ht
    rw [after_of_declares? hf.1] at ht₁
    exact ⟨ht₁, hw₁.mono fun d h => ⟨hf.1, h⟩⟩

theorem walked_funDecl (c : Context) : ∀ (f : FunDecl (Stmt NodeId)) (scopes : Scopes NodeId) (w : Walk),
    Stmt.FormedFun f → Around c scopes → Tracks none w.scopes scopes →
      Tracks none (Resolve.funDecl c f w).scopes scopes ∧
      Walked w (Resolve.funDecl c f w) (Stmt.marksFun f)
        fun d => Stmt.ScopedFun (·.Settled d) scopes f
  | ⟨x, params, body⟩, scopes, w, hf, hc, ht => by
    obtain ⟨ht₁, hw₁⟩ := walked_params params (w := w.openScope)
      (ht.push (.function ⟨x, params, body⟩))
    rw [List.append_nil] at ht₁
    have hplain : ∀ y, ¬ Plain y → y ∉ (params.map Token.lexeme).reverse := by
      intro y hy hmem
      rw [List.mem_reverse] at hmem
      obtain ⟨p, hp, rfl⟩ := List.mem_map.1 hmem
      exact hy (hf.1 p hp)
    obtain ⟨⟨ss, hss, ht₂⟩, hw₂⟩ := walked_stmts c body (.ofFunction ⟨x, params, body⟩ :: scopes) _ hf.2
      (hc.push (hplain _ fun h => h.1 rfl) (hplain _ fun h => h.2 rfl)) ht₁
    have htail := ht₂.tail
    rw [hss] at htail
    exact ⟨htail, (hw₁.andThen hw₂ fun d h h' => ⟨h.1, hf.1, h'⟩).inScope⟩

theorem walked_methods (c : Context) : ∀ (ms : List (FunDecl (Stmt NodeId))) (scopes : Scopes NodeId)
    (w : Walk), Stmt.FormedMethods ms → (∀ m, Around c (.ofReceiver m :: scopes)) →
      (∀ site, Tracks none w.scopes (⟨site, ["this"]⟩ :: scopes)) →
      (∀ site, Tracks none (Resolve.methodDecls c ms w).scopes (⟨site, ["this"]⟩ :: scopes)) ∧
      Walked w (Resolve.methodDecls c ms w) (Stmt.marksMethods ms)
        fun d => Stmt.ScopedMethods (·.Settled d) scopes ms
  | [], scopes, w, _, _, ht => ⟨ht, Walked.refl rfl rfl⟩
  | m :: ms, scopes, w, hf, hc, ht => by
    obtain ⟨ht₁, hw₁⟩ := walked_funDecl { c with inFunction := Resolve.methodContext m.name.lexeme } m
      (.ofReceiver m :: scopes) w hf.1 (hc m) (ht _)
    obtain ⟨ht₂, hw₂⟩ := walked_methods c ms scopes _ hf.2 hc ht₁.onSite
    exact ⟨ht₂, hw₁.andThen hw₂ fun d h h' => ⟨h, h'⟩⟩

end

/-! ## Programs -/

/-- A program without reports: its distances are those of its text. -/
theorem settled_of_resolve {bindings : Bindings} {tree : List (Stmt NodeId)} (hf : Stmt.FormedAll tree)
    (hn : (Stmt.marksAll tree).Nodup) (hb : ∀ k ∈ Stmt.marksAll tree, bindings.find? k = none)
    (hr : (Resolve.program bindings tree).2 = []) :
    Stmt.ScopedAll (·.Settled (Resolve.program bindings tree).1.find?) [] tree := by
  obtain ⟨_, hw⟩ := walked_stmts {} tree [] { bindings } hf (fun hc => nomatch hc) rfl
  exact hw.bound hr hn hb _ fun _ _ => rfl

/-- Whatever the walk reports is static. -/
theorem resolve_reports (bindings : Bindings) {tree : List (Stmt NodeId)} (hf : Stmt.FormedAll tree) :
    ∀ r ∈ (Resolve.program bindings tree).2, r.isStatic = true := by
  obtain ⟨_, hw⟩ := walked_stmts {} tree [] { bindings } hf (fun hc => nomatch hc) rfl
  exact hw.reports.isStatic

theorem kept_of_resolve (bindings : Bindings) {tree : List (Stmt NodeId)} (hf : Stmt.FormedAll tree)
    {k : NodeId} (hk : k ∉ Stmt.marksAll tree) :
    (Resolve.program bindings tree).1.find? k = bindings.find? k := by
  obtain ⟨_, hw⟩ := walked_stmts {} tree [] { bindings } hf (fun hc => nomatch hc) rfl
  exact hw.kept k hk

end

end Lox
