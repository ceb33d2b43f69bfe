import Mathlib.Data.List.Forall2
import Lox.Proofs.Session.Pieces

/-!
# Layout

Blanks, newlines and comments between the tokens of a source show in the lines of its tokens only, and
no stage looks at a line. So two sources with the same tokens on other lines are parsed, resolved and
run in step (`Session.History.run_relaid`). Main statement: `layout_never_shows`.
-/

namespace Lox

/-- The same text in another layout: neither source has a lexical fault, and their tokens differ in
their lines only. -/
structure Relaid (a b : String) : Prop where
  clean  : Scan.reports a = [] ∧ Scan.reports b = []
  tokens : List.Forall₂ (fun t u : Token => t.kind = u.kind ∧ t.lexeme = u.lexeme) (Scan.tokens a) (Scan.tokens b)

namespace Relaid

variable {a b : String}

theorem symm (h : Relaid a b) : Relaid b a :=
  ⟨h.clean.symm, h.tokens.flip.imp fun _ _ h => ⟨h.1.symm, h.2.symm⟩⟩

/-- Without their lines the tokens are the same. -/
theorem tokens_moved (h : Relaid a b) :
    (Scan.tokens a).map (·.moved lineless) = (Scan.tokens b).map (·.moved lineless) := by
  have hall := h.tokens
  generalize Scan.tokens a = ts, Scan.tokens b = us at hall
  induction hall with
  | nil => rfl
  | @cons t u ts us htu _ ih =>
    have hsame : t.moved lineless = u.moved lineless := by
      simp [Token.moved, lineless, htu.1, htu.2]
    rw [List.map_cons, List.map_cons, hsame, ih]

end Relaid

/-! ## Before the run -/

namespace Attempt

variable {a b : String}

/-- The program without lines and with its identities counted from 0. -/
theorem program_lineless (s : Session) (source : String) :
    Stmt.renameAll (.shape lineless) (Attempt.mk s source).tree =
        Stmt.renameAll (.shape id) (Parser.program 0 ((Scan.tokens source).map (·.moved lineless))).tree ∧
      (Attempt.mk s source).parsed.reports.map (·.moved lineless) =
        (Parser.program 0 ((Scan.tokens source).map (·.moved lineless))).reports := by
  have hmoved := Parser.program_renamed 0 lineless 0 (Scan.tokens_ne_nil source)
  rw [Nat.zero_add] at hmoved
  rw [hmoved, tree, parsed_eq]
  refine ⟨?_, rfl⟩
  rw [Stmt.renameAll_renameAll, Stmt.renameAll_renameAll]
  rfl

/-- Two layouts of a text make programs of one shape. -/
theorem shape_relaid (h : Relaid a b) (s s' : Session) :
    Stmt.renameAll (.shape lineless) (Attempt.mk s a).tree =
      Stmt.renameAll (.shape lineless) (Attempt.mk s' b).tree := by
  rw [(program_lineless s a).1, (program_lineless s' b).1, h.tokens_moved]

theorem parsed_reports_relaid (h : Relaid a b) (s s' : Session) :
    (Attempt.mk s a).parsed.reports.map (·.moved lineless) =
      (Attempt.mk s' b).parsed.reports.map (·.moved lineless) := by
  rw [(program_lineless s a).2, (program_lineless s' b).2, h.tokens_moved]

theorem resolved_reports_relaid (h : Relaid a b) (s s' : Session) :
    (Attempt.mk s a).resolved.2.map (·.moved lineless) =
      (Attempt.mk s' b).resolved.2.map (·.moved lineless) :=
  resolve_reports_of_shape s.bindings s'.bindings (shape_relaid h s s')

variable {s : Session} in
/-- A text is accepted in any layout. -/
theorem Accepted.relaid (ha : (Attempt.mk s a).Accepted) (h : Relaid a b) (s' : Session) :
    (Attempt.mk s' b).Accepted := by
  have hparsed := parsed_reports_relaid h s s'
  have hresolved := resolved_reports_relaid h s s'
  rw [ha.parsed, List.map_nil, eq_comm, List.map_eq_nil_iff] at hparsed
  rw [ha.resolved, List.map_nil, eq_comm, List.map_eq_nil_iff] at hresolved
  exact ⟨h.clean.2, hparsed, hresolved⟩

end Attempt

/-! ## The run -/

namespace Session

variable {clock clock' : Clock} {limit limit' : Option Nat} {rs rs' : List Attempt} {s s' : Session}
  {a b : String}

theorem History.code_relaid (hs : History clock limit rs s) (hs' : History clock' limit' rs' s')
    (h : Relaid a b) (ha : (Attempt.mk s a).Accepted) :
    (Attempt.mk s a).code lineless = (Attempt.mk s' b).code lineless :=
  Stmt.renameAll_eq_of_shape (Attempt.shape_relaid h s s')
    (Attempt.keepsRules ha (steady_of_history hs).unbound)
    (Attempt.keepsRules (ha.relaid h s') (steady_of_history hs').unbound)

/-- The reports of a text that is not accepted are the same in any layout. -/
theorem refused_relaid (h : Relaid a b) (s s' : Session) :
    (s.refused a).reports.moved lineless = (s'.refused b).reports.moved lineless := by
  have hparsed := Attempt.parsed_reports_relaid h s s'
  have hresolved := Attempt.resolved_reports_relaid h s s'
  have hnone : (Attempt.mk s a).parsed.reports = [] ↔ (Attempt.mk s' b).parsed.reports = [] := by
    rw [← List.map_eq_nil_iff, hparsed, List.map_eq_nil_iff]
  unfold refused
  rw [h.clean.1, h.clean.2]
  by_cases hp : (Attempt.mk s a).parsed.reports = []
  · simp only [List.nil_append, if_pos hp, if_pos (hnone.1 hp), Reports.moved, hresolved]
  · simp only [List.nil_append, if_neg hp, if_neg (mt hnone.2 hp), Reports.moved, hparsed]

/-- Two sessions with one view show the same of a text, whatever its layout. -/
theorem History.run_relaid (hs : History clock limit rs s) (hs' : History clock' limit' rs' s')
    (hview : s.view lineless = s'.view lineless) (h : Relaid a b) (fuel : Nat) :
    (s.run fuel a).map (shown lineless) = (s'.run fuel b).map (shown lineless) := by
  by_cases ha : (Attempt.mk s a).Accepted
  · rw [hs.run_shown lineless ha, hs'.run_shown lineless (ha.relaid h s'), hs.code_relaid hs' h ha, hview]
  · have hb : ¬ (Attempt.mk s' b).Accepted := fun hb => ha (hb.relaid h.symm s)
    have hrun := run_of_refused ha fuel
    have hrun' := run_of_refused hb fuel
    simp only [hrun, hrun', Option.map_some, shown, hs.view_refused lineless ha hrun,
      hs'.view_refused lineless hb hrun', hview, refused_relaid h s s']

/-- Steps that are seen with their lines are seen without them. -/
theorem Shows.moved {xs : List Step} (g : Nat → Nat) (h : s.Shows id xs) :
    s.Shows g (xs.map fun x => { x with reports := x.reports.moved g }) := by
  induction xs generalizing s with
  | nil => exact ⟨s, .nil⟩
  | cons x xs ih =>
    obtain ⟨t, htakes, hrest⟩ := shows_cons.1 h
    have hreports : t.reports = x.reports := by simpa using htakes.reports
    exact shows_cons.2 ⟨t, ⟨htakes.run, htakes.printed, by rw [hreports]⟩, ih hrest⟩

/-- The steps with other sources. -/
def withSources (xs : List Step) (sources : List String) : List Step :=
  List.zipWith (fun x source => { x with source }) xs sources

/-- From sessions with one view, a list of sources shows the same steps in any layout. -/
theorem shows_relaid {xs : List Step} {sources : List String} (hs : History clock limit rs s)
    (hs' : History clock' limit' rs' s') (hview : s.view lineless = s'.view lineless)
    (h : List.Forall₂ (fun x b => Relaid x.source b) xs sources) :
    s.Shows lineless xs ↔ s'.Shows lineless (withSources xs sources) := by
  induction h generalizing s s' rs rs' with
  | nil => exact ⟨fun _ => ⟨s', .nil⟩, fun _ => ⟨s, .nil⟩⟩
  | @cons x b xs sources hx _ ih =>
    rw [withSources, List.zipWith_cons_cons, shows_cons, shows_cons]
    constructor
    · rintro ⟨t, htakes, hrest⟩
      obtain ⟨t', htakes', hafter⟩ := htakes.of_shown (hs.run_relaid hs' hview hx) (written_of_view hview)
      exact ⟨t', htakes', (ih (htakes.history hs) (htakes'.history hs') hafter).1 hrest⟩
    · rintro ⟨t', htakes', hrest⟩
      have hback := hs'.run_relaid hs hview.symm hx.symm
      obtain ⟨t, htakes, hafter⟩ := htakes'.of_shown hback (written_of_view hview.symm)
      exact ⟨t, htakes, (ih (htakes.history hs) (htakes'.history hs') hafter.symm).2 hrest⟩

end Session

open Session

/-- Layout never affects meaning. Two lists of sources without lexical faults, which correspond in the
kinds, the values and the lexemes of their tokens, are run in two fresh sessions with the same clock
readings: the steps that are seen of the one are exactly those that are seen of the other, with the same
outcomes, the same output and the same reports up to lines. -/
theorem layout_never_shows (clock : Clock) (limit : Option Nat) {xs : List Step} {sources : List String}
    (h : List.Forall₂ (fun x b => Relaid x.source b) xs sources) :
    (Session.fresh clock limit).Shows lineless xs ↔
      (Session.fresh clock limit).Shows lineless (withSources xs sources) :=
  shows_relaid .fresh .fresh rfl h

/-- A function is declared, called with a wrong argument, and its name is used in a broken call. -/
def threeSteps : List Step :=
  [⟨"fun f(a) { return -a; } var g = f;", .ok, .empty, {}⟩,
   ⟨"print \"b\"; g(\"c\");", .runtimeError, "b\n".toUTF8,
     ⟨[.runtime ⟨.symbol .minus, "-", 1⟩ "Operand must be a number."], true⟩⟩,
   ⟨"g(", .staticError, .empty, ⟨[.syntactic (.endAt 1) "Expect expression."], false⟩⟩]

/-- The same three texts, spread over lines and with comments. -/
def threeLayouts : List String :=
  ["fun f ( a )\n\x7b // negates\n  return\n  -a;\n\x7d\nvar g=f;", "// calls\nprint \"b\";\n\tg ( \"c\" ) ;", "g\n(\n"]

theorem threeLayouts_show :
    List.Forall₂ (fun x b => Relaid x.source b)
        (threeSteps.map fun x => { x with reports := x.reports.moved lineless }) threeLayouts ∧
      (Session.fresh ⟨fun _ => 0, 0⟩).Shows lineless
        (withSources (threeSteps.map fun x => { x with reports := x.reports.moved lineless }) threeLayouts) := by
  have hrelaid : List.Forall₂ (fun x b => Relaid x.source b)
      (threeSteps.map fun x => { x with reports := x.reports.moved lineless }) threeLayouts :=
    .cons ⟨by decide +kernel, by decide +kernel⟩ <| .cons ⟨by decide +kernel, by decide +kernel⟩ <|
      .cons ⟨by decide +kernel, by decide +kernel⟩ .nil
  have hshown : (Session.fresh ⟨fun _ => 0, 0⟩).Shows id threeSteps :=
    shows_of_transcript 20 (threeSteps.map Step.source) (by decide +kernel)
  exact ⟨hrelaid, (layout_never_shows _ _ hrelaid).1 (hshown.moved lineless)⟩

end Lox
