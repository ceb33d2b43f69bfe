import Lox.Proofs.Parser.CompleteStatements
import Lox.Proofs.Parser.SoundStatements

/-!
# The parser accepts exactly the grammar

Soundness and completeness of the parsing functions, put together for whole programs and for single
expressions. That the tree is the only one follows: each derivation makes the same run of the parser
succeed, and a run has one result.
-/

namespace Lox.Parser

open Grammar

variable {nextId : NodeId} {tokens : List Token}

/-- The tokens before the first end marker. -/
abbrev upToEnd (tokens : List Token) : List Token := (splitEnd tokens).1

theorem end_is (tokens : List Token) : (splitEnd tokens).2.is .eof = true := by
  unfold splitEnd
  cases h : tokens.find? (·.is .eof) with
  | none => rfl
  | some t =>
    have ht : t.is .eof = true := List.find?_some (p := fun t : Token => t.is .eof) h
    exact ht

theorem upToEnd_append {body rest : List Token} (h : ∀ t ∈ body, t.is .eof = false) :
    upToEnd (body ++ rest) = body ++ upToEnd rest :=
  List.takeWhile_append_of_pos fun t ht => by simp [h t ht]

theorem upToEnd_closed {body : List Token} (h : ∀ t ∈ body, t.is .eof = false) (last : Nat) :
    upToEnd (body ++ [.endAt last]) = body :=
  (upToEnd_append h).trans (List.append_nil body)

theorem length_upToEnd_le (tokens : List Token) : (upToEnd tokens).length ≤ tokens.length :=
  (List.takeWhile_sublist _).length_le

/-- The run of the parser behind `program`. -/
abbrev programRun (nextId : NodeId) (tokens : List Token) : Parsed (List (Stmt NodeId)) :=
  declarations (fuelFor tokens) false (splitEnd tokens).2 ⟨upToEnd tokens, nextId, []⟩

theorem program_eq (nextId : NodeId) (tokens : List Token) :
    program nextId tokens = match programRun nextId tokens with
      | .ok statements s => ⟨statements, s.reports, s.nextId⟩
      | .fault t cause s => ⟨[], s.reports ++ [cause.report t], s.nextId⟩
      | .outOfFuel => ⟨[], [], nextId⟩ := rfl

/-- The fuel that is set aside for a token list is enough for every run. -/
theorem program_ends (nextId : NodeId) (tokens : List Token) :
    Ends (programRun nextId tokens)
      (fun body s => Reads ⟨upToEnd tokens, nextId, []⟩ s (fun ts => AreDeclarations body ts ∧
        Fresh nextId s.nextId (Stmt.marksAll body)) ∧ s.rest = [])
      (Stops ⟨upToEnd tokens, nextId, []⟩) False := by
  have hlen := length_upToEnd_le tokens
  refine ((stmtSound (end_is tokens) (fuelFor tokens)).declarations false _).mono ?_
    (fun _ hstop => hstop) ?_
  · rintro body s ⟨hread, hend⟩
    exact ⟨hread, hend rfl⟩
  · unfold fuelFor
    simp only
    omega

theorem nextId_le_program (nextId : NodeId) (tokens : List Token) :
    nextId ≤ (program nextId tokens).nextId := by
  have h := program_ends nextId tokens
  rw [program_eq]
  generalize programRun nextId tokens = r at h
  cases r with
  | ok body s => exact h.1.ids
  | fault t cause s => exact Reads.ids h
  | outOfFuel => exact h.elim

/-- Whatever the parser reports is static. -/
theorem program_reports (nextId : NodeId) (tokens : List Token) :
    ∀ r ∈ (program nextId tokens).reports, r.isStatic = true := by
  have h := program_ends nextId tokens
  rw [program_eq]
  generalize programRun nextId tokens = r at h
  cases r with
  | ok body s => exact h.1.reports.isStatic
  | fault t cause s => exact ((Reads.reports h).trans (.one _ rfl)).isStatic
  | outOfFuel => exact h.elim

/-- A program without reports is derived, and its marks are its own. -/
theorem program_sound (h : (program nextId tokens).reports = []) :
    Program (upToEnd tokens) (program nextId tokens).tree ∧
      Fresh nextId (program nextId tokens).nextId (Stmt.marksAll (program nextId tokens).tree) := by
  have hends := program_ends nextId tokens
  rw [program_eq] at h ⊢
  generalize programRun nextId tokens = r at h hends
  cases r with
  | ok body s =>
    obtain ⟨⟨_, _, ts, hts, hread⟩, hend⟩ := hends
    obtain ⟨⟨parts, rfl, hparts, rfl⟩, hfresh⟩ := hread h
    have hall : upToEnd tokens = (parts.map Prod.fst).flatten := by
      simpa [hend] using hts
    rw [hall]
    exact ⟨⟨parts, hparts⟩, hfresh⟩
  | fault t cause s => simp at h
  | outOfFuel => exact hends.elim

/-- What the grammar derives is returned without a report. -/
theorem program_complete {tree : List (Stmt ν)} (h : Program (upToEnd tokens) tree) :
    (program nextId tokens).reports = [] ∧
      Stmt.unmarkedAll (program nextId tokens).tree = Stmt.unmarkedAll tree := by
  have hlen := length_upToEnd_le tokens
  generalize hts : upToEnd tokens = ts at h
  cases h with
  | mk parts hparts =>
    obtain ⟨body, i', hbody, hp⟩ := declarations_of_accepted (splitEnd tokens).2 (fuelFor tokens) []
      nextId [] false rfl parts hparts
      (fun p hp => accepted_of_forms (hparts p hp))
      (by rw [← hts]; simp only [fuelFor, List.length_nil]; omega)
    have hrun : programRun nextId tokens = .ok body ⟨[], i', []⟩ := by
      rw [programRun, hts]
      simpa using hp
    rw [program_eq, hrun]
    exact ⟨rfl, hbody⟩

/-! ## Single expressions -/

abbrev singleRun (nextId : NodeId) (tokens : List Token) : Parsed (Expr NodeId) :=
  wholeExpression (fuelFor tokens) (splitEnd tokens).2 ⟨upToEnd tokens, nextId, []⟩

theorem single_eq (nextId : NodeId) (tokens : List Token) :
    single nextId tokens = match singleRun nextId tokens with
      | .ok e s => ⟨some e, s.reports, s.nextId⟩
      | .fault t cause s => ⟨none, s.reports ++ [cause.report t], s.nextId⟩
      | .outOfFuel => ⟨none, [], nextId⟩ := rfl

theorem single_ends (nextId : NodeId) (tokens : List Token) :
    Ends (singleRun nextId tokens)
      (fun e s => Sound .assignment ⟨upToEnd tokens, nextId, []⟩ e s ∧ s.rest = [])
      (Stops ⟨upToEnd tokens, nextId, []⟩) False := by
  have hlen := length_upToEnd_le tokens
  rw [singleRun, wholeExpression]
  refine ((exprSound (end_is tokens) (fuelFor tokens)).expression _).bind ?_
    (fun _ hstop => hstop) ?_
  · intro e s hsound
    refine Ends.bind (x := atEnd) (P := fun b s' => b = s.rest.isEmpty ∧ s' = s)
      (F := fun _ => False) (D := False) ⟨rfl, rfl⟩ ?_ (fun _ h => h.elim) (fun h => h.elim)
    rintro _ _ ⟨rfl, rfl⟩
    rename_i s
    cases hrest : s.rest with
    | nil => exact ⟨hsound, hrest⟩
    | cons t ts => exact hsound.1.stops
  · unfold fuelFor
    simp only
    omega

theorem single_sound {e : Expr NodeId} (he : (single nextId tokens).tree = some e)
    (h : (single nextId tokens).reports = []) : Derives .assignment (upToEnd tokens) e := by
  have hends := single_ends nextId tokens
  rw [single_eq] at h he
  generalize singleRun nextId tokens = r at h he hends
  cases r with
  | ok e' s =>
    obtain ⟨⟨⟨_, _, ts, hts, hread⟩, _⟩, hend⟩ := hends
    have hall : upToEnd tokens = ts := by
      simpa [hend] using hts
    rw [hall]
    simp only [Option.some.injEq] at he
    rw [← he]
    exact (hread h).1
  | fault t cause s => simp at he
  | outOfFuel => exact hends.elim

variable (nextId) in
theorem single_complete {e : Expr ν} (h : Derives .assignment (upToEnd tokens) e) :
    (single nextId tokens).reports = [] ∧
      ∃ e', (single nextId tokens).tree = some e' ∧ e'.unmarked = e.unmarked := by
  have hlen := length_upToEnd_le tokens
  obtain ⟨e', i', he, hp⟩ := (parses_of_derives h).complete (splitEnd tokens).2 [] (fuelFor tokens)
    nextId [] (fun _ ht => nomatch ht) (by simp only [fuelFor, budget, List.length_nil]; omega)
  rw [List.append_nil] at hp
  have hw : singleRun nextId tokens = .ok e' ⟨[], i', []⟩ := by
    rw [singleRun, wholeExpression]
    exact bind_of_ok hp
  rw [single_eq, hw]
  exact ⟨rfl, e', rfl, he⟩

/-! ## Exactness -/

/-- A token list is accepted without a report if and only if the grammar derives it, up to its end
marker; what is returned is derived, and it is the only tree that is, up to its marks. The same holds
of a list that is read as one expression. -/
theorem parser_accepts_exactly_grammar (nextId : NodeId) (tokens : List Token) :
    ((program nextId tokens).reports = [] ↔
      ∃ tree : List (Stmt NodeId), Program (upToEnd tokens) tree) ∧
    ((program nextId tokens).reports = [] →
      Program (upToEnd tokens) (program nextId tokens).tree ∧
      ∀ tree : List (Stmt NodeId), Program (upToEnd tokens) tree →
        Stmt.unmarkedAll tree = Stmt.unmarkedAll (program nextId tokens).tree) ∧
    ((∃ e, (single nextId tokens).tree = some e ∧ (single nextId tokens).reports = []) ↔
      ∃ e : Expr NodeId, Derives .assignment (upToEnd tokens) e) ∧
    ∀ e, (single nextId tokens).tree = some e → (single nextId tokens).reports = [] →
      Derives .assignment (upToEnd tokens) e ∧
      ∀ e' : Expr NodeId, Derives .assignment (upToEnd tokens) e' → e'.unmarked = e.unmarked := by
  refine ⟨⟨?_, ?_⟩, ?_, ⟨?_, ?_⟩, ?_⟩
  · intro h
    exact ⟨_, (program_sound h).1⟩
  · rintro ⟨tree, htree⟩
    exact (program_complete htree).1
  · intro h
    exact ⟨(program_sound h).1, fun tree htree => (program_complete htree).2.symm⟩
  · rintro ⟨e, he, h⟩
    exact ⟨e, single_sound he h⟩
  · rintro ⟨e, hd⟩
    obtain ⟨h, e', he', _⟩ := single_complete nextId hd
    exact ⟨e', he', h⟩
  · intro e he h
    refine ⟨single_sound he h, ?_⟩
    intro e' hd
    obtain ⟨_, e'', he'', hu⟩ := single_complete nextId hd
    rw [he, Option.some.injEq] at he''
    rw [he'', hu]

end Lox.Parser
