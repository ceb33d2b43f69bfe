import Lox.Proofs.Parser.BlameStatements
import Lox.Proofs.Parser.Indexing

/-!
# The first error

The run of the parser on a whole input meets the expectation of a program. So either the input is a
program of the looser grammar and only faults in passing are reported, or the first other report blames
the first token with which no program begins.
-/

namespace Lox.Loose

/-- A program with its end marker. -/
def Closed (ts : List Token) : Prop :=
  ∃ body eof, ts = body ++ [eof] ∧ eof.is .eof = true ∧ Program body

/-- Some program with its end marker begins with the tokens. -/
def Begins (ts : List Token) : Prop := ∃ us, Closed (ts ++ us)

variable {ts us : List Token} {t eof : Token}

theorem unended_of_program (h : Program ts) : Free .eof ts := by
  cases h with
  | mk parts hparts => exact free_flatten fun us hus => unended_of_forms (hparts us hus)

theorem begins_of_program (h : Program (ts ++ us)) : Begins ts :=
  ⟨us ++ [.endAt 1], ts ++ us, .endAt 1, by simp, rfl, h⟩

/-- What begins a program and has no end marker yet, begins the tokens before the end marker. -/
theorem program_of_begins (h : Begins ts) (hts : Free .eof ts) : ∃ us, Program (ts ++ us) := by
  obtain ⟨us, body, eof, hsplit, heof, hbody⟩ := h
  rcases List.eq_nil_or_concat us with rfl | ⟨us, e, rfl⟩
  · rw [List.append_nil] at hsplit
    simp [hsplit, heof] at hts
  · rw [List.concat_eq_append, ← List.append_assoc] at hsplit
    obtain ⟨rfl, -⟩ := List.append_inj' hsplit rfl
    exact ⟨us, hbody⟩

/-- The end marker comes at the end. -/
theorem program_of_begins_end (heof : eof.is .eof = true) (h : Begins (ts ++ [eof])) : Program ts := by
  obtain ⟨us, body, e, hsplit, -, hbody⟩ := h
  rcases List.eq_nil_or_concat us with rfl | ⟨us, u, rfl⟩
  · rw [List.append_nil] at hsplit
    obtain ⟨rfl, -⟩ := List.append_inj' hsplit rfl
    exact hbody
  · rw [List.concat_eq_append, ← List.append_assoc] at hsplit
    obtain ⟨rfl, -⟩ := List.append_inj' hsplit rfl
    have hfree := unended_of_program hbody
    simp [heof] at hfree

end Lox.Loose

namespace Lox.Parser

variable {nextId : NodeId} {tokens : List Token}

/-- What is expected behind a program: nothing. -/
abbrev Nothing : Expected := (· = [])

theorem lines_nothing {w : List Token} : Lines Nothing w ↔ Loose.Program w := by
  refine many_iff.trans ⟨?_, ?_⟩
  · rintro ⟨parts, _, rfl, hparts, rfl⟩
    rw [List.append_nil]
    exact .mk parts hparts
  · rintro ⟨parts, hparts⟩
    exact ⟨parts, [], by simp, hparts, rfl⟩

theorem programRun_meets (nextId : NodeId) (tokens : List Token) :
    Meets (splitEnd tokens).2 false (Lines Nothing) Nothing ⟨upToEnd tokens, nextId, []⟩
      (programRun nextId tokens) := by
  have hclose : Closes false Nothing := fun _ hw => .inl hw
  exact (stmtMeets (end_is tokens) _).declarations _ ⟨[], rfl⟩ hclose

/-- A whole input is a program and all faults are noted in passing, or the parser was stuck once. -/
theorem program_meets (nextId : NodeId) (tokens : List Token) :
    (Loose.Program (upToEnd tokens) ∧ ∀ r ∈ (program nextId tokens).reports, r.inPassing = true) ∨
      ∃ s, Recovered (splitEnd tokens).2 false ⟨upToEnd tokens, nextId, []⟩ s (Lines Nothing) ∧
        s.reports = (program nextId tokens).reports := by
  have hmeets := programRun_meets nextId tokens
  have hends := program_ends nextId tokens
  have hnofault := Cursor.declarations_ends (fuelFor tokens) false (splitEnd tokens).2
    ⟨upToEnd tokens, nextId, []⟩
  rw [program_eq]
  unfold programRun at hmeets hends ⊢
  generalize declarations _ _ _ _ = r at hmeets hends hnofault
  cases r with
  | ok body s =>
    rcases hmeets with ⟨⟨notes, hreports, hnotes⟩, ts, hts, hin, -⟩ | h
    · have hall : upToEnd tokens = ts := by simpa [hends.2] using hts
      refine .inl ⟨?_, fun r hr => hnotes r (by simpa [hreports] using hr)⟩
      simpa [hall] using lines_nothing.1 (hin [] rfl)
    · exact .inr ⟨s, h, rfl⟩
  | fault t cause s => exact hnofault.elim
  | outOfFuel => exact hends.elim

/-- Where the parser of a program was stuck, there is no program. -/
theorem not_program_of_stuck {s : ParseState} (h : Stuck ⟨upToEnd tokens, nextId, []⟩ s (Lines Nothing)) :
    ¬ Loose.Program (upToEnd tokens) := by
  obtain ⟨-, ts, hts, -, hno⟩ := h
  exact fun hprogram => hno s.rest rfl (hts ▸ lines_nothing.2 hprogram)

/-- In a program of the looser grammar all faults are noted in passing. -/
theorem passes_of_program (nextId : NodeId) (h : Loose.Program (upToEnd tokens)) :
    ∀ r ∈ (program nextId tokens).reports, r.inPassing = true := by
  rcases program_meets nextId tokens with ⟨-, hpassing⟩ | ⟨s, ⟨s₁, -, -, hstuck, -⟩, -⟩
  · exact hpassing
  · exact absurd h (not_program_of_stuck hstuck)

/-- The grammar is the looser one without what is noted in passing. -/
theorem derived_iff_unnoted (nextId : NodeId) (tokens : List Token) :
    (∃ tree : List (Stmt NodeId), Grammar.Program (upToEnd tokens) tree) ↔
      Loose.Program (upToEnd tokens) ∧ (program nextId tokens).reports = [] := by
  constructor
  · rintro ⟨tree, htree⟩
    exact ⟨Loose.program_of_grammar htree, (program_complete htree).1⟩
  · rintro ⟨-, hreports⟩
    exact ⟨_, (program_sound hreports).1⟩

/-- Where the parser of a program is stuck, there is the first token with which no program begins. -/
theorem begins_of_stuck {s s' : ParseState} {eof : Token} (heof : eof.is .eof = true)
    (hs : Loose.Free .eof s.rest) (h : Stuck s s' (Lines Nothing)) : ∃ ts more,
      s.rest ++ [eof] = ts ++ s'.rest.headD eof :: more ∧ Loose.Begins ts ∧
        ¬ Loose.Begins (ts ++ [s'.rest.headD eof]) := by
  obtain ⟨-, ts, hts, ⟨w, hw⟩, hno⟩ := h
  have hbegins : Loose.Begins ts := Loose.begins_of_program (lines_nothing.1 hw)
  rw [hts] at hs ⊢
  -- at the end of the input it is the end marker that cannot go on
  cases hrest : s'.rest with
  | nil =>
    refine ⟨ts, [], by simp, hbegins, fun h => hno [] (by rw [hrest]) ?_⟩
    rw [List.append_nil]
    exact lines_nothing.2 (Loose.program_of_begins_end heof h)
  | cons t more =>
    refine ⟨ts, more ++ [eof], by simp, hbegins, fun h => ?_⟩
    have hfree : Loose.Free .eof (ts ++ [t]) := by
      rw [hrest] at hs
      simp_all
    obtain ⟨us, hus⟩ := Loose.program_of_begins h hfree
    rw [List.append_assoc] at hus
    exact hno (t :: us) (by rw [hrest]; rfl) (lines_nothing.2 hus)

theorem unended_upToEnd (tokens : List Token) : Loose.Free .eof (upToEnd tokens) := fun t ht => by
  simpa using List.mem_takeWhile_imp ht

/-- The parser blames the first token that cannot go on. Programs of the looser grammar are read with
faults in passing only; of every other input, the first report of another kind is about the token `t`,
which may be the end marker, such that some program begins with the tokens before it and none with
these and `t`. What is noted in passing is all that the looser grammar is looser by. -/
theorem first_error_at_first_impossible_token (nextId : NodeId) (tokens : List Token) :
    (Loose.Program (upToEnd tokens) →
      ∀ r ∈ (program nextId tokens).reports, r.inPassing = true) ∧
    (¬ Loose.Program (upToEnd tokens) →
      ∃ ts t more cause, upToEnd tokens ++ [(splitEnd tokens).2] = ts ++ t :: more ∧
        Loose.Begins ts ∧ ¬ Loose.Begins (ts ++ [t]) ∧
        (program nextId tokens).reports.find? (fun r => !r.inPassing) =
          some (SyntaxFault.report cause t)) ∧
    ((∃ tree : List (Stmt NodeId), Grammar.Program (upToEnd tokens) tree) ↔
      Loose.Program (upToEnd tokens) ∧ (program nextId tokens).reports = []) := by
  refine ⟨passes_of_program nextId, fun hno => ?_, derived_iff_unnoted nextId tokens⟩
  obtain ⟨s, ⟨s₁, cause, later, hstuck, hcause, hsplit, -⟩, hreports⟩ :=
    (program_meets nextId tokens).resolve_left fun h => hno h.1
  obtain ⟨ts, more, hinput, hbegins, hends⟩ := begins_of_stuck (end_is tokens) (unended_upToEnd tokens) hstuck
  refine ⟨ts, _, more, cause, hinput, hbegins, hends, ?_⟩
  obtain ⟨notes, hnotes, hpassing⟩ := hstuck.passes
  have hnone : notes.find? (fun r => !r.inPassing) = none :=
    List.find?_eq_none.2 fun r hr => by simp [hpassing r hr]
  rw [← hreports, hsplit, hnotes, List.nil_append, List.find?_append, hnone, Option.none_or,
    List.find?_cons_of_pos (by simp [SyntaxFault.inPassing_report, hcause])]

/-- What `print a` lacks is missed at the end marker. -/
example : (program 0 [.ofSymbol .printKw "print" 1, .ident "a" 1]).reports =
    [SyntaxFault.printEnd.report (.endAt 1)] := rfl

end Lox.Parser
