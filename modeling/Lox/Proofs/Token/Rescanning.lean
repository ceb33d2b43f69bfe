import Mathlib.Data.List.Forall2
import Lox.Proofs.Token.Exact
import Lox.Proofs.Token.Pieces

/-!
# Scanning lexemes again

A token keeps nothing of what stood next to it: its lexeme, with a blank or nothing behind it, is read back
whole and alone (`reads_of_spells`), and no trivia start at it (`stuck_of_spells`). So the lexemes of a source,
with white space between neighbours, are scanned to the same tokens, though the source had faults between them:
`rescanning_round_trip`.
-/

namespace Lox.Scan

/-- The texts in order, with white space between neighbours. -/
inductive Joins : List String → String → Prop
  | none : Joins [] ""
  | one {a : String} : Joins [a] a
  | more {a b : String} {rest : List String} {gap text : String} : gap ≠ "" →
      (∀ c ∈ gap.toList, c ∈ [' ', '\t', '\r', '\n']) → Joins (b :: rest) text →
      Joins (a :: b :: rest) (a ++ gap ++ text)

variable {line : Nat} {cs gap rest : List Char} {kind : Kind} {found : List Item} {ts : List Token} {text : String}

/-- Every token but the end of the input is spelled as the grammar says. -/
theorem Scans.spells (h : Scans line cs found) {t : Token} (ht : .token t ∈ found) (heof : t.is .eof = false) :
    Spells t.lexeme.toList t.kind := by
  induction h with
  | done =>
    cases List.mem_singleton.1 ht
    cases heof
  | token _ hreads _ ih =>
    rcases List.mem_cons.1 ht with ht | ht
    · cases ht
      cases hreads with
      | token hspells => rwa [String.toList_ofList]
    · exact ih ht
  | fault _ _ _ ih =>
    rcases List.mem_cons.1 ht with ht | ht
    · cases ht
    · exact ih ht

/-- The tokens of a source but the end of the input. -/
def tokensOnly (source : String) : List Token := (tokens source).filter (! ·.is .eof)

theorem spells_of_mem {source : String} {t : Token} (ht : t ∈ tokensOnly source) :
    Spells t.lexeme.toList t.kind := by
  obtain ⟨hmem, heof⟩ := List.mem_filter.1 ht
  obtain ⟨item, hitem, htoken⟩ := List.mem_filterMap.1 hmem
  cases item with
  | token u =>
    cases htoken
    exact (scans_itemsFrom 1 source.toList).spells hitem (by simpa using heof)
  | fault line cause => cases htoken

/-! ## A lexeme before a blank -/

theorem trivia_of_blanks (h : ∀ c ∈ gap, c ∈ [' ', '\t', '\r', '\n']) : Trivia gap rest := by
  induction gap with
  | nil => exact .none
  | cons c gap ih =>
    obtain ⟨hc, hgap⟩ := List.forall_mem_cons.1 h
    exact .blank hc (ih hgap)

section
variable (h : Spells cs kind) (hrest : ∀ c ∈ rest.head?, c ∈ [' ', '\t', '\r', '\n'])
include h hrest

/-- The lexeme is read back. -/
theorem reads_of_spells : Reads cs (.ok kind) rest := by
  obtain ⟨c, tail, rfl, hself, _⟩ := Lexeme.of_spells h
  cases rest with
  | nil =>
    have hreads := Lexeme.reads_of c tail
    rwa [hself] at hreads
  | cons y rest =>
    have hclosed : (Lexeme.of c tail).kind ≠ .error .unterminatedString := by simp [hself]
    have hblank := Lexeme.of_blank tail rest (hrest y rfl) c hclosed
    have hreads := Lexeme.reads_of c (tail ++ y :: rest)
    rwa [hblank, hself] at hreads

/-- Nothing of it is skipped. -/
theorem stuck_of_spells : Stuck (cs ++ rest) := by
  obtain ⟨c, tail, rfl, hself, _⟩ := Lexeme.of_spells h
  refine stuck_cons ?_ ?_
  · intro hc
    simp only [List.mem_cons, List.not_mem_nil, or_false] at hc
    rcases hc with rfl | rfl | rfl | rfl <;> cases hself
  · rintro ⟨rfl, hhead⟩
    -- the lexeme is the slash alone
    have htail : (Lexeme.of '/' tail).rest = [] := congrArg Lexeme.rest hself
    obtain rfl : tail = [] := htail
    exact absurd (hrest '/' hhead) (by decide)

/-- Behind white space, it makes the next item. -/
theorem itemsFrom_of_spells (hgap : ∀ c ∈ gap, c ∈ [' ', '\t', '\r', '\n']) (line : Nat) :
    ∃ last, itemsFrom line (gap ++ cs ++ rest) =
      .token ⟨kind, String.ofList cs, last⟩ :: itemsFrom last rest :=
  ⟨_, itemsFrom_of_reads ((trivia_of_blanks hgap).longest (stuck_of_spells h hrest)) (reads_of_spells h hrest)⟩

end

/-! ## Joined lexemes -/

/-- The same kind, with the same value, and the same lexeme. -/
def SameToken (t u : Token) : Prop := t.kind = u.kind ∧ t.lexeme = u.lexeme

theorem itemsFrom_of_joins {lexemes : List String} (h : Joins lexemes text) (hts : ts.map Token.lexeme = lexemes)
    (hspells : ∀ t ∈ ts, Spells t.lexeme.toList t.kind) (line : Nat) {gap : List Char}
    (hgap : ∀ c ∈ gap, c ∈ [' ', '\t', '\r', '\n']) :
    ∃ again last, itemsFrom line (gap ++ text.toList) = (again ++ [.endAt last]).map .token ∧
      List.Forall₂ SameToken ts again := by
  induction h generalizing ts line gap with
  | none =>
    obtain rfl := List.map_eq_nil_iff.1 hts
    have hlongest : Longest Trivia gap [] := (trivia_of_blanks hgap).longest stuck_nil
    exact ⟨[], _, itemsFrom_of_nil (skipTrivia_eq line hlongest), .nil⟩
  | one =>
    obtain ⟨t, ts, rfl, rfl, htail⟩ := List.map_eq_cons_iff.1 hts
    obtain rfl := List.map_eq_nil_iff.1 htail
    have hhead : ∀ c ∈ ([] : List Char).head?, c ∈ [' ', '\t', '\r', '\n'] := by simp
    obtain ⟨here, hitems⟩ := itemsFrom_of_spells (hspells t (by simp)) hhead hgap line
    rw [List.append_nil] at hitems
    refine ⟨[⟨t.kind, t.lexeme, here⟩], here, ?_, .cons ⟨rfl, rfl⟩ .nil⟩
    rw [hitems, String.ofList_toList, itemsFrom_of_nil rfl]
    rfl
  | @more _ _ _ space text hne hspace _ ih =>
    obtain ⟨t, ts, rfl, rfl, htail⟩ := List.map_eq_cons_iff.1 hts
    obtain ⟨ht, hrest⟩ := List.forall_mem_cons.1 hspells
    have hhead : ∀ c ∈ (space.toList ++ text.toList).head?, c ∈ [' ', '\t', '\r', '\n'] := by
      obtain ⟨y, blanks, hy⟩ := List.exists_cons_of_ne_nil (l := space.toList) (by simpa using hne)
      intro c hc
      refine hspace c ?_
      rw [hy] at hc ⊢
      cases hc
      exact List.mem_cons_self
    obtain ⟨here, hitems⟩ := itemsFrom_of_spells ht hhead hgap line
    obtain ⟨again, last, hmore, hsame⟩ := ih htail hrest here hspace
    refine ⟨⟨t.kind, t.lexeme, here⟩ :: again, last, ?_, .cons ⟨rfl, rfl⟩ hsame⟩
    rw [String.toList_append, String.toList_append, List.append_assoc, ← List.append_assoc, hitems, hmore,
      String.ofList_toList]
    rfl

/-- The lexemes of the tokens of a source, with white space between neighbours, are scanned without a fault to as
many tokens and the end of the input; and these are the tokens of the source, in the same order. -/
theorem rescanning_round_trip {source text : String} (h : Joins ((tokensOnly source).map Token.lexeme) text) :
    ∃ again last, items text = (again ++ [.endAt last]).map .token ∧
      List.Forall₂ SameToken (tokensOnly source) again := by
  have hgap : ∀ c ∈ ([] : List Char), c ∈ [' ', '\t', '\r', '\n'] := by simp
  exact itemsFrom_of_joins h rfl (fun _ => spells_of_mem) 1 hgap

/-- A source with three faults, and with tokens that stand together. -/
def faulty : String := "1.#x//\n/ \"a//\nb\"!=..é\"c"

theorem faulty_round_trip :
    Joins ((tokensOnly faulty).map Token.lexeme) "1 .\tx\r/\n\n\"a//\nb\" != . ." ∧ (reports faulty).length = 3 ∧
      ∃ again last, items "1 .\tx\r/\n\n\"a//\nb\" != . ." = (again ++ [.endAt last]).map .token ∧
        List.Forall₂ SameToken (tokensOnly faulty) again := by
  have hlexemes : (tokensOnly faulty).map Token.lexeme = ["1", ".", "x", "/", "\"a//\nb\"", "!=", ".", "."] := by
    decide +kernel
  have hjoins : Joins ((tokensOnly faulty).map Token.lexeme) "1 .\tx\r/\n\n\"a//\nb\" != . ." := by
    rw [hlexemes]
    exact @Joins.more _ _ _ " " _ (by decide) (by simp) <| @Joins.more _ _ _ "\t" _ (by decide) (by simp) <|
      @Joins.more _ _ _ "\r" _ (by decide) (by simp) <| @Joins.more _ _ _ "\n\n" _ (by decide) (by simp) <|
      @Joins.more _ _ _ " " _ (by decide) (by simp) <| @Joins.more _ _ _ " " _ (by decide) (by simp) <|
      @Joins.more _ _ _ " " _ (by decide) (by simp) .one
  exact ⟨hjoins, by decide +kernel, rescanning_round_trip hjoins⟩

end Lox.Scan
