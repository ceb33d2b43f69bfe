import Lox.Proofs.Token.Exact

/-!
# Lines

The line of an item is that of the last character it covers. Newlines are counted wherever they stand, in what
is skipped as in a string; a comment leaves its newline to what comes after it. So the line is told by the text
up to the end of the item alone, and lines never decrease: `lines_are_exact`.
-/

namespace Lox.Scan

variable {line : Nat} {cs : List Char} {found : List Item}

theorem Scans.le_line (h : Scans line cs found) : ∀ x ∈ found, line ≤ x.line := by
  induction h with
  | done =>
    intro x hx
    obtain rfl := List.mem_singleton.1 hx
    exact Nat.le_add_right _ _
  | token _ _ _ ih | fault _ _ _ ih =>
    intro x hx
    rcases List.mem_cons.1 hx with rfl | hx
    · exact Nat.le_add_right _ _
    · exact Nat.le_trans (Nat.le_add_right _ _) (ih x hx)

/-- What comes later ends on no earlier line. -/
theorem Scans.sorted (h : Scans line cs found) : found.Pairwise (·.line ≤ ·.line) := by
  induction h with
  | done => exact List.pairwise_singleton _ _
  | token _ _ hrest ih | fault _ _ hrest ih => exact List.pairwise_cons.2 ⟨hrest.le_line, ih⟩

/-- A string without an end leaves nothing to the pieces after it. -/
theorem Piece.Cut.unterminated {p : Piece} {rest : List Char} (h : p.Cut rest)
    (hp : p.item = .fault line .unterminatedString) : rest = [] := by
  obtain ⟨gap, chars, item⟩ := p
  obtain ⟨_, kind, hreads, hitem⟩ := h.reads
  rw [hitem] at hp
  cases kind with
  | ok kind => cases hp
  | error cause =>
    cases hp
    cases hreads
    rfl

/-- The items of a source are those of the pieces that make it up, and the line of each is one more than the
newlines up to the end of its piece. An unterminated string covers all that is left, the end of the input stands
at the end of the source, and lines never decrease. -/
theorem lines_are_exact (source : String) :
    ∃ pieces gap, Pieces 1 source.toList (items source) pieces gap ∧
      (∀ before p after line, pieces = before ++ p :: after → p.item = .fault line .unterminatedString →
        Piece.texts after ++ gap = []) ∧
      (items source).getLast? = some (.token (.endAt (1 + source.toList.count '\n'))) ∧
      (items source).Pairwise (·.line ≤ ·.line) := by
  have hscans : Scans 1 source.toList (items source) := scans_itemsFrom 1 source.toList
  obtain ⟨pieces, gap, hpieces⟩ := hscans.pieces
  refine ⟨pieces, gap, hpieces, fun before p after line heq hp => ?_, ?_, hscans.sorted⟩
  · exact (hpieces.cut before p after heq).1.unterminated hp
  · rw [hpieces.items, List.getLast?_concat]

example : (items "\"a\nb\" // c\n// \"\n+ \"d\n").map Item.line = [2, 4, 5, 5] := by decide +kernel

end Lox.Scan
