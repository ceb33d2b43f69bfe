import Lox.Proofs.Parser.Indexing
import Lox.Proofs.Parser.Isolation

/-!
# Programs one after another

What follows a program does not change how it is read, unless an `else` comes next; and a list of tokens
is read in the same way wherever it stands, since neither the recovery from its faults nor the fuel that
is left depends on what was read before. Main statement: `program_append`.
-/

namespace Lox.Parser

open Grammar

variable {first rest : List Token} {n : Nat}

theorem fuelFor_append (ts us : List Token) : fuelFor (ts ++ us) = 16 * ts.length + fuelFor us := by
  simp only [fuelFor, List.length_append]
  omega

/-- Any fuel that is enough for the tokens before the end marker gives what `program` gives. -/
theorem declarations_of_fuel (i : NodeId) {tokens : List Token} (hn : fuelFor (upToEnd tokens) ≤ n) :
    declarations n false (splitEnd tokens).2 ⟨upToEnd tokens, i, []⟩ =
      .ok (program i tokens).tree ⟨[], (program i tokens).nextId, (program i tokens).reports⟩ := by
  have hview : Cursor.View (Cursor.close tokens) (splitEnd tokens).2 (upToEnd tokens).length { nextId := i }
      ⟨upToEnd tokens, i, []⟩ := Cursor.view_start (fun _ _ => rfl) i
  -- with the larger fuel the parser with a cursor follows this run, and ends as `program` does
  have hcursor : Cursor.parse (max n (fuelFor tokens)) (Cursor.close tokens) { nextId := i } =
      Cursor.finish (program i tokens) (upToEnd tokens).length :=
    Cursor.parse_ends (fun _ _ => rfl) (Nat.le_max_right n (fuelFor tokens))
  have hfollows := Cursor.mirrors_parse (Cursor.close tokens) _ _ (Nat.le_max_left n (fuelFor tokens)) _ _ hview
  have hsound := (stmtSound (end_is tokens) n).declarations false ⟨upToEnd tokens, i, []⟩
  have hends := Cursor.declarations_ends n false (splitEnd tokens).2 ⟨upToEnd tokens, i, []⟩
  cases hrun : declarations n false (splitEnd tokens).2 ⟨upToEnd tokens, i, []⟩ with
  | ok body s =>
    rw [hrun] at hfollows hsound
    obtain ⟨p, hp, hv⟩ := hfollows
    obtain ⟨rfl, rfl⟩ : (program i tokens).tree = body ∧ _ = p := by
      simpa [Cursor.finish] using hcursor.symm.trans hp
    obtain ⟨left, next, reports⟩ := s
    obtain rfl : left = [] := hsound.2 rfl
    obtain rfl : (program i tokens).nextId = next := hv.nextId
    obtain rfl : (program i tokens).reports = reports := hv.reports
    rfl
  | fault t cause s =>
    rw [hrun] at hends
    exact hends.elim
  | outOfFuel =>
    rw [hrun] at hsound
    have hdry : n < 16 * (upToEnd tokens).length + 13 := hsound
    rw [fuelFor] at hn
    omega

/-- Behind declarations that the grammar derives the parser goes on with what follows them. -/
theorem declarations_after (eof : Token) (i : NodeId) {parts : List (List Token × Stmt ν)}
    (hparts : ∀ p ∈ parts, Forms .declaration p.1 p.2) (hrest : Ended [.elseKw] rest)
    (hn : fuelFor ((parts.map Prod.fst).flatten ++ rest) ≤ n) :
    ∃ body i' k, Stmt.unmarkedAll body = Stmt.unmarkedAll (parts.map Prod.snd) ∧ fuelFor rest ≤ k ∧
      ∀ {statements s}, declarations k false eof ⟨rest, i', []⟩ = .ok statements s →
        declarations n false eof ⟨(parts.map Prod.fst).flatten ++ rest, i, []⟩ =
          .ok (body ++ statements) s := by
  induction parts generalizing n i with
  | nil => exact ⟨[], i, n, rfl, hn, fun hrun => hrun⟩
  | cons p parts ih =>
    obtain ⟨hp, hparts⟩ := List.forall_mem_cons.1 hparts
    simp only [List.map_cons, List.flatten_cons, List.append_assoc] at hn ⊢
    have hlen : 1 ≤ p.1.length := List.length_pos_iff.2 (ne_nil_of_forms hp)
    have hsplit := fuelFor_append p.1 ((parts.map Prod.fst).flatten ++ rest)
    have hnext : Ended [.elseKw] ((parts.map Prod.fst).flatten ++ rest) := by
      cases parts with
      | nil => exact hrest
      | cons q parts =>
        rw [List.map_cons, List.flatten_cons, List.append_assoc]
        exact (ended_of_forms (hparts q List.mem_cons_self)).mono (by decide)
    obtain ⟨n, rfl⟩ : ∃ m, n = m + 1 := ⟨n - 1, by rw [fuelFor] at hn; omega⟩
    obtain ⟨s, i₁, hs, hfirst⟩ := accepted_of_forms hp eof _ n i [] hnext (by
      rw [fuelFor, List.length_append] at hn
      omega)
    obtain ⟨body, i₂, k, hbody, hk, hgoes⟩ := ih i₁ hparts (n := n) (by omega)
    refine ⟨s :: body, i₂, k, by rw [Stmt.unmarkedAll, Stmt.unmarkedAll, hs, hbody], hk, ?_⟩
    intro statements s' hrun
    have hrecovers : recover (declaration n) dropBroken eof
        ⟨p.1 ++ ((parts.map Prod.fst).flatten ++ rest), i, []⟩ =
          .ok (some s) ⟨(parts.map Prod.fst).flatten ++ rest, i₁, []⟩ := by
      rw [recover, hfirst]
    exact declarations_cons (by simp [ne_nil_of_forms hp]) hrecovers (hgoes hrun)

/-- A list that is not empty ends in the same way behind other tokens. -/
theorem end_append (hfirst : Loose.Free .eof first) (hne : rest ≠ []) :
    (splitEnd (first ++ rest)).2 = (splitEnd rest).2 := by
  have hfind : (first ++ rest).find? (·.is .eof) = rest.find? (·.is .eof) := by
    rw [List.find?_append, List.find?_eq_none.2 fun t ht => by simp [hfirst t ht], Option.none_or]
  have hlast : (first ++ rest).getLast? = rest.getLast? := by
    cases hl : rest.getLast? with
    | none => exact absurd (List.getLast?_eq_none_iff.1 hl) hne
    | some t => rw [List.getLast?_append, hl, Option.some_or]
  simp only [splitEnd, hfind, hlast]

/-- The same for the parser: where tokens stand does not matter to it. -/
theorem declarations_behind (hfirst : Loose.Free .eof first) (i : NodeId) (hn : fuelFor (upToEnd rest) ≤ n) :
    declarations n false (splitEnd (first ++ rest)).2 ⟨upToEnd rest, i, []⟩ =
      .ok (program i rest).tree ⟨[], (program i rest).nextId, (program i rest).reports⟩ := by
  obtain rfl | hne := eq_or_ne rest []
  · obtain ⟨n, rfl⟩ : ∃ m, n = m + 1 := ⟨n - 1, by rw [fuelFor] at hn; omega⟩
    rfl
  · rw [end_append hfirst hne]
    exact declarations_of_fuel i hn

theorem Ended.upToEnd {ks : List Symbol} (h : Ended ks rest) : Ended ks (upToEnd rest) := by
  cases rest with
  | nil => exact h
  | cons t rest =>
    intro u hu
    cases ht : t.is .eof with
    | true => simp [Parser.upToEnd, splitEnd, ht] at hu
    | false =>
      obtain rfl : t = u := by simpa [Parser.upToEnd, splitEnd, ht] using hu
      exact h t rfl

/-- Only the marks of a tree depend on the identities that are given out. -/
theorem unmarkedAll_program (i j : NodeId) (tokens : List Token) :
    Stmt.unmarkedAll (program i tokens).tree = Stmt.unmarkedAll (program j tokens).tree := by
  obtain rfl | hne := eq_or_ne tokens []
  · rfl
  have hzero : ∀ k, Stmt.unmarkedAll (program k tokens).tree = Stmt.unmarkedAll (program 0 tokens).tree := by
    intro k
    have hshift := congrArg Result.tree (program_renamed k id 0 hne)
    simp only [Token.moved_id, List.map_id_fun', id_eq, Nat.add_zero] at hshift
    rw [hshift, Stmt.unmarkedAll_eq, Stmt.unmarkedAll_eq, Stmt.renameAll_renameAll]
    rfl
  rw [hzero i, hzero j]

/-- A program that is read without a report, and then any tokens whatever, unless the first of them is
`else`: the statements are those of the program and those of the tokens alone, up to their marks, and the
reports are those of the tokens alone. -/
theorem program_append (i j k : NodeId) (hfirst : Loose.Free .eof first)
    (hclean : (program j first).reports = []) (hrest : Ended [.elseKw] rest) :
    Stmt.unmarkedAll (program i (first ++ rest)).tree =
        Stmt.unmarkedAll (program j first).tree ++ Stmt.unmarkedAll (program k rest).tree ∧
      (program i (first ++ rest)).reports = (program k rest).reports := by
  have hprogram := (program_sound hclean).1
  rw [upToEnd_of_unended hfirst] at hprogram
  generalize (program j first).tree = tree at hprogram
  cases hprogram with
  | mk parts hparts =>
    obtain ⟨body, i', n, hbody, hn, hgoes⟩ := declarations_after (n := fuelFor ((parts.map Prod.fst).flatten ++ rest))
      (splitEnd ((parts.map Prod.fst).flatten ++ rest)).2 i hparts hrest.upToEnd (by
        have hlen := length_upToEnd_le rest
        simp only [fuelFor, List.length_append]
        omega)
    have hrun := hgoes (declarations_behind hfirst i' hn)
    rw [← upToEnd_append hfirst] at hrun
    rw [program_of_run hrun, Stmt.unmarkedAll_append, hbody, unmarkedAll_program k i' rest]
    refine ⟨rfl, ?_⟩
    obtain rfl | hne := eq_or_ne rest []
    · rfl
    · exact reports_eq i' k hne

/-- `if (a) print b;`, which an `else` could still be added to. -/
def ifThen : List Token :=
  [.ofSymbol .ifKw "if" 1, .ofSymbol .leftParen "(" 1, .ident "a" 1, .ofSymbol .rightParen ")" 1,
    .ofSymbol .printKw "print" 1, .ident "b" 1, .ofSymbol .semicolon ";" 1]

/-- `var = c; print d;`. -/
def brokenThenPrint : List Token :=
  [.ofSymbol .varKw "var" 2, .ofSymbol .equal "=" 2, .ident "c" 2, .ofSymbol .semicolon ";" 2,
    .ofSymbol .printKw "print" 2, .ident "d" 2, .ofSymbol .semicolon ";" 2]

theorem ifThen_then_broken : Loose.Free .eof ifThen ∧ (program 0 ifThen).reports = [] ∧
    Ended [.elseKw] brokenThenPrint ∧
    Stmt.unmarkedAll (program 0 (ifThen ++ brokenThenPrint)).tree =
      [.conditional (.variable () (.ident "a" 1))
          (.print (.ofSymbol .printKw "print" 1) (.variable () (.ident "b" 1))) none,
        .print (.ofSymbol .printKw "print" 2) (.variable () (.ident "d" 2))] ∧
    (program 0 (ifThen ++ brokenThenPrint)).reports =
      [SyntaxFault.variableName.report (.ofSymbol .equal "=" 2)] := by
  have hfirst : Loose.Free .eof ifThen := by decide
  have hrest : Ended [.elseKw] brokenThenPrint := by simp [brokenThenPrint, Ended, Token.is, Token.ofSymbol]
  obtain ⟨htree, hreports⟩ := program_append 0 0 0 hfirst rfl hrest
  exact ⟨hfirst, rfl, hrest, htree.trans rfl, hreports.trans rfl⟩

end Lox.Parser
