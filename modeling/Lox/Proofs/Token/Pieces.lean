import Lox.Proofs.Token.Exact
import Lox.Proofs.Tree.Renaming

/-!
# Scanning in pieces

A newline is part of no lexeme but a string, and it ends a comment. So a text of two pieces with a
newline between them is scanned piece by piece, unless a string of the first one has no end: its items
come first, then those of the second one, as many lines further down as the first one has
(`scanning_is_local`). Without faults in the first one, this tells the tokens of the whole
(`tokens_pieces`).
-/

namespace Lox

/-! ## Lexemes before a blank -/

namespace Lexeme

section
variable {p : α → Bool} {y : α} (xs ys : List α)

theorem takeWhile_stop (h : p y = false) : (xs ++ y :: ys).takeWhile p = xs.takeWhile p := by
  induction xs with
  | nil => simp [h]
  | cons x xs ih => simp [List.takeWhile_cons, ih]

theorem dropWhile_stop (h : p y = false) : (xs ++ y :: ys).dropWhile p = xs.dropWhile p ++ y :: ys := by
  induction xs with
  | nil => simp [h]
  | cons x xs ih =>
    by_cases hx : p x = true
    · simp [hx, ih]
    · simp [hx]

end

/-- The lexeme with more text behind it. -/
def before (x : Lexeme) (more : List Char) : Lexeme := { x with rest := x.rest ++ more }

variable (cs ds : List Char)

/-- A string that has an end keeps it. -/
theorem string_append_of_closed (h : (string cs).kind ≠ .error .unterminatedString) (ds : List Char) :
    string (cs ++ ds) = (string cs).before ds := by
  unfold string at h ⊢
  cases hdrop : cs.dropWhile (· ≠ '"') with
  | nil =>
    rw [hdrop] at h
    exact absurd rfl h
  | cons quote rest =>
    -- the closing quote stands before the added text
    have hne : (cs.takeWhile (· ≠ '"')).length ≠ cs.length := by
      have hall := congrArg List.length (List.takeWhile_append_dropWhile (p := (· ≠ '"')) (l := cs))
      rw [hdrop, List.length_append, List.length_cons] at hall
      omega
    rw [List.takeWhile_append, List.dropWhile_append, hdrop, if_neg hne]
    rfl

section
variable {y : Char} (hy : y ∈ [' ', '\t', '\r', '\n'])
include hy

/-- A blank goes into no lexeme but a string. -/
theorem blank_ends : y ≠ '=' ∧ y.isDigit = false ∧ Scan.isWordPart y = false := by
  simp only [List.mem_cons, List.not_mem_nil, or_false] at hy
  rcases hy with rfl | rfl | rfl | rfl <;> decide

theorem withEqual_blank (long short : Symbol) (c : Char) :
    withEqual long short c (cs ++ y :: ds) = (withEqual long short c cs).before (y :: ds) := by
  cases cs with
  | nil => simp [withEqual, (blank_ends hy).1, before, ofSymbol]
  | cons d cs =>
    by_cases hd : d = '='
    · subst hd
      rfl
    · simp [withEqual, hd, before, ofSymbol]

theorem number_blank : number (cs ++ y :: ds) = (number cs).before (y :: ds) := by
  have hblank : y.isDigit = false := (blank_ends hy).2.1
  unfold number
  rw [takeWhile_stop cs ds hblank, dropWhile_stop cs ds hblank]
  match cs.dropWhile Char.isDigit with
  | [] =>
    by_cases hpoint : y = '.'
    · subst hpoint
      simp at hy
    · simp [before, hpoint]
  | [c] =>
    by_cases hc : c = '.'
    · subst hc
      simp [before, hblank]
    · simp [before, hc]
  | c :: d :: rest =>
    by_cases hc : c = '.'
    · subst hc
      by_cases hd : d.isDigit = true
      · have htake := takeWhile_stop (d :: rest) ds hblank
        have hdrop := dropWhile_stop (d :: rest) ds hblank
        simp only [List.cons_append] at htake hdrop ⊢
        simp only [hd, if_true, htake, hdrop]
        rfl
      · simp [before, hd]
    · simp [before, hc]

theorem word_blank : word (cs ++ y :: ds) = (word cs).before (y :: ds) := by
  have hblank : Scan.isWordPart y = false := (blank_ends hy).2.2
  simp only [word, takeWhile_stop cs ds hblank, dropWhile_stop cs ds hblank]
  rfl

/-- A lexeme ends before a blank that follows its text, unless it is a string without an end. -/
theorem of_blank (c : Char) (h : (of c cs).kind ≠ .error .unterminatedString) :
    of c (cs ++ y :: ds) = (of c cs).before (y :: ds) := by
  unfold of at h ⊢
  split at h
  case h_12 | h_13 | h_14 | h_15 => exact withEqual_blank cs ds hy _ _ _
  case h_16 => exact string_append_of_closed cs h _
  case h_17 =>
    have hnumber := number_blank (c :: cs) ds hy
    have hword := word_blank (c :: cs) ds hy
    rw [List.cons_append] at hnumber hword
    rw [hnumber, hword]
    split
    · rfl
    · split <;> rfl
  all_goals rfl

end

/-- No lexeme is the end of the input. -/
theorem of_kind_ne_eof (c : Char) : (of c cs).kind ≠ .ok (.symbol .eof) := by
  have hword : ∀ w, Symbol.ofWord w ≠ .eof := by
    intro w hw
    have hm := Symbol.mem_keywords_of_ofWord hw (by decide)
    simp [Symbol.keywords] at hm
  intro h
  unfold of at h
  split at h
  case h_12 | h_13 | h_14 | h_15 =>
    rcases Scan.withEqual_kind h with h | h <;> cases h
  case h_16 =>
    unfold string at h
    split at h <;> cases h
  case h_17 =>
    split at h
    · unfold number at h
      split at h
      · split at h <;> cases h
      · cases h
    · split at h
      · simp [word, ofSymbol, hword] at h
      · cases h
  all_goals simp [ofSymbol] at h

end Lexeme

/-! ## Trivia -/

namespace Scan

theorem skipTrivia_newline (inComment : Bool) (line : Nat) (cs ds : List Char) :
    skipTrivia inComment line (cs ++ '\n' :: ds) =
      match skipTrivia inComment line cs with
      | (here, []) => skipTrivia false (here + 1) ds
      | (here, c :: rest) => (here, c :: rest ++ '\n' :: ds) := by
  fun_induction skipTrivia inComment line cs with
  | case1 inComment line => simp [skipTrivia]
  | case2 inComment line cs ih => simpa [skipTrivia] using ih
  | case3 inComment line c cs hc hskip ih => simpa [skipTrivia, hc, hskip] using ih
  | case4 inComment line c cs hc hskip hslash ih =>
    have hhead : (cs ++ '\n' :: ds).head? = some '/' := by
      rw [List.head?_append, hslash.2]
      rfl
    rw [List.cons_append, skipTrivia, if_neg hc, if_neg hskip, if_pos ⟨hslash.1, hhead⟩]
    exact ih
  | case5 inComment line c cs hc hskip hslash =>
    have hhead : ¬ (c = '/' ∧ (cs ++ '\n' :: ds).head? = some '/') := by
      cases cs with
      | nil => simp
      | cons d cs => exact hslash
    rw [List.cons_append, skipTrivia, if_neg hc, if_neg hskip, if_neg hhead]
    rfl

theorem skipTrivia_add (inComment : Bool) (line k : Nat) (cs : List Char) :
    skipTrivia inComment (line + k) cs =
      ((skipTrivia inComment line cs).1 + k, (skipTrivia inComment line cs).2) := by
  fun_induction skipTrivia inComment line cs with
  | case1 inComment line => rfl
  | case2 inComment line cs ih =>
    rw [skipTrivia, if_pos rfl, Nat.add_right_comm]
    exact ih
  | case3 inComment line c cs hc hskip ih =>
    rw [skipTrivia, if_neg hc, if_pos hskip]
    exact ih
  | case4 inComment line c cs hc hskip hslash ih =>
    rw [skipTrivia, if_neg hc, if_neg hskip, if_pos hslash]
    exact ih
  | case5 inComment line c cs hc hskip hslash =>
    rw [skipTrivia, if_neg hc, if_neg hskip, if_neg hslash]

end Scan

/-! ## Items -/

/-- An item on another line. -/
def Item.moved (g : Nat → Nat) : Item → Item
  | .token t => .token (t.moved g)
  | .fault line cause => .fault (g line) cause

namespace Scan

/-- The item of a lexeme is not the end of the input. -/
theorem is_eof_of_ofLexeme {line : Nat} {c : Char} {cs : List Char} {t : Token}
    (h : Item.token t = .ofLexeme line (Lexeme.of c cs)) : t.is .eof = false := by
  have hne := Lexeme.of_kind_ne_eof cs c
  unfold Item.ofLexeme at h
  split at h
  · rename_i kind hkind
    obtain rfl := Item.token.inj h
    rw [hkind] at hne
    simpa [Token.is] using hne
  · cases h

theorem ofLexeme_moved (g : Nat → Nat) (line : Nat) (x : Lexeme) :
    (Item.ofLexeme line x).moved g = .ofLexeme (g line) x := by
  unfold Item.ofLexeme
  split <;> rfl

/-- Items further down. -/
theorem itemsFrom_add (line k : Nat) (cs : List Char) :
    itemsFrom (line + k) cs = (itemsFrom line cs).map (·.moved (· + k)) := by
  fun_induction itemsFrom line cs with
  | case1 line cs here h =>
    have hskip := skipTrivia_add false line k cs
    rw [h] at hskip
    rw [itemsFrom_of_nil hskip]
    rfl
  | case2 line cs here c rest h x last ih =>
    have hskip := skipTrivia_add false line k cs
    rw [h] at hskip
    rw [itemsFrom_of_cons hskip, List.map_cons, ofLexeme_moved, ← ih]
    simp only [last, x, Nat.add_right_comm]

/-- Scanning goes on from where the trivia end. -/
theorem itemsFrom_congr {line line' : Nat} {cs cs' : List Char}
    (h : skipTrivia false line cs = skipTrivia false line' cs') : itemsFrom line cs = itemsFrom line' cs' := by
  cases hskip : skipTrivia false line' cs' with
  | mk here rest =>
    rw [hskip] at h
    cases rest with
    | nil => rw [itemsFrom_of_nil h, itemsFrom_of_nil hskip]
    | cons c rest => rw [itemsFrom_of_cons h, itemsFrom_of_cons hskip]

/-- What a text is scanned to, alone and with more text after a newline, if none of its strings lacks an end. -/
theorem itemsFrom_newline (line : Nat) (cs : List Char)
    (h : ∀ last, .fault last .unterminatedString ∉ itemsFrom line cs) :
    ∃ init last, itemsFrom line cs = init ++ [.token (.endAt last)] ∧
      (∀ t, .token t ∈ init → t.is .eof = false) ∧
      ∀ ds, itemsFrom line (cs ++ '\n' :: ds) = init ++ itemsFrom (last + 1) ds := by
  fun_induction itemsFrom line cs with
  | case1 line cs here hskip =>
    refine ⟨[], here, rfl, ?_, fun ds => itemsFrom_congr ?_⟩
    · intro t ht
      cases ht
    · rw [skipTrivia_newline, hskip]
  | case2 line cs here c rest hskip x last ih =>
    obtain ⟨hfirst, hrest⟩ : (∀ k, .fault k .unterminatedString ≠ Item.ofLexeme last x) ∧
        ∀ k, .fault k .unterminatedString ∉ itemsFrom last x.rest := by
      simpa only [List.mem_cons, not_or, forall_and] using h
    have hclosed : x.kind ≠ .error .unterminatedString := by
      intro hx
      exact hfirst last (by simp [Item.ofLexeme, hx])
    obtain ⟨init, final, hall, heof, hmore⟩ := ih hrest
    refine ⟨.ofLexeme last x :: init, final, by rw [hall]; rfl, ?_, ?_⟩
    · intro t ht
      rcases List.mem_cons.1 ht with ht | ht
      · exact is_eof_of_ofLexeme ht
      · exact heof t ht
    · intro ds
      have hskip' : skipTrivia false line (cs ++ '\n' :: ds) = (here, c :: (rest ++ '\n' :: ds)) := by
        rw [skipTrivia_newline, hskip]
        rfl
      rw [itemsFrom_of_cons hskip', Lexeme.of_blank rest ds (by decide) c hclosed]
      exact List.cons_eq_cons.2 ⟨rfl, hmore ds⟩

/-! ## Sources -/

theorem token?_moved (g : Nat → Nat) (x : Item) : (x.moved g).token? = x.token?.map (·.moved g) := by
  cases x <;> rfl

theorem report?_moved (g : Nat → Nat) (x : Item) : (x.moved g).report? = x.report?.map (·.moved g) := by
  cases x <;> rfl

/-- What a source is scanned to, alone and with more text after a newline. -/
theorem items_pieces {source : String} (h : ∀ line, .fault line .unterminatedString ∉ items source) :
    ∃ init last, items source = init ++ [.token (.endAt last)] ∧ (∀ t, .token t ∈ init → t.is .eof = false) ∧
      ∀ more, items (source ++ "\n" ++ more) = init ++ (items more).map (·.moved (· + last)) := by
  obtain ⟨init, last, hall, heof, hmore⟩ := itemsFrom_newline 1 source.toList h
  refine ⟨init, last, hall, heof, fun more => ?_⟩
  have hchars : (source ++ "\n" ++ more).toList = source.toList ++ '\n' :: more.toList := by simp
  rw [items, hchars, hmore, Nat.add_comm last 1, itemsFrom_add]
  rfl

/-- The end of the input stands behind all newlines. -/
theorem end_of_items {source : String} {init : List Item} {last : Nat}
    (h : items source = init ++ [.token (.endAt last)]) : last = 1 + source.toList.count '\n' := by
  obtain ⟨pieces, gap, _, _, hitems⟩ := (scans_itemsFrom 1 source.toList).covered
  obtain ⟨_, hend⟩ := List.append_inj' (h.symm.trans hitems) rfl
  simpa [Token.endAt, Token.ofSymbol] using hend

/-- Scanning is local at a newline outside strings. If no string of a source lacks its end, then with a newline
and more text behind it, the source is scanned to its own items but the end of the input, and then to those of the
text, each as many lines further down as the source has. -/
theorem scanning_is_local {source : String} (h : ∀ line, .fault line .unterminatedString ∉ items source)
    (more : String) :
    ∃ init, items source = init ++ [.token (.endAt (1 + source.toList.count '\n'))] ∧
      (∀ t, .token t ∈ init → t.is .eof = false) ∧
      items (source ++ "\n" ++ more) =
        init ++ (items more).map (·.moved (· + (1 + source.toList.count '\n'))) := by
  obtain ⟨init, last, hall, heof, hmore⟩ := items_pieces h
  obtain rfl := end_of_items hall
  exact ⟨init, hall, heof, hmore more⟩

/-- Two faults, a string over two lines, and a comment that the newline ends. -/
theorem brokenPiece_is_local :
    items "# \"a\nb\" é//\"" = [.fault 1 .unexpectedCharacter, .token ⟨.string "a\nb", "\"a\nb\"", 2⟩,
      .fault 2 .unexpectedCharacter, .token (.endAt 2)] ∧
    ∃ init, items "# \"a\nb\" é//\"" = init ++ [.token (.endAt 2)] ∧ (∀ t, .token t ∈ init → t.is .eof = false) ∧
      items "# \"a\nb\" é//\"\n.\"" = init ++ [.token (.ofSymbol .dot "." 3), .fault 3 .unterminatedString,
        .token (.endAt 3)] := by
  have hitems : items "# \"a\nb\" é//\"" = [.fault 1 .unexpectedCharacter, .token ⟨.string "a\nb", "\"a\nb\"", 2⟩,
      .fault 2 .unexpectedCharacter, .token (.endAt 2)] := by decide +kernel
  have hmore : items ".\"" = [.token (.ofSymbol .dot "." 1), .fault 1 .unterminatedString, .token (.endAt 1)] := by
    decide +kernel
  have hlocal := @scanning_is_local "# \"a\nb\" é//\"" (by simp [hitems]) ".\""
  rw [hmore] at hlocal
  exact ⟨hitems, hlocal⟩

/-- The tokens of a source without faults, alone and with more text after a newline. -/
theorem tokens_pieces {source : String} (h : reports source = []) :
    ∃ body last, tokens source = body ++ [.endAt last] ∧ (∀ t ∈ body, t.is .eof = false) ∧
      ∀ more, tokens (source ++ "\n" ++ more) = body ++ (tokens more).map (·.moved (· + last)) ∧
        reports (source ++ "\n" ++ more) = (reports more).map (·.moved (· + last)) := by
  have hclean : ∀ x ∈ items source, x.report? = none := List.filterMap_eq_nil_iff.1 h
  have hclosed : ∀ line, .fault line .unterminatedString ∉ items source := fun line hmem => nomatch hclean _ hmem
  obtain ⟨init, last, hall, heof, hmore⟩ := items_pieces hclosed
  refine ⟨init.filterMap Item.token?, last, ?_, ?_, fun more => ⟨?_, ?_⟩⟩
  · simp [tokens, hall, Item.token?]
  · intro t ht
    obtain ⟨item, hitem, htoken⟩ := List.mem_filterMap.1 ht
    cases item with
    | token u =>
      cases htoken
      exact heof t hitem
    | fault line cause => cases htoken
  · simp only [tokens, hmore, List.filterMap_append, List.filterMap_map, List.map_filterMap,
      Function.comp_def, token?_moved]
  · have hinit : init.filterMap Item.report? = [] := by
      refine List.filterMap_eq_nil_iff.2 fun x hx => hclean x ?_
      rw [hall]
      exact List.mem_append_left _ hx
    simp only [reports, hmore, List.filterMap_append, List.filterMap_map, List.map_filterMap,
      Function.comp_def, report?_moved, hinit, List.nil_append]

theorem itemsFrom_ends (line : Nat) (cs : List Char) :
    ∃ last, .token (.endAt last) ∈ itemsFrom line cs := by
  fun_induction itemsFrom line cs with
  | case1 line cs here h => exact ⟨here, List.mem_singleton_self _⟩
  | case2 line cs here c rest h x last ih =>
    obtain ⟨final, hfinal⟩ := ih
    exact ⟨final, List.mem_cons_of_mem _ hfinal⟩

theorem tokens_ne_nil (source : String) : tokens source ≠ [] := by
  obtain ⟨last, hlast⟩ := itemsFrom_ends 1 source.toList
  exact List.ne_nil_of_mem (List.mem_filterMap.2 ⟨_, hlast, rfl⟩)

end Scan

end Lox
