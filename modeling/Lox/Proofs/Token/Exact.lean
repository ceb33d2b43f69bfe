import Mathlib.Data.List.TakeWhile
import Lox.Proofs.Token.Grammar
import Lox.Proofs.Token.Words

/-!
# The scanner keeps to the lexical grammar

`skipTrivia` skips as much as can be skipped, because what it stops before starts no trivia; and the
lexeme that `Lexeme.of` takes is the longest token, because it takes in all of every token that the
input starts with. So the items of a source are those of the grammar and no others. Main statement:
`scanner_takes_longest`.
-/

namespace Lox

namespace Scan

/-- There is at most one longest cut. -/
theorem Longest.unique {P : List Char → List Char → Prop} {cs rest cs' rest' : List Char}
    (h : Longest P cs rest) (h' : Longest P cs' rest') (heq : cs' ++ rest' = cs ++ rest) :
    cs' = cs ∧ rest' = rest := by
  have hle := h.le cs' rest' heq h'.holds
  have hge := h'.le cs rest heq.symm h.holds
  exact List.append_inj heq (Nat.le_antisymm hle hge)

/-! ## Trivia -/

/-- There is one place where the first line ends. -/
theorem AtLineEnd.unique {text text' cs cs' : List Char} (h : AtLineEnd cs) (h' : AtLineEnd cs')
    (ht : '\n' ∉ text) (ht' : '\n' ∉ text') (heq : text' ++ cs' = text ++ cs) : text' = text ∧ cs' = cs := by
  induction text generalizing text' with
  | nil =>
    cases text' with
    | nil => exact ⟨rfl, heq⟩
    | cons c text' =>
      -- the other line would go on with a newline
      rw [List.nil_append] at heq
      obtain rfl := h c (by rw [← heq]; rfl)
      exact absurd List.mem_cons_self ht'
  | cons c text ih =>
    cases text' with
    | nil =>
      rw [List.nil_append] at heq
      obtain rfl := h' c (by rw [heq]; rfl)
      exact absurd List.mem_cons_self ht
    | cons d text' =>
      obtain ⟨rfl, htail⟩ := List.cons.inj heq
      obtain ⟨rfl, rfl⟩ := ih (fun hm => ht (List.mem_cons_of_mem _ hm))
        (fun hm => ht' (List.mem_cons_of_mem _ hm)) htail
      exact ⟨rfl, rfl⟩

/-- No trivia start here. -/
def Stuck (cs : List Char) : Prop := ∀ gap rest, gap ++ rest = cs → Trivia gap rest → gap = []

theorem stuck_nil : Stuck [] := fun _ _ heq _ => (List.append_eq_nil_iff.1 heq).1

theorem stuck_cons {c : Char} {cs : List Char} (hblank : c ∉ [' ', '\t', '\r', '\n'])
    (hslash : ¬ (c = '/' ∧ cs.head? = some '/')) : Stuck (c :: cs) := by
  intro gap rest heq h
  cases h with
  | none => rfl
  | blank hc => exact absurd ((List.cons.inj heq).1 ▸ hc) hblank
  | comment =>
    obtain ⟨rfl, htail⟩ := List.cons.inj heq
    exact absurd ⟨rfl, by rw [← htail]; rfl⟩ hslash

/-- Trivia that end where no more can start are the longest: two ways to read them agree step by step. -/
theorem Trivia.longest {gap rest : List Char} (h : Trivia gap rest) (hr : Stuck rest) :
    Longest Trivia gap rest := by
  refine ⟨h, ?_⟩
  induction h with
  | none =>
    intro gap' rest' heq h'
    exact Nat.le_of_eq (congrArg List.length (hr gap' rest' heq h'))
  | @blank c cs rest hc _ ih =>
    intro gap' rest' heq h'
    cases h' with
    | none => exact Nat.zero_le _
    | blank _ h' =>
      have hle := ih hr _ _ (List.cons.inj heq).2 h'
      exact Nat.succ_le_succ hle
    | comment =>
      obtain rfl := (List.cons.inj heq).1
      exact absurd hc (by decide)
  | @comment text cs rest ht hend _ ih =>
    intro gap' rest' heq h'
    cases h' with
    | none => exact Nat.zero_le _
    | blank hc =>
      obtain rfl := (List.cons.inj heq).1
      exact absurd hc (by decide)
    | @comment text' cs' _ ht' hend' h' =>
      have htail : text' ++ (cs' ++ rest') = text ++ (cs ++ rest) := by simpa using heq
      obtain ⟨rfl, hcs⟩ := hend.unique hend' ht ht' htail
      have hle := ih hr cs' rest' hcs h'
      simpa using hle

/-- What is skipped, up to the end of a comment that is already open, and from there. -/
theorem skipTrivia_cuts (inComment : Bool) (line : Nat) (cs : List Char) :
    ∃ text gap, cs = text ++ (gap ++ (skipTrivia inComment line cs).2) ∧ '\n' ∉ text ∧
      (inComment = false → text = []) ∧
      (inComment = true → AtLineEnd (gap ++ (skipTrivia inComment line cs).2)) ∧
      (skipTrivia inComment line cs).1 = line + gap.count '\n' ∧
      Trivia gap (skipTrivia inComment line cs).2 ∧ Stuck (skipTrivia inComment line cs).2 := by
  fun_induction skipTrivia inComment line cs with
  | case1 inComment line => exact ⟨[], [], by simp [AtLineEnd, Trivia.none, stuck_nil]⟩
  | case2 inComment line cs ih =>
    obtain ⟨text, gap, hcs, _, htext, _, hline, htrivia, hstuck⟩ := ih
    obtain rfl := htext rfl
    refine ⟨[], '\n' :: gap, congrArg _ hcs, List.not_mem_nil, fun _ => rfl, fun _ => by simp [AtLineEnd], ?_,
      .blank (by decide) htrivia, hstuck⟩
    rw [hline, List.count_cons_self]
    omega
  | case3 inComment line c cs hc hskip ih =>
    obtain ⟨text, gap, hcs, hnl, htext, hend, hline, htrivia, hstuck⟩ := ih
    cases inComment with
    | true =>
      refine ⟨c :: text, gap, congrArg _ hcs, ?_, by simp, hend, hline, htrivia, hstuck⟩
      simp [hnl, Ne.symm hc]
    | false =>
      obtain rfl := htext rfl
      have hblank : c ∈ [' ', '\t', '\r', '\n'] := by
        simp only [Bool.false_or, isBlank, Bool.or_eq_true, decide_eq_true_eq] at hskip
        rcases hskip with (rfl | rfl) | rfl <;> decide
      refine ⟨[], c :: gap, congrArg _ hcs, hnl, fun _ => rfl, by simp, ?_, .blank hblank htrivia, hstuck⟩
      rw [hline, List.count_cons_of_ne hc]
  | case4 inComment line c cs hc hskip hslash ih =>
    obtain ⟨text, gap, hcs, hnl, _, hend, hline, htrivia, hstuck⟩ := ih
    obtain ⟨rfl, hhead⟩ := hslash
    obtain ⟨rfl, _⟩ : inComment = false ∧ isBlank '/' = false := by simpa using hskip
    -- the second slash stands on the line of the comment
    obtain ⟨text, rfl⟩ : ∃ rest, text = '/' :: rest := by
      cases text with
      | nil =>
        rw [List.nil_append] at hcs
        exact absurd (hend rfl '/' (by rw [← hcs]; exact hhead)) (by decide)
      | cons d text =>
        rw [hcs] at hhead
        obtain rfl := Option.some.inj hhead
        exact ⟨text, rfl⟩
    have hnl' : '\n' ∉ text := fun hm => hnl (List.mem_cons_of_mem _ hm)
    refine ⟨[], '/' :: '/' :: text ++ gap, ?_, List.not_mem_nil, fun _ => rfl, by simp, ?_,
      .comment hnl' (hend rfl) htrivia, hstuck⟩
    · rw [List.nil_append, List.cons_append, List.cons_append, List.append_assoc]
      exact congrArg _ hcs
    · rw [hline]
      simp [List.count_eq_zero.2 hnl']
  | case5 inComment line c cs hc hskip hslash =>
    obtain ⟨rfl, hblank⟩ : inComment = false ∧ isBlank c = false := by simpa using hskip
    have hstuck : Stuck (c :: cs) := by
      refine stuck_cons ?_ hslash
      simp only [isBlank, Bool.or_eq_false_iff, decide_eq_false_iff_not] at hblank
      simp [hblank, hc]
    exact ⟨[], [], rfl, List.not_mem_nil, fun _ => rfl, by simp, rfl, .none, hstuck⟩

/-- What is skipped is the longest. -/
theorem skipTrivia_longest (line : Nat) (cs : List Char) :
    ∃ gap, cs = gap ++ (skipTrivia false line cs).2 ∧
      (skipTrivia false line cs).1 = line + gap.count '\n' ∧ Longest Trivia gap (skipTrivia false line cs).2 := by
  obtain ⟨text, gap, hcs, _, htext, _, hline, htrivia, hstuck⟩ := skipTrivia_cuts false line cs
  obtain rfl := htext rfl
  exact ⟨gap, hcs, hline, htrivia.longest hstuck⟩

theorem skipTrivia_eq {gap rest : List Char} (line : Nat) (h : Longest Trivia gap rest) :
    skipTrivia false line (gap ++ rest) = (line + gap.count '\n', rest) := by
  obtain ⟨gap', hcs, hline, hlongest⟩ := skipTrivia_longest line (gap ++ rest)
  obtain ⟨rfl, hrest⟩ := h.unique hlongest hcs.symm
  exact Prod.ext hline hrest

end Scan

/-! ## Lexemes -/

namespace Lexeme

open Scan

variable {c : Char} {cs : List Char}

/-- The lexeme is a token of the grammar. -/
def IsToken (x : Lexeme) : Prop := ∃ kind, x.kind = .ok kind ∧ Spells x.chars kind

theorem cut_all {p : Char → Bool} (h : ∀ d ∈ cs, p d = true) : cs.takeWhile p = cs ∧ cs.dropWhile p = [] :=
  ⟨List.takeWhile_eq_self_iff.2 h, List.dropWhile_eq_nil_iff.2 h⟩

theorem cut_before {p : Char → Bool} (h : ∀ d ∈ cs, p d = true) (hc : p c = false) (more : List Char) :
    (cs ++ c :: more).takeWhile p = cs ∧ (cs ++ c :: more).dropWhile p = c :: more := by
  rw [List.takeWhile_append_of_pos h, List.dropWhile_append_of_pos h]
  simp [hc]

theorem ne_quote (h : '"' ∉ cs) : ∀ d ∈ cs, decide (d ≠ '"') = true := by
  intro d hd
  rw [decide_eq_true_eq]
  rintro rfl
  exact h hd

theorem string_of_not_mem (h : '"' ∉ cs) : string cs = ⟨'"' :: cs, .error .unterminatedString, []⟩ := by
  obtain ⟨htake, hdrop⟩ := cut_all (ne_quote h)
  simp only [string, htake, hdrop]

theorem string_of_quote (h : '"' ∉ cs) (more : List Char) :
    string (cs ++ '"' :: more) = ⟨'"' :: cs ++ ['"'], .ok (.string (String.ofList cs)), more⟩ := by
  obtain ⟨htake, hdrop⟩ := cut_before (ne_quote h) (c := '"') rfl more
  simp only [string, htake, hdrop]

/-- Digits that are followed by a fraction. -/
theorem number_of_fraction {digits decimals : List Char} (hd : ∀ d ∈ digits, d.isDigit) (hne : decimals ≠ [])
    (hf : ∀ d ∈ decimals, d.isDigit) (more : List Char) :
    number (digits ++ '.' :: (decimals ++ more)) =
      ⟨digits ++ '.' :: (decimals ++ more.takeWhile Char.isDigit),
        .ok (.number (Number.ofDecimal digits (decimals ++ more.takeWhile Char.isDigit))),
        more.dropWhile Char.isDigit⟩ := by
  obtain ⟨htake, hdrop⟩ := cut_before hd (c := '.') rfl (decimals ++ more)
  have htake' : (decimals ++ more).takeWhile Char.isDigit = decimals ++ more.takeWhile Char.isDigit :=
    List.takeWhile_append_of_pos hf
  have hdrop' : (decimals ++ more).dropWhile Char.isDigit = more.dropWhile Char.isDigit :=
    List.dropWhile_append_of_pos hf
  obtain ⟨d, decimals, rfl⟩ := List.exists_cons_of_ne_nil hne
  simp only [List.cons_append] at htake hdrop htake' hdrop' ⊢
  simp only [number, htake, hdrop, hf d List.mem_cons_self, if_true, htake', hdrop']

/-- A number takes in all digits that it starts with. -/
theorem number_takes {digits : List Char} (hd : ∀ d ∈ digits, d.isDigit) (more : List Char) :
    digits.length ≤ (number (digits ++ more)).chars.length := by
  unfold number
  rw [List.takeWhile_append_of_pos hd]
  split
  · split <;> simp
  · simp

theorem number_of_digits {digits : List Char} (hd : ∀ d ∈ digits, d.isDigit) :
    number digits = ⟨digits, .ok (.number (Number.ofDecimal digits [])), []⟩ := by
  obtain ⟨htake, hdrop⟩ := cut_all hd
  simp only [number, htake, hdrop]

theorem number_isToken (hc : c.isDigit = true) (cs : List Char) : (number (c :: cs)).IsToken := by
  have hne : (c :: cs).takeWhile Char.isDigit ≠ [] := by simp [hc]
  have hall : ∀ (l : List Char), ∀ d ∈ l.takeWhile Char.isDigit, d.isDigit := fun l d hd =>
    List.mem_takeWhile_imp hd
  unfold number
  split
  · split
    · rename_i d rest _ hd
      have hne' : (d :: rest).takeWhile Char.isDigit ≠ [] := by simp [hd]
      exact ⟨_, rfl, .fraction hne (hall _) hne' (hall _)⟩
    · exact ⟨_, rfl, .whole hne (hall _)⟩
  · exact ⟨_, rfl, .whole hne (hall _)⟩

/-! ### Words -/

theorem isWordStart_iff : isWordStart c = true ↔ c.isAlpha = true ∨ c = '_' := by simp [isWordStart]

theorem isWordPart_iff : isWordPart c = true ↔ c.isAlphanum = true ∨ c = '_' := by simp [isWordPart]

theorem isWordPart_of_start (h : isWordStart c = true) : isWordPart c = true := by
  rcases isWordStart_iff.1 h with h | h
  · exact isWordPart_iff.2 (.inl (Bool.or_eq_true_iff.2 (.inl h)))
  · exact isWordPart_iff.2 (.inr h)

theorem isDigit_of_start (h : isWordStart c = true) : c.isDigit = false := by
  rw [← Bool.not_eq_true]
  intro hd
  have hle : c.val ≤ '9'.val := of_decide_eq_true (Bool.and_eq_true_iff.1 hd).2
  -- letters and the underscore come after the digits
  have hge : 'A'.val ≤ c.val ∨ 'a'.val ≤ c.val ∨ c = '_' := by
    rcases isWordStart_iff.1 h with h | h
    · rcases Bool.or_eq_true_iff.1 h with h | h
      · exact .inl (of_decide_eq_true h).1
      · exact .inr (.inl (of_decide_eq_true (Bool.and_eq_true_iff.1 h).1))
    · exact .inr (.inr h)
  rcases hge with hge | hge | rfl
  · exact absurd (UInt32.le_trans hge hle) (by decide)
  · exact absurd (UInt32.le_trans hge hle) (by decide)
  · exact absurd hle (by decide)

/-- A reserved word has the form of a word, and is the one it is looked up as. -/
theorem word_of_keyword {word : String} {a : Symbol} (h : (word, a) ∈ Symbol.keywords) :
    ∃ c tail, word.toList = c :: tail ∧ isWordStart c = true ∧ (∀ d ∈ tail, isWordPart d) ∧
      Symbol.ofWord word = a := by
  have hall : ∀ p ∈ Symbol.keywords, p.1.toList.head?.any isWordStart = true ∧
      p.1.toList.tail.all isWordPart = true ∧ Symbol.ofWord p.1 = p.2 := by decide
  obtain ⟨hc, htail, ha⟩ := hall _ h
  cases hw : word.toList with
  | nil => simp [hw] at hc
  | cons c tail =>
    rw [hw] at hc htail
    exact ⟨c, tail, rfl, hc, List.all_eq_true.1 htail, ha⟩

/-- A word takes in all letters and digits that it starts with. -/
theorem word_of_parts (h : ∀ d ∈ cs, isWordPart d) (more : List Char) :
    word (cs ++ more) = ofSymbol (.ofWord (String.ofList (cs ++ more.takeWhile isWordPart)))
      (cs ++ more.takeWhile isWordPart) (more.dropWhile isWordPart) := by
  simp only [word, List.takeWhile_append_of_pos h, List.dropWhile_append_of_pos h]

theorem word_isToken (hc : isWordStart c = true) (cs : List Char) : (word (c :: cs)).IsToken := by
  refine ⟨_, rfl, ?_⟩
  have hpart := isWordPart_of_start hc
  have hchars : (word (c :: cs)).chars = c :: cs.takeWhile isWordPart := by
    simp [word, ofSymbol, hpart]
  have hkind : (c :: cs).takeWhile isWordPart = c :: cs.takeWhile isWordPart := by simp [hpart]
  rw [hchars, hkind]
  by_cases hid : Symbol.ofWord (String.ofList (c :: cs.takeWhile isWordPart)) = .identifier
  · rw [hid]
    refine .identifier (isWordStart_iff.1 hc) (fun d hd => isWordPart_iff.1 (List.mem_takeWhile_imp hd)) ?_
    intro a ha
    obtain ⟨_, _, _, _, _, hword⟩ := word_of_keyword ha
    have hreserved : ∀ p ∈ Symbol.keywords, p.2 ≠ .identifier := by decide
    exact hreserved _ ha (hword.symm.trans hid)
  · have hkey := Spells.keyword (Symbol.mem_keywords_of_ofWord rfl hid)
    rwa [String.toList_ofList] at hkey

/-! ### Any lexeme -/

theorem of_digit (hc : c.isDigit = true) (cs : List Char) : of c cs = number (c :: cs) := by
  unfold of
  split <;> first | exact absurd hc (by decide) | exact if_pos hc

theorem of_start (hc : isWordStart c = true) (cs : List Char) : of c cs = word (c :: cs) := by
  have hdigit := isDigit_of_start hc
  unfold of
  split <;> first | exact absurd hc (by decide) | simp [hdigit, hc]

theorem ofSymbol_isToken {a : Symbol} (h : ([c], a) ∈ punctuation) : (ofSymbol a [c] cs).IsToken :=
  ⟨_, rfl, .mark h⟩

theorem withEqual_isToken {long short : Symbol} (hl : ([c, '='], long) ∈ punctuation)
    (hs : ([c], short) ∈ punctuation) : (withEqual long short c cs).IsToken := by
  unfold withEqual
  split
  · exact ⟨_, rfl, .mark hl⟩
  · exact ⟨_, rfl, .mark hs⟩

/-- What a lexeme can be: a token, a quote without a second one, or a character that starts no token,
whatever follows it. -/
theorem of_cases (c : Char) (cs : List Char) :
    (of c cs).IsToken ∨
    (c = '"' ∧ '"' ∉ cs ∧ of c cs = ⟨c :: cs, .error .unterminatedString, []⟩) ∨
    (c ≠ '"' ∧ ∀ ds, of c ds = ⟨[c], .error .unexpectedCharacter, ds⟩) := by
  by_cases hdigit : c.isDigit = true
  · rw [of_digit hdigit]
    exact .inl (number_isToken hdigit cs)
  by_cases hstart : isWordStart c = true
  · rw [of_start hstart]
    exact .inl (word_isToken hstart cs)
  by_cases hquote : c = '"'
  · subst hquote
    by_cases hm : '"' ∈ cs
    · obtain ⟨body, more, rfl, hbody⟩ := List.eq_append_cons_of_mem hm
      refine .inl ⟨.string (String.ofList body), ?_⟩
      change (string _).kind = _ ∧ Spells (string _).chars _
      rw [string_of_quote hbody]
      exact ⟨rfl, .string hbody⟩
    · exact .inr (.inl ⟨rfl, hm, string_of_not_mem hm⟩)
  unfold of
  split
  case h_12 | h_13 | h_14 | h_15 => exact .inl (withEqual_isToken (by decide) (by decide))
  case h_16 => exact absurd rfl hquote
  case h_17 =>
    refine .inr (.inr ⟨hquote, fun ds => ?_⟩)
    split <;> simp_all
  all_goals exact .inl (ofSymbol_isToken (by decide))

theorem of_mark {a : Symbol} (h : (cs, a) ∈ punctuation) :
    ∃ c tail, cs = c :: tail ∧ of c tail = ⟨cs, .ok (.symbol a), []⟩ ∧
      ∀ more, cs.length ≤ (of c (tail ++ more)).chars.length := by
  simp only [punctuation, List.mem_cons, Prod.mk.injEq, List.not_mem_nil, or_false] at h
  rcases h with ⟨rfl, rfl⟩ | ⟨rfl, rfl⟩ | ⟨rfl, rfl⟩ | ⟨rfl, rfl⟩ | ⟨rfl, rfl⟩ | ⟨rfl, rfl⟩ | ⟨rfl, rfl⟩ |
    ⟨rfl, rfl⟩ | ⟨rfl, rfl⟩ | ⟨rfl, rfl⟩ | ⟨rfl, rfl⟩ | ⟨rfl, rfl⟩ | ⟨rfl, rfl⟩ | ⟨rfl, rfl⟩ | ⟨rfl, rfl⟩ |
    ⟨rfl, rfl⟩ | ⟨rfl, rfl⟩ | ⟨rfl, rfl⟩ | ⟨rfl, rfl⟩
  all_goals
    refine ⟨_, _, rfl, rfl, fun more => ?_⟩
    first | exact List.length_pos_iff.2 (of_chars_ne_nil _ _) | exact Nat.le_refl 2

theorem of_word {c : Char} {cs : List Char} (hc : isWordStart c = true) (hcs : ∀ d ∈ cs, isWordPart d) :
    of c cs = ofSymbol (.ofWord (String.ofList (c :: cs))) (c :: cs) [] ∧
      ∀ more, (c :: cs).length ≤ (of c (cs ++ more)).chars.length := by
  have hall : ∀ d ∈ c :: cs, isWordPart d := List.forall_mem_cons.2 ⟨isWordPart_of_start hc, hcs⟩
  constructor
  · have hself := word_of_parts hall []
    simp only [List.append_nil, List.takeWhile_nil, List.dropWhile_nil] at hself
    rw [of_start hc, hself]
  · intro more
    rw [of_start hc, ← List.cons_append, word_of_parts hall, ofSymbol, List.length_append]
    exact Nat.le_add_right _ _

/-- A token is the lexeme of its own text, and of a longer text the lexeme takes in all of it. -/
theorem of_spells {kind : Kind} (h : Spells cs kind) :
    ∃ c tail, cs = c :: tail ∧ of c tail = ⟨cs, .ok kind, []⟩ ∧
      ∀ more, cs.length ≤ (of c (tail ++ more)).chars.length := by
  cases h with
  | mark h => exact of_mark h
  | @string body hbody =>
    refine ⟨'"', body ++ ['"'], rfl, string_of_quote hbody [], fun more => ?_⟩
    have hmore := string_of_quote hbody more
    rw [List.append_assoc]
    change _ ≤ (string _).chars.length
    rw [List.singleton_append, hmore]
  | whole hne hd =>
    obtain ⟨c, tail, rfl⟩ := List.exists_cons_of_ne_nil hne
    have hc := hd c List.mem_cons_self
    refine ⟨c, tail, rfl, ?_, fun more => ?_⟩
    · rw [of_digit hc, number_of_digits hd]
    · rw [of_digit hc, ← List.cons_append]
      exact number_takes hd more
  | @fraction digits decimals hne hd hne' hf =>
    obtain ⟨c, tail, rfl⟩ := List.exists_cons_of_ne_nil hne
    have hc := hd c List.mem_cons_self
    refine ⟨c, tail ++ '.' :: decimals, rfl, ?_, fun more => ?_⟩
    · have hself := number_of_fraction hd hne' hf []
      simp only [List.append_nil, List.takeWhile_nil, List.dropWhile_nil] at hself
      rw [of_digit hc, ← List.cons_append, hself]
    · have hmore := number_of_fraction hd hne' hf more
      rw [of_digit hc, List.append_assoc]
      change _ ≤ (number (c :: tail ++ '.' :: (decimals ++ more))).chars.length
      rw [hmore]
      simp
  | @keyword word a h =>
    obtain ⟨c, tail, heq, hc, htail, ha⟩ := word_of_keyword h
    obtain ⟨hself, hmore⟩ := of_word hc htail
    rw [← heq, String.ofList_toList, ha] at hself
    rw [← heq] at hmore
    exact ⟨c, tail, heq, hself, hmore⟩
  | @identifier c tail hc htail hnot =>
    obtain ⟨hself, hmore⟩ := of_word (isWordStart_iff.2 hc) fun d hd => isWordPart_iff.2 (htail d hd)
    have hid : Symbol.ofWord (String.ofList (c :: tail)) = .identifier := by
      by_contra hne
      exact hnot _ (Symbol.mem_keywords_of_ofWord rfl hne)
    rw [hid] at hself
    exact ⟨c, tail, rfl, hself, hmore⟩

/-! ### The longest lexeme -/

/-- A token is of one kind only. -/
theorem spells_unique {kind kind' : Kind} (h : Spells cs kind) (h' : Spells cs kind') : kind = kind' := by
  obtain ⟨c, tail, rfl, hself, _⟩ := of_spells h
  obtain ⟨c', tail', heq, hself', _⟩ := of_spells h'
  obtain ⟨rfl, rfl⟩ := List.cons.inj heq
  rw [hself] at hself'
  simpa using hself'

/-- The lexeme takes in all of every token that the input starts with, and so there is one. -/
theorem of_takes {kind : Kind} {w more : List Char} (h : Spells w kind) (heq : w ++ more = c :: cs) :
    (of c cs).IsToken ∧ w.length ≤ (of c cs).chars.length := by
  obtain ⟨c', tail, rfl, hself, hlen⟩ := of_spells h
  obtain ⟨rfl, rfl⟩ := List.cons.inj heq
  refine ⟨?_, hlen more⟩
  rcases of_cases c' (tail ++ more) with hok | ⟨rfl, hquote, _⟩ | ⟨_, hother⟩
  · exact hok
  · have htail : '"' ∉ tail := fun hm => hquote (List.mem_append_left _ hm)
    have hstring : of '"' tail = _ := string_of_not_mem htail
    rw [hself] at hstring
    cases hstring
  · rw [hother tail] at hself
    cases hself

theorem reads_of (c : Char) (cs : List Char) : Reads (of c cs).chars (of c cs).kind (of c cs).rest := by
  rcases of_cases c cs with ⟨kind, hkind, hspells⟩ | ⟨rfl, hquote, hof⟩ | ⟨hne, hother⟩
  · rw [hkind]
    refine .token hspells ⟨⟨kind, hspells⟩, ?_⟩
    rintro w more heq ⟨kind', hw⟩
    rw [of_append] at heq
    exact (of_takes hw heq).2
  · rw [hof]
    exact .unterminated hquote
  · rw [hother cs]
    refine .unexpected hne fun w more kind heq hw => ?_
    obtain ⟨⟨kind', hkind', _⟩, _⟩ := of_takes hw heq
    rw [hother cs] at hkind'
    cases hkind'

theorem eq_of_reads {w rest : List Char} {kind : Except LexicalFault Kind} (h : Reads w kind rest)
    (heq : w ++ rest = c :: cs) : of c cs = ⟨w, kind, rest⟩ := by
  cases h with
  | @token _ _ kind hw hlongest =>
    obtain ⟨⟨kind', hkind', hspells⟩, hle⟩ := of_takes hw heq
    have happend := of_append c cs
    have hge := hlongest.le _ _ (happend.trans heq.symm) ⟨kind', hspells⟩
    obtain ⟨hchars, hrest⟩ := List.append_inj (happend.trans heq.symm) (Nat.le_antisymm hge hle)
    rw [hchars] at hspells
    have hsame := spells_unique hw hspells
    subst hsame
    rw [← hchars, ← hkind', ← hrest]
  | unterminated hquote =>
    rw [List.append_nil] at heq
    obtain ⟨rfl, rfl⟩ := List.cons.inj heq
    exact string_of_not_mem hquote
  | unexpected hne hnone =>
    obtain ⟨rfl, rfl⟩ := List.cons.inj heq
    rcases of_cases _ _ with ⟨kind, _, hspells⟩ | ⟨hquote, _⟩ | ⟨_, hother⟩
    · exact absurd hspells (hnone _ _ kind (of_append _ _))
    · exact absurd hquote hne
    · exact hother _

theorem reads_ne_nil {w rest : List Char} {kind : Except LexicalFault Kind} (h : Reads w kind rest) :
    w ≠ [] := by
  cases h with
  | token hw =>
    obtain ⟨c, tail, rfl, _⟩ := of_spells hw
    exact List.cons_ne_nil _ _
  | unterminated => exact List.cons_ne_nil _ _
  | unexpected => exact List.cons_ne_nil _ _

end Lexeme

/-! ## Items -/

namespace Scan

/-- The items that the scanner yields are those of the grammar. -/
theorem scans_itemsFrom (line : Nat) (cs : List Char) : Scans line cs (itemsFrom line cs) := by
  fun_induction itemsFrom line cs with
  | case1 line cs here h =>
    obtain ⟨gap, hcs, hline, hlongest⟩ := skipTrivia_longest line cs
    rw [h] at hcs hline hlongest
    rw [List.append_nil] at hcs
    simp only at hline
    subst hcs hline
    exact .done hlongest.holds
  | case2 line cs here c rest h x last ih =>
    obtain ⟨gap, hcs, hline, hlongest⟩ := skipTrivia_longest line cs
    have hx : x.chars ++ x.rest = c :: rest := Lexeme.of_append c rest
    have hlast : last = line + (gap ++ x.chars).count '\n' := by
      rw [h] at hline
      simp only at hline
      simp only [last, hline, List.count_append, Nat.add_assoc]
    have hreads : Reads x.chars x.kind x.rest := Lexeme.reads_of c rest
    rw [h] at hcs hlongest
    simp only at hcs hlongest
    rw [← hx] at hcs hlongest
    rw [hcs, ← List.append_assoc]
    rw [hlast] at ih ⊢
    unfold Item.ofLexeme
    cases hkind : x.kind with
    | ok kind => exact .token hlongest (hkind ▸ hreads) ih
    | error cause => exact .fault hlongest (hkind ▸ hreads) ih

/-- Where the grammar cuts the input, the scanner does. -/
theorem itemsFrom_of_reads {line : Nat} {gap cs rest : List Char} {kind : Except LexicalFault Kind}
    (hgap : Longest Trivia gap (cs ++ rest)) (h : Reads cs kind rest) :
    itemsFrom line (gap ++ cs ++ rest) = .ofLexeme (line + (gap ++ cs).count '\n') ⟨cs, kind, rest⟩ ::
      itemsFrom (line + (gap ++ cs).count '\n') rest := by
  obtain ⟨c, tail, rfl⟩ := List.exists_cons_of_ne_nil (Lexeme.reads_ne_nil h)
  have hskip : skipTrivia false line (gap ++ (c :: tail ++ rest)) = (_, c :: (tail ++ rest)) :=
    skipTrivia_eq line hgap
  have hof : Lexeme.of c (tail ++ rest) = ⟨c :: tail, kind, rest⟩ := Lexeme.eq_of_reads h rfl
  rw [List.append_assoc, itemsFrom_of_cons hskip]
  simp only [hof, List.count_append, Nat.add_assoc]

/-- The grammar allows no other items. -/
theorem Scans.eq {line : Nat} {cs : List Char} {items : List Item} (h : Scans line cs items) :
    items = itemsFrom line cs := by
  induction h with
  | @done line gap htrivia =>
    have hskip := skipTrivia_eq line (htrivia.longest stuck_nil)
    rw [List.append_nil] at hskip
    rw [itemsFrom_of_nil hskip]
  | token hgap hreads _ ih =>
    rw [itemsFrom_of_reads hgap hreads, ih]
    rfl
  | fault hgap hreads _ ih =>
    rw [itemsFrom_of_reads hgap hreads, ih]
    rfl

/-! ### Pieces -/

section
variable {line : Nat} {cs gap rest : List Char} {items : List Item}

@[simp] theorem Piece.texts_nil : Piece.texts [] = [] := rfl

@[simp] theorem Piece.texts_cons (p : Piece) (ps : List Piece) :
    Piece.texts (p :: ps) = p.gap ++ p.chars ++ Piece.texts ps := by
  simp [Piece.texts]

theorem Piece.Cut.covered {p : Piece} (h : p.Cut rest) : p.Covered := by
  obtain ⟨gap, chars, item⟩ := p
  obtain ⟨line, kind, hreads, hitem⟩ := h.reads
  simp only at hreads hitem
  subst hitem
  cases hreads with
  | @token _ _ kind =>
    let t : Token := ⟨kind, String.ofList chars, line⟩
    have hchars : Piece.Covered ⟨gap, t.lexeme.toList, .token t⟩ := .token
    rwa [String.toList_ofList] at hchars
  | unterminated hbody => exact .unterminated hbody
  | unexpected => exact .unexpected

theorem ofLexeme_line (line : Nat) (x : Lexeme) : (Item.ofLexeme line x).line = line := by
  unfold Item.ofLexeme
  split <;> rfl

/-- One more piece at the front. -/
theorem Pieces.cons {kind : Except LexicalFault Kind} {pieces : List Piece} {last : List Char}
    (hgap : Longest Trivia gap (cs ++ rest)) (hreads : Reads cs kind rest)
    (h : Pieces (line + (gap ++ cs).count '\n') rest items pieces last) :
    Pieces line (gap ++ cs ++ rest) (.ofLexeme (line + (gap ++ cs).count '\n') ⟨cs, kind, rest⟩ :: items)
      (⟨gap, cs, .ofLexeme (line + (gap ++ cs).count '\n') ⟨cs, kind, rest⟩⟩ :: pieces) last where
  text := by
    rw [Piece.texts_cons, h.text]
    simp
  trailing := h.trailing
  items := by
    rw [h.items]
    simp [Nat.add_assoc]
  cut before p after heq := by
    cases before with
    | nil =>
      obtain ⟨rfl, rfl⟩ := List.cons.inj heq
      rw [← h.text]
      exact ⟨⟨hgap, _, kind, hreads, rfl⟩, by simp [ofLexeme_line]⟩
    | cons q before =>
      obtain ⟨rfl, rfl⟩ := List.cons.inj heq
      obtain ⟨hcut, hline⟩ := h.cut before p after rfl
      refine ⟨hcut, ?_⟩
      rw [hline]
      simp [Nat.add_assoc]

/-- The scanner's items are those of pieces that make up the input. -/
theorem Scans.pieces (h : Scans line cs items) : ∃ pieces gap, Pieces line cs items pieces gap := by
  induction h with
  | @done line gap htrivia =>
    exact ⟨[], gap, rfl, htrivia, rfl, fun before p after heq => by simp at heq⟩
  | token hgap hreads _ ih =>
    obtain ⟨pieces, last, hpieces⟩ := ih
    exact ⟨_, last, hpieces.cons hgap hreads⟩
  | fault hgap hreads _ ih =>
    obtain ⟨pieces, last, hpieces⟩ := ih
    exact ⟨_, last, hpieces.cons hgap hreads⟩

/-- Every character of the input is skipped or covered by an item. -/
theorem Scans.covered (h : Scans line cs items) :
    ∃ (pieces : List Piece) (gap : List Char),
      cs = (pieces.map fun p => p.gap ++ p.chars).flatten ++ gap ∧ (∀ p ∈ pieces, p.Covered) ∧
      items = pieces.map Piece.item ++ [.token (.endAt (line + cs.count '\n'))] := by
  obtain ⟨pieces, gap, hpieces⟩ := h.pieces
  refine ⟨pieces, gap, hpieces.text, fun p hp => ?_, hpieces.items⟩
  obtain ⟨before, after, heq⟩ := List.append_of_mem hp
  exact (hpieces.cut before p after heq).1.covered

end

/-- The scanner implements the lexical grammar by longest match and loses nothing. The items of a source
are those that the grammar allows and no others; the characters that they cover and those that are
skipped make up the source, in this order, and the last item is its end; and these are the texts of the
two faults. -/
theorem scanner_takes_longest (source : String) :
    (∀ found, Scans 1 source.toList found ↔ found = items source) ∧
    (∃ (pieces : List Piece) (gap : List Char),
      source.toList = (pieces.map fun p => p.gap ++ p.chars).flatten ++ gap ∧ (∀ p ∈ pieces, p.Covered) ∧
      items source = pieces.map Piece.item ++ [.token (.endAt (1 + source.toList.count '\n'))]) ∧
    LexicalFault.message .unterminatedString = "Unterminated string." ∧
    LexicalFault.message .unexpectedCharacter = "Unexpected character." := by
  have hscans : Scans 1 source.toList (items source) := scans_itemsFrom 1 source.toList
  refine ⟨fun found => ⟨Scans.eq, ?_⟩, hscans.covered, rfl, rfl⟩
  rintro rfl
  exact hscans

end Scan

end Lox
