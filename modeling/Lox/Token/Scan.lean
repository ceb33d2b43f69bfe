import Lox.Report

/-!
# Scanning

Source text becomes a sequence of items, each a token or a lexical report. Blanks, newlines and
comments are skipped; then the longest lexeme that the next character starts is taken
(`Lexeme.of`). A lexeme's line is the line it ends on, so newlines inside a string count. The last
item is always the end-of-input token.
-/

namespace Lox

namespace Scan

def isBlank (c : Char) : Bool := c = ' ' || c = '\r' || c = '\t'

def isWordStart (c : Char) : Bool := c.isAlpha || c = '_'

def isWordPart (c : Char) : Bool := c.isAlphanum || c = '_'

/-- Skips blanks, newlines and comments, and counts the newlines. A comment ends before its newline. -/
def skipTrivia (inComment : Bool) (line : Nat) : List Char → Nat × List Char
  | [] => (line, [])
  | c :: cs =>
    if c = '\n' then skipTrivia false (line + 1) cs
    else if inComment || isBlank c then skipTrivia inComment line cs
    else if c = '/' ∧ cs.head? = some '/' then skipTrivia true line cs
    else (line, c :: cs)

theorem skipTrivia_length (inComment : Bool) (line : Nat) (cs : List Char) :
    (skipTrivia inComment line cs).2.length ≤ cs.length := by
  fun_induction skipTrivia inComment line cs <;> simp_all <;> omega

end Scan

/-- A lexeme at the head of the input: the characters it covers, what they are, and what follows. -/
structure Lexeme where
  chars : List Char
  kind  : Except LexicalFault Kind
  rest  : List Char

namespace Lexeme

open Scan

def ofSymbol (s : Symbol) (chars rest : List Char) : Lexeme := ⟨chars, .ok (.symbol s), rest⟩

/-- An operator that takes a following `=` into its lexeme. -/
def withEqual (long short : Symbol) (c : Char) : List Char → Lexeme
  | '=' :: cs => ofSymbol long [c, '='] cs
  | cs => ofSymbol short [c] cs

/-- A string, after its opening quote: everything up to the next quote, newlines included. -/
def string (cs : List Char) : Lexeme :=
  let body := cs.takeWhile (· ≠ '"')
  match cs.dropWhile (· ≠ '"') with
  | [] => ⟨'"' :: body, .error .unterminatedString, []⟩
  | quote :: rest => ⟨'"' :: body ++ [quote], .ok (.string (String.ofList body)), rest⟩

/-- A number: digits, and a fraction if a digit follows the point. -/
def number (cs : List Char) : Lexeme :=
  let whole := cs.takeWhile Char.isDigit
  let plain (rest : List Char) : Lexeme := ⟨whole, .ok (.number (Number.ofDecimal whole [])), rest⟩
  match cs.dropWhile Char.isDigit with
  | '.' :: d :: rest =>
    if d.isDigit then
      let fraction := (d :: rest).takeWhile Char.isDigit
      ⟨whole ++ '.' :: fraction, .ok (.number (Number.ofDecimal whole fraction)),
        (d :: rest).dropWhile Char.isDigit⟩
    else plain ('.' :: d :: rest)
  | rest => plain rest

/-- An identifier or a reserved word. -/
def word (cs : List Char) : Lexeme :=
  let chars := cs.takeWhile isWordPart
  ofSymbol (.ofWord (String.ofList chars)) chars (cs.dropWhile isWordPart)

/-- The lexeme that starts with `c`. A character that starts none is a fault of its own. -/
def of (c : Char) (cs : List Char) : Lexeme :=
  match c with
  | '(' => ofSymbol .leftParen [c] cs
  | ')' => ofSymbol .rightParen [c] cs
  | '{' => ofSymbol .leftBrace [c] cs
  | '}' => ofSymbol .rightBrace [c] cs
  | ',' => ofSymbol .comma [c] cs
  | '.' => ofSymbol .dot [c] cs
  | '-' => ofSymbol .minus [c] cs
  | '+' => ofSymbol .plus [c] cs
  | ';' => ofSymbol .semicolon [c] cs
  | '*' => ofSymbol .star [c] cs
  | '/' => ofSymbol .slash [c] cs
  | '!' => withEqual .bangEqual .bang c cs
  | '=' => withEqual .equalEqual .equal c cs
  | '<' => withEqual .lessEqual .less c cs
  | '>' => withEqual .greaterEqual .greater c cs
  | '"' => string cs
  | c =>
    if c.isDigit then number (c :: cs)
    else if isWordStart c then word (c :: cs)
    else ⟨[c], .error .unexpectedCharacter, cs⟩

theorem withEqual_append (long short : Symbol) (c : Char) (cs : List Char) :
    (withEqual long short c cs).chars ++ (withEqual long short c cs).rest = c :: cs := by
  unfold withEqual
  split <;> simp [ofSymbol]

theorem withEqual_chars_ne_nil (long short : Symbol) (c : Char) (cs : List Char) :
    (withEqual long short c cs).chars ≠ [] := by
  unfold withEqual
  split <;> simp [ofSymbol]

theorem string_append (cs : List Char) : (string cs).chars ++ (string cs).rest = '"' :: cs := by
  have h := List.takeWhile_append_dropWhile (p := (· ≠ '"')) (l := cs)
  unfold string
  split
  all_goals
    rename_i heq
    rw [heq] at h
    simpa using h

theorem string_chars_ne_nil (cs : List Char) : (string cs).chars ≠ [] := by
  unfold string
  split <;> simp

theorem number_append (cs : List Char) : (number cs).chars ++ (number cs).rest = cs := by
  have h := List.takeWhile_append_dropWhile (p := Char.isDigit) (l := cs)
  unfold number
  split
  · split <;> simp_all
  · simp_all

theorem number_chars_ne_nil {c : Char} (cs : List Char) (h : c.isDigit) :
    (number (c :: cs)).chars ≠ [] := by
  unfold number
  split
  · split <;> simp [h]
  · simp [h]

theorem word_append (cs : List Char) : (word cs).chars ++ (word cs).rest = cs := by
  simp [word, ofSymbol]

theorem word_chars_ne_nil {c : Char} (cs : List Char) (h : isWordStart c) :
    (word (c :: cs)).chars ≠ [] := by
  have : isWordPart c = true := by
    simp only [isWordStart, Bool.or_eq_true] at h
    rcases h with h | h <;> simp [isWordPart, Char.isAlphanum, h]
  simp [word, ofSymbol, this]

/-- A lexeme and what follows it make up the input. -/
theorem of_append (c : Char) (cs : List Char) : (of c cs).chars ++ (of c cs).rest = c :: cs := by
  unfold of
  split <;> try simp only [ofSymbol, List.singleton_append, withEqual_append, string_append]
  split
  · exact number_append _
  · split
    · exact word_append _
    · rfl

/-- A lexeme covers at least one character. -/
theorem of_chars_ne_nil (c : Char) (cs : List Char) : (of c cs).chars ≠ [] := by
  unfold of
  split <;> try simp [ofSymbol, withEqual_chars_ne_nil, string_chars_ne_nil]
  split
  · rename_i h
    exact number_chars_ne_nil cs h
  · split
    · rename_i h
      exact word_chars_ne_nil cs h
    · simp

theorem of_rest_length (c : Char) (cs : List Char) : (of c cs).rest.length ≤ cs.length := by
  have h := congrArg List.length (of_append c cs)
  have := List.length_pos_iff.2 (of_chars_ne_nil c cs)
  simp only [List.length_append, List.length_cons] at h
  omega

end Lexeme

/-- What scanning yields: a token, or a fault and the line it ends on. -/
inductive Item where
  | token (t : Token)
  | fault (line : Nat) (cause : LexicalFault)
deriving DecidableEq, Repr

namespace Item

/-- The item of a lexeme that ends on `line`. -/
def ofLexeme (line : Nat) (x : Lexeme) : Item :=
  match x.kind with
  | .ok kind => .token ⟨kind, String.ofList x.chars, line⟩
  | .error cause => .fault line cause

def token? : Item → Option Token
  | .token t => some t
  | .fault .. => none

def report? : Item → Option Report
  | .token _ => none
  | .fault line cause => some (.lexical line cause.message)

end Item

namespace Scan

/-- The items of the input from `line` on. -/
def itemsFrom (line : Nat) (cs : List Char) : List Item :=
  match _h : skipTrivia false line cs with
  | (here, []) => [.token (.endAt here)]
  | (here, c :: rest) =>
    let x := Lexeme.of c rest
    let last := here + x.chars.count '\n'
    .ofLexeme last x :: itemsFrom last x.rest
termination_by cs.length
decreasing_by
  have h₁ := skipTrivia_length false line cs
  have h₂ := Lexeme.of_rest_length c rest
  rw [_h, List.length_cons] at h₁
  omega

theorem itemsFrom_of_nil {line here : Nat} {cs : List Char} (h : skipTrivia false line cs = (here, [])) :
    itemsFrom line cs = [.token (.endAt here)] := by
  rw [itemsFrom]
  split <;> simp_all

theorem itemsFrom_of_cons {line here : Nat} {cs rest : List Char} {c : Char}
    (h : skipTrivia false line cs = (here, c :: rest)) :
    itemsFrom line cs =
      let x := Lexeme.of c rest
      let last := here + x.chars.count '\n'
      .ofLexeme last x :: itemsFrom last x.rest := by
  rw [itemsFrom]
  split <;> simp_all

/-- The items of a source text. -/
def items (source : String) : List Item := itemsFrom 1 source.toList

/-- The tokens of a source text; the last is the end of the input. -/
def tokens (source : String) : List Token := (items source).filterMap Item.token?

/-- The lexical reports of a source text. -/
def reports (source : String) : List Report := (items source).filterMap Item.report?

end Scan

end Lox
