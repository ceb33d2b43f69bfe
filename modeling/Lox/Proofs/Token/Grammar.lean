import Lox.Token.Scan

/-!
# The lexical grammar

Which characters make up which tokens, and how a source is cut into them. Nothing is said of how the
cuts are found: `Longest` only asks that no other cut at the same place takes more. What stands between
two tokens is skipped as a whole, and a place where no token starts is a fault.
-/

namespace Lox

/-- The line that an item ends on. -/
def Item.line : Item → Nat
  | .token t => t.line
  | .fault line _ => line

end Lox

namespace Lox.Scan

/-- The punctuation and the operators. -/
def punctuation : List (List Char × Symbol) :=
  [(['('], .leftParen), ([')'], .rightParen), (['{'], .leftBrace), (['}'], .rightBrace),
   ([','], .comma), (['.'], .dot), (['-'], .minus), (['+'], .plus), ([';'], .semicolon),
   (['*'], .star), (['/'], .slash), (['!'], .bang), (['!', '='], .bangEqual), (['='], .equal),
   (['=', '='], .equalEqual), (['<'], .less), (['<', '='], .lessEqual), (['>'], .greater),
   (['>', '='], .greaterEqual)]

/-- The characters of a token, and its kind with the value of a literal. Letters and digits are those
of ASCII. -/
inductive Spells : List Char → Kind → Prop
  | mark {cs : List Char} {a : Symbol} : (cs, a) ∈ punctuation → Spells cs (.symbol a)
  | string {body : List Char} : '"' ∉ body →
      Spells ('"' :: body ++ ['"']) (.string (String.ofList body))
  | whole {digits : List Char} : digits ≠ [] → (∀ d ∈ digits, d.isDigit) →
      Spells digits (.number (Number.ofDecimal digits []))
  | fraction {digits decimals : List Char} : digits ≠ [] → (∀ d ∈ digits, d.isDigit) →
      decimals ≠ [] → (∀ d ∈ decimals, d.isDigit) →
      Spells (digits ++ '.' :: decimals) (.number (Number.ofDecimal digits decimals))
  | keyword {word : String} {a : Symbol} : (word, a) ∈ Symbol.keywords →
      Spells word.toList (.symbol a)
  | identifier {c : Char} {cs : List Char} : c.isAlpha ∨ c = '_' → (∀ d ∈ cs, d.isAlphanum ∨ d = '_') →
      (∀ a, (String.ofList (c :: cs), a) ∉ Symbol.keywords) → Spells (c :: cs) (.symbol .identifier)

/-- The end of the input, or of a line of it. -/
def AtLineEnd (cs : List Char) : Prop := ∀ c ∈ cs.head?, c = '\n'

/-- Blanks, newlines and comments that stand before the rest of the input. A comment goes on to the end
of its line and leaves the newline. -/
inductive Trivia : List Char → List Char → Prop
  | none {rest : List Char} : Trivia [] rest
  | blank {c : Char} {cs rest : List Char} : c ∈ [' ', '\t', '\r', '\n'] → Trivia cs rest →
      Trivia (c :: cs) rest
  | comment {text cs rest : List Char} : '\n' ∉ text → AtLineEnd (cs ++ rest) → Trivia cs rest →
      Trivia ('/' :: '/' :: text ++ cs) rest

/-- No other way to cut the input in two takes more. -/
structure Longest (P : List Char → List Char → Prop) (cs rest : List Char) : Prop where
  holds : P cs rest
  le : ∀ cs' rest', cs' ++ rest' = cs ++ rest → P cs' rest' → cs'.length ≤ cs.length

/-- What the input starts with: the longest token, or a fault where there is none. -/
inductive Reads : List Char → Except LexicalFault Kind → List Char → Prop
  | token {cs rest : List Char} {kind : Kind} : Spells cs kind →
      Longest (fun cs _ => ∃ kind, Spells cs kind) cs rest → Reads cs (.ok kind) rest
  /-- A quote without a second one takes all that is left. -/
  | unterminated {body : List Char} : '"' ∉ body →
      Reads ('"' :: body) (.error .unterminatedString) []
  /-- Any other character is a fault of its own. -/
  | unexpected {c : Char} {rest : List Char} : c ≠ '"' →
      (∀ cs more kind, cs ++ more = c :: rest → ¬ Spells cs kind) →
      Reads [c] (.error .unexpectedCharacter) rest

/-- The items of an input that starts on a line: trivia and a token or a fault in turn, as long as
there is input, and then its end. -/
inductive Scans : Nat → List Char → List Item → Prop
  | done {line : Nat} {gap : List Char} : Trivia gap [] →
      Scans line gap [.token (.endAt (line + gap.count '\n'))]
  | token {line : Nat} {gap cs rest : List Char} {kind : Kind} {items : List Item} :
      Longest Trivia gap (cs ++ rest) → Reads cs (.ok kind) rest →
      Scans (line + (gap ++ cs).count '\n') rest items →
      Scans line (gap ++ cs ++ rest)
        (.token ⟨kind, String.ofList cs, line + (gap ++ cs).count '\n'⟩ :: items)
  | fault {line : Nat} {gap cs rest : List Char} {cause : LexicalFault} {items : List Item} :
      Longest Trivia gap (cs ++ rest) → Reads cs (.error cause) rest →
      Scans (line + (gap ++ cs).count '\n') rest items →
      Scans line (gap ++ cs ++ rest) (.fault (line + (gap ++ cs).count '\n') cause :: items)

/-- A piece of the input: what is skipped, and what is taken for an item. -/
structure Piece where
  gap   : List Char
  chars : List Char
  item  : Item

/-- The item covers the characters: a token has them for its lexeme, and a fault takes as many as its
cause says. -/
inductive Piece.Covered : Piece → Prop
  | token {gap : List Char} {t : Token} : Covered ⟨gap, t.lexeme.toList, .token t⟩
  | unterminated {gap body : List Char} {line : Nat} : '"' ∉ body →
      Covered ⟨gap, '"' :: body, .fault line .unterminatedString⟩
  | unexpected {gap : List Char} {c : Char} {line : Nat} :
      Covered ⟨gap, [c], .fault line .unexpectedCharacter⟩

/-- The text of pieces, one after another. -/
def Piece.texts (pieces : List Piece) : List Char := (pieces.map fun p => p.gap ++ p.chars).flatten

/-- The piece stands where the grammar cuts the input: before the rest nothing more can be skipped, and the
item is what is read. -/
structure Piece.Cut (p : Piece) (rest : List Char) : Prop where
  skips : Longest Trivia p.gap (p.chars ++ rest)
  reads : ∃ line kind, Reads p.chars kind rest ∧ p.item = .ofLexeme line ⟨p.chars, kind, rest⟩

/-- The input is cut into pieces and some trivia behind them, the items are those of the pieces, and each is on
the line where its piece ends. -/
structure Pieces (line : Nat) (cs : List Char) (items : List Item) (pieces : List Piece) (gap : List Char) :
    Prop where
  text : cs = Piece.texts pieces ++ gap
  trailing : Trivia gap []
  items : items = pieces.map Piece.item ++ [.token (.endAt (line + cs.count '\n'))]
  cut : ∀ before p after, pieces = before ++ p :: after →
    p.Cut (Piece.texts after ++ gap) ∧ p.item.line = line + (Piece.texts (before ++ [p])).count '\n'

end Lox.Scan
