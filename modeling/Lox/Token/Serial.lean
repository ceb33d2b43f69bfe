import Lox.Token.Basic

/-!
# Serialised tokens

A token list as JSON text, compact or indented. The text of a literal's kind is an object with the
kind's name as its only key.
-/

namespace Lox.Token

/-- How a list of parts is spread over lines. -/
inductive Layout where
  | compact
  | indented
deriving DecidableEq, Repr

namespace Layout

/-- The break before a part that stands `depth` levels deep. -/
def lineBreak : Layout → Nat → String
  | .compact, _ => ""
  | .indented, depth => "\n" ++ String.ofList (List.replicate (2 * depth) ' ')

/-- What divides a key from its value. -/
def colon : Layout → String
  | .compact => ":"
  | .indented => ": "

/-- The parts between brackets, one level below `depth`. -/
def enclose (l : Layout) (depth : Nat) (opening closing : String) (parts : List String) : String :=
  if parts.isEmpty then opening ++ closing
  else opening ++ ",".intercalate (parts.map (l.lineBreak (depth + 1) ++ ·)) ++ l.lineBreak depth ++ closing

def field (l : Layout) (key value : String) : String := Text.jsonString key ++ l.colon ++ value

end Layout

/-- The braces around an object. -/
def braces : String × String := ("\x7b", "\x7d")

/-- The kind of a token that stands `depth` levels deep. -/
def serialKind (l : Layout) (depth : Nat) (k : Kind) : String :=
  let tagged (value : String) := l.enclose depth braces.1 braces.2 [l.field k.name value]
  match k with
  | .symbol s => Text.jsonString s.name
  | .string text => tagged (Text.jsonString text)
  | .number value => tagged (Number.serialText value)

/-- One token as a JSON object. -/
def serialOne (l : Layout) (t : Token) : String :=
  l.enclose 1 braces.1 braces.2
    [l.field "token_type" (serialKind l 2 t.kind),
     l.field "lexeme" (Text.jsonString t.lexeme),
     l.field "line" (Nat.repr t.line)]

/-- A token list as a JSON array. -/
def serial (l : Layout) (ts : List Token) : String := l.enclose 0 "[" "]" (ts.map (serialOne l))

end Lox.Token
