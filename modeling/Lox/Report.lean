import Lox.Token.Basic

/-!
# Reports

What a program's author is told. A report belongs to a stage and names a place: a line, or the token
to blame. `Reports` collects them in order, and remembers whether a run was stopped by an error.
-/

namespace Lox

/-- Why a piece of text is no token. -/
inductive LexicalFault where
  | unexpectedCharacter
  | unterminatedString
deriving DecidableEq, Repr

def LexicalFault.message : LexicalFault → String
  | .unexpectedCharacter => "Unexpected character."
  | .unterminatedString => "Unterminated string."

/-- One report, by stage. -/
inductive Report where
  | lexical (line : Nat) (message : String)
  | syntactic (blamed : Token) (message : String)
  | scoping (blamed : Token) (message : String)
  | runtime (blamed : Token) (message : String)
deriving DecidableEq, Repr

namespace Report

/-- The place of a static report: the lexeme, or the end of the input. -/
def place (t : Token) : String := if t.is .eof then " at end" else " at '" ++ t.lexeme ++ "'"

/-- The text of a static report. -/
def staticText (line : Nat) (place message : String) : String :=
  "[line " ++ Nat.repr line ++ "] Error" ++ place ++ ": " ++ message

def text : Report → String
  | .lexical line message => staticText line "" message
  | .syntactic t message => staticText t.line (place t) message
  | .scoping t message => staticText t.line (place t) message
  | .runtime t message => message ++ "\n[line " ++ Nat.repr t.line ++ "]"

/-- Whether the report keeps a program from running. -/
def isStatic : Report → Bool
  | .runtime .. => false
  | _ => true

end Report

/-- The reports held, oldest first, and whether a run ended in an error. -/
structure Reports where
  held : List Report := []
  hadRuntimeError : Bool := false
deriving DecidableEq, Repr

namespace Reports

def empty : Reports := {}

/-- Adds reports of any stage. -/
def add (r : Reports) (new : List Report) : Reports := { r with held := r.held ++ new }

/-- Adds the error that ended a run. -/
def addRuntimeError (r : Reports) (blamed : Token) (message : String) : Reports :=
  { held := r.held ++ [.runtime blamed message], hadRuntimeError := true }

/-- Whether a static report is held. -/
def hadError (r : Reports) : Bool := r.held.any Report.isStatic

end Reports

end Lox
