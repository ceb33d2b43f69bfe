import Lox.Number.Text
import Lox.Text.Quoted

/-!
# Tokens

A token is a piece of source text with its kind and the line it ends on. Only strings and numbers
carry data; `Kind.same` compares kinds and ignores that data. The texts of a token are its display
line and two JSON forms.
-/

namespace Lox

/-- The kinds of token that carry no data. -/
inductive Symbol where
  | leftParen
  | rightParen
  | leftBrace
  | rightBrace
  | comma
  | dot
  | minus
  | plus
  | semicolon
  | slash
  | star
  | bang
  | bangEqual
  | equal
  | equalEqual
  | greater
  | greaterEqual
  | less
  | lessEqual
  | identifier
  | andKw
  | classKw
  | elseKw
  | falseKw
  | funKw
  | forKw
  | ifKw
  | nilKw
  | orKw
  | printKw
  | returnKw
  | superKw
  | thisKw
  | trueKw
  | varKw
  | whileKw
  | eof
deriving DecidableEq, Repr, Inhabited

namespace Symbol

/-- The name of the kind in token listings. -/
def name : Symbol → String
  | .leftParen => "LEFT_PAREN"
  | .rightParen => "RIGHT_PAREN"
  | .leftBrace => "LEFT_BRACE"
  | .rightBrace => "RIGHT_BRACE"
  | .comma => "COMMA"
  | .dot => "DOT"
  | .minus => "MINUS"
  | .plus => "PLUS"
  | .semicolon => "SEMICOLON"
  | .slash => "SLASH"
  | .star => "STAR"
  | .bang => "BANG"
  | .bangEqual => "BANG_EQUAL"
  | .equal => "EQUAL"
  | .equalEqual => "EQUAL_EQUAL"
  | .greater => "GREATER"
  | .greaterEqual => "GREATER_EQUAL"
  | .less => "LESS"
  | .lessEqual => "LESS_EQUAL"
  | .identifier => "IDENTIFIER"
  | .andKw => "AND"
  | .classKw => "CLASS"
  | .elseKw => "ELSE"
  | .falseKw => "FALSE"
  | .funKw => "FUN"
  | .forKw => "FOR"
  | .ifKw => "IF"
  | .nilKw => "NIL"
  | .orKw => "OR"
  | .printKw => "PRINT"
  | .returnKw => "RETURN"
  | .superKw => "SUPER"
  | .thisKw => "THIS"
  | .trueKw => "TRUE"
  | .varKw => "VAR"
  | .whileKw => "WHILE"
  | .eof => "EOF"

/-- Every symbol, once. -/
def all : List Symbol :=
  [.leftParen, .rightParen, .leftBrace, .rightBrace, .comma, .dot, .minus, .plus, .semicolon,
   .slash, .star, .bang, .bangEqual, .equal, .equalEqual, .greater, .greaterEqual, .less,
   .lessEqual, .identifier, .andKw, .classKw, .elseKw, .falseKw, .funKw, .forKw, .ifKw, .nilKw,
   .orKw, .printKw, .returnKw, .superKw, .thisKw, .trueKw, .varKw, .whileKw, .eof]

/-- The reserved words. -/
def keywords : List (String × Symbol) :=
  [("and", .andKw), ("class", .classKw), ("else", .elseKw), ("false", .falseKw), ("fun", .funKw),
   ("for", .forKw), ("if", .ifKw), ("nil", .nilKw), ("or", .orKw), ("print", .printKw),
   ("return", .returnKw), ("super", .superKw), ("this", .thisKw), ("true", .trueKw),
   ("var", .varKw), ("while", .whileKw)]

/-- What a word is: a reserved word or an identifier. -/
def ofWord (word : String) : Symbol := (keywords.lookup word).getD .identifier

end Symbol

/-- The lexical kind of a token, with the value of a literal. -/
inductive Kind where
  | symbol (s : Symbol)
  | string (text : String)
  | number (value : Float)
deriving DecidableEq, Repr, Inhabited

namespace Kind

def name : Kind → String
  | .symbol s => s.name
  | .string _ => "STRING"
  | .number _ => "NUMBER"

/-- Equality of kinds; the value of a literal does not matter. -/
def same : Kind → Kind → Bool
  | .symbol a, .symbol b => a = b
  | .string _, .string _ => true
  | .number _, .number _ => true
  | _, _ => false

/-- The value of a literal in a token listing. -/
def literalText : Kind → String
  | .symbol _ => "null"
  | .string text => text
  | .number value => Number.tokenText value

end Kind

/-- A token and the line it ends on, from 1. -/
structure Token where
  kind   : Kind
  lexeme : String
  line   : Nat
deriving DecidableEq, Repr, Inhabited

namespace Token

def ofSymbol (s : Symbol) (lexeme : String) (line : Nat) : Token := ⟨.symbol s, lexeme, line⟩

/-- An identifier that stands in no source. -/
def ident (name : String) (line : Nat) : Token := .ofSymbol .identifier name line

/-- The end of the input. -/
def endAt (line : Nat) : Token := .ofSymbol .eof "" line

/-- Whether the token is of the kind of a symbol. -/
def is (t : Token) (s : Symbol) : Bool := t.kind = .symbol s

/-- Equality of tokens; the value of a literal does not matter. -/
def same (a b : Token) : Bool := a.kind.same b.kind && a.lexeme = b.lexeme && a.line = b.line

/-- The line of a token listing: kind, lexeme, literal. -/
def text (t : Token) : String := t.kind.name ++ " " ++ t.lexeme ++ " " ++ t.kind.literalText

end Token

end Lox
