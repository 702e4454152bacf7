import MiniPascal.Number.Integer
import MiniPascal.Number.RealStyle
import MiniPascal.Source.Position

/-!
Tokens: the words, symbols and numbers of a program, each with its text and place.
-/

set_option autoImplicit false
set_option relaxedAutoImplicit false

namespace MiniPascal

inductive Mark
  | semicolon | dot | comma | plus | minus | star | slash | leftParen | rightParen | colon | assign
  deriving DecidableEq

namespace Mark

def all : List Mark :=
  [.semicolon, .dot, .comma, .plus, .minus, .star, .slash, .leftParen, .rightParen, .colon, .assign]

def chars : Mark → List Char
  | .semicolon => [';']
  | .dot => ['.']
  | .comma => [',']
  | .plus => ['+']
  | .minus => ['-']
  | .star => ['*']
  | .slash => ['/']
  | .leftParen => ['(']
  | .rightParen => [')']
  | .colon => [':']
  | .assign => [':', '=']

def name : Mark → String
  | .semicolon => "Semicolon"
  | .dot => "Dot"
  | .comma => "Comma"
  | .plus => "Plus"
  | .minus => "Minus"
  | .star => "Star"
  | .slash => "Slash"
  | .leftParen => "LeftParen"
  | .rightParen => "RightParen"
  | .colon => "Colon"
  | .assign => "Assign"

theorem chars_length_pos (m : Mark) : 0 < m.chars.length := by
  cases m <;> decide

theorem mem_all (m : Mark) : m ∈ all := by
  cases m <;> decide

end Mark

/-- The words that are no identifiers. They are written in capitals. -/
inductive Reserved
  | program | var | blockBegin | blockEnd | procedure | div | integer | real
  deriving DecidableEq

namespace Reserved

def all : List Reserved :=
  [.program, .var, .blockBegin, .blockEnd, .procedure, .div, .integer, .real]

def text : Reserved → String
  | .program => "PROGRAM"
  | .var => "VAR"
  | .blockBegin => "BEGIN"
  | .blockEnd => "END"
  | .procedure => "PROCEDURE"
  | .div => "DIV"
  | .integer => "INTEGER"
  | .real => "REAL"

def name : Reserved → String
  | .program => "Program"
  | .var => "Var"
  | .blockBegin => "Begin"
  | .blockEnd => "End"
  | .procedure => "Procedure"
  | .div => "Div"
  | .integer => "Integer"
  | .real => "Real"

/-- The reserved word of that spelling; capitals and small letters differ. -/
def ofText? (s : String) : Option Reserved := all.find? fun w => w.text = s

theorem mem_all (w : Reserved) : w ∈ all := by
  cases w <;> decide

end Reserved

/-- What a token is, its place aside. The end of the text counts as a token. -/
inductive TokenKind
  | integer (n : Int64)
  | real (x : Binary64)
  | identifier (name : String)
  | mark (m : Mark)
  | reserved (w : Reserved)
  | endOfInput
  deriving DecidableEq

namespace TokenKind

def text : TokenKind → String
  | .integer n => String.ofList (Integer.write n)
  | .real x => String.ofList (RealStyle.plain.write x)
  | .identifier name => name
  | .mark m => String.ofList m.chars
  | .reserved w => w.text
  | .endOfInput => "end of input"

def listing : TokenKind → String
  | .integer n => "IntegerConst(" ++ String.ofList (Integer.write n) ++ ")"
  | .real x => "RealConst(" ++ String.ofList (RealStyle.listing.write x) ++ ")"
  | .identifier name => "Identifier(\"" ++ name ++ "\")"
  | .mark m => m.name
  | .reserved w => w.name
  | .endOfInput => "Eof"

end TokenKind

structure Token where
  kind : TokenKind
  lexeme : String
  span : Span
  deriving DecidableEq

def Token.atEnd (p : Position) : Token := ⟨.endOfInput, "", .point p⟩

inductive LexError
  | strayCharacter (c : Char) (span : Span)
  | unclosedComment (span : Span)
  | numberOutOfRange (text : String) (span : Span)
  deriving DecidableEq

namespace LexError

def span : LexError → Span
  | .strayCharacter _ span | .unclosedComment span | .numberOutOfRange _ span => span

def message : LexError → String
  | .strayCharacter c span => "Invalid character '" ++ c.toString ++ "' at " ++ span.text
  | .unclosedComment span => "Unterminated comment starting at " ++ span.text
  | .numberOutOfRange text span => "Invalid number literal \"" ++ text ++ "\" at " ++ span.text

end LexError

end MiniPascal
