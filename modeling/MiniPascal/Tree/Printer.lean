import MiniPascal.Number.Integer
import MiniPascal.Number.RealStyle
import MiniPascal.Tree.Basic

/-!
The text of a tree. Every operation stands in parentheses, so the text shows the shape of the tree.
The printers put a tree in front of the text that follows it.
-/

set_option autoImplicit false
set_option relaxedAutoImplicit false

namespace MiniPascal

namespace Expr

def write : Expr → List Char → List Char
  | .integer n, rest => Integer.write n ++ rest
  | .real x, rest => RealStyle.value.write x ++ rest
  | .var name, rest => name.toList ++ rest
  | .binary l op r, rest => '(' :: l.write (' ' :: (op.text.toList ++ ' ' :: r.write (')' :: rest)))
  | .unary op e, rest => '(' :: (op.text.toList ++ e.write (')' :: rest))

def text (e : Expr) : String := String.ofList (e.write [])

end Expr

mutual

def Statement.write : Statement → List Char → List Char
  | .compound body, rest => "BEGIN".toList ++ Statement.writeBody false body ("\nEND".toList ++ rest)
  | .assign target value, rest => target.toList ++ " := ".toList ++ value.write rest
  | .skip, rest => rest

/-- Each statement begins a line; a semicolon parts it from the one before, if there is one. -/
def Statement.writeBody (separated : Bool) : List Statement → List Char → List Char
  | [], rest => rest
  | s :: ss, rest =>
    (if separated then [';'] else []) ++ '\n' :: s.write (Statement.writeBody true ss rest)

end

namespace Statement

def text (s : Statement) : String := String.ofList (s.write [])

end Statement

mutual

def Declaration.write : Declaration → List Char → List Char
  | .var name type, rest =>
    "VAR ".toList ++ name.toList ++ " : ".toList ++ type.toList ++ ';' :: rest
  | .procedure name declarations body, rest =>
    "PROCEDURE ".toList ++ name.toList ++ ";\n".toList ++
      Declaration.writeAll declarations ((Statement.compound body).write (';' :: rest))

def Declaration.writeAll : List Declaration → List Char → List Char
  | [], rest => rest
  | d :: ds, rest => d.write ('\n' :: Declaration.writeAll ds rest)

end

namespace Program

def write (p : Program) : List Char :=
  "PROGRAM ".toList ++ p.name.toList ++ ";\n".toList ++
    Declaration.writeAll p.declarations ((Statement.compound p.body).write ['.'])

def text (p : Program) : String := String.ofList p.write

end Program

end MiniPascal
