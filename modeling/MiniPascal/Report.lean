import MiniPascal.Run.Session
import MiniPascal.Token.Basic

/-!
The texts that the commands print.
-/

set_option autoImplicit false
set_option relaxedAutoImplicit false

namespace MiniPascal

namespace Value

/-- A value as JSON, which has no infinities and no NaN. -/
def json : Value → String
  | .integer n => String.ofList (Integer.write n)
  | .real x => if x.isFinite then String.ofList (RealStyle.json.write x) else "null"

end Value

namespace Store

def listing (s : Store) : String :=
  String.join (s.entries.map fun e => e.1 ++ " = " ++ e.2.text ++ "\n")

/-- A JSON object with a line for each variable. The names of variables need no escapes. -/
def json (s : Store) : String :=
  match s.entries with
  | [] => "\x7b\x7d"
  | entries =>
    let member (e : String × Value) := "  \"" ++ e.1 ++ "\": " ++ e.2.json
    "\x7b\n" ++ ",\n".intercalate (entries.map member) ++ "\n\x7d"

end Store

namespace Token

def padLeft (width : Nat) (s : String) : String :=
  String.ofList (List.replicate (width - s.length) ' ') ++ s

def padRight (width : Nat) (s : String) : String :=
  s ++ String.ofList (List.replicate (width - s.length) ' ')

/-- Tokens in a table behind a token of line `line`. The number of a line stands in front of its
first token. -/
def table (line : Nat) : List Token → List String
  | [] => []
  | t :: ts =>
    let here := t.span.start.line
    let margin := if here = line then "   | " else padLeft 4 (toString here) ++ " "
    (margin ++ padRight 20 t.kind.listing ++ " " ++ t.lexeme ++ "\n") :: table here ts

def listing (ts : List Token) : String := String.join (table 0 ts)

end Token

end MiniPascal
