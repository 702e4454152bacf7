import MiniPascal.Token.Scanner

/-!
All tokens of a text, and what stands behind them: its end or a fault.
-/

set_option autoImplicit false
set_option relaxedAutoImplicit false

namespace MiniPascal

/-- How a row of tokens ends: with the end of the text, or with a fault. -/
inductive Ending
  | finish (p : Position)
  | fault (e : LexError)
  deriving DecidableEq

/-- The tokens that are left, in order, and the ending behind them. -/
structure Feed where
  tokens : List Token
  ending : Ending
  deriving DecidableEq

namespace Feed

def ofScanner (s : Scanner) : Feed :=
  match h : s.next with
  | (.error e, _) => ⟨[], .fault e⟩
  | (.ok t, after) =>
    if ht : t.kind = .endOfInput then ⟨[], .finish t.span.start⟩
    else
      have : after.rest.length < s.rest.length := Scanner.length_lt_of_next h ht
      let feed := ofScanner after
      ⟨t :: feed.tokens, feed.ending⟩
termination_by s.rest.length

def ofString (source : String) : Feed := ofScanner (.ofString source)

/-- The tokens with the end of the text as the last one, or the fault. -/
def all (feed : Feed) : Except LexError (List Token) :=
  match feed.ending with
  | .finish p => .ok (feed.tokens ++ [.atEnd p])
  | .fault e => .error e

end Feed

/-- A scanner that is read as a sequence. The sequence is over when it has given the end of the
text or a fault, whatever the scanner gives on its own. -/
structure TokenSequence where
  scanner : Scanner
  ended : Bool
  deriving DecidableEq

namespace TokenSequence

def ofString (source : String) : TokenSequence := ⟨.ofString source, false⟩

def take (s : TokenSequence) : Except LexError Token × TokenSequence :=
  let (result, scanner) := s.scanner.next
  (result, { s with scanner })

def next (s : TokenSequence) : Option (Except LexError Token) × TokenSequence :=
  if s.ended then (none, s)
  else
    let (result, scanner) := s.scanner.next
    let ended := match result with
      | .ok t => t.kind = .endOfInput
      | .error _ => true
    (some result, ⟨scanner, ended⟩)

def remaining (s : TokenSequence) : Except LexError (List Token) :=
  if s.ended then .ok [] else (Feed.ofScanner s.scanner).all

end TokenSequence

end MiniPascal
