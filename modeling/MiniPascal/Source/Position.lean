/-!
Places in a source text, and the stretches between them. Lines and columns are both counted from
one. `Position.advanceOver_append` says that walking over a text in two pieces is walking over it at
once.
-/

set_option autoImplicit false
set_option relaxedAutoImplicit false

namespace MiniPascal

/-- A place between two characters, named by the line and the column of the character after it. -/
structure Position where
  line : Nat
  column : Nat
  deriving DecidableEq, Inhabited

namespace Position

def start : Position := ⟨1, 1⟩

/-- A line feed opens the next line; every other character takes one column. -/
def advance (p : Position) (c : Char) : Position :=
  if c = '\n' then ⟨p.line + 1, 1⟩ else ⟨p.line, p.column + 1⟩

def advanceOver (p : Position) (text : List Char) : Position :=
  text.foldl advance p

protected def le (p q : Position) : Bool :=
  p.line < q.line || (p.line = q.line && p.column ≤ q.column)

instance : LE Position := ⟨fun p q => p.le q = true⟩

instance (p q : Position) : Decidable (p ≤ q) :=
  inferInstanceAs (Decidable (p.le q = true))

def text (p : Position) : String :=
  toString p.line ++ "," ++ toString p.column

@[simp] theorem advanceOver_nil (p : Position) : p.advanceOver [] = p := rfl

@[simp] theorem advanceOver_cons (p : Position) (c : Char) (cs : List Char) :
    p.advanceOver (c :: cs) = (p.advance c).advanceOver cs := rfl

theorem advanceOver_append (p : Position) (a b : List Char) :
    p.advanceOver (a ++ b) = (p.advanceOver a).advanceOver b :=
  List.foldl_append

theorem le_iff {p q : Position} :
    p ≤ q ↔ p.line < q.line ∨ (p.line = q.line ∧ p.column ≤ q.column) := by
  show p.le q = true ↔ _
  simp [Position.le]

end Position

/-- The stretch between two places; it is empty when they coincide. -/
structure Span where
  start : Position
  finish : Position
  deriving DecidableEq, Inhabited

namespace Span

def point (p : Position) : Span := ⟨p, p⟩

/-- Joining reads from the operand that starts first to the end of the other one; of two operands
that start together the left one counts as first. -/
def join (a b : Span) : Span :=
  if a.start ≤ b.start then ⟨a.start, b.finish⟩ else ⟨b.start, a.finish⟩

def text (s : Span) : String := s.start.text

end Span

end MiniPascal
