import MiniPascal.Interpretation
import MiniPascal.Proofs.Token.Spacing

/-!
The layout of a program is immaterial. Its lexemes may stand on other lines, with other blanks and
other comments between them; `Program.layout_immaterial` says that what is lexed, read, checked and
run is the same, and that an error is the same but for its place.
-/

set_option autoImplicit false
set_option relaxedAutoImplicit false

namespace MiniPascal

def Failure.moved (f : Position → Position) : Failure → Failure
  | .parse e => .parse (e.moved f)
  | .names e => .names e
  | .runtime e => .runtime e

variable {f : Position → Position} {source source' : String}

private theorem interpret_outcome_moved
    (h : (Program.ofString source').mapError (ParseError.moved f) =
      (Program.ofString source).mapError (ParseError.moved f)) (checkNames : Bool) :
    (interpret checkNames source').outcome.mapError (Failure.moved f) =
      (interpret checkNames source).outcome.mapError (Failure.moved f) := by
  rw [interpret_outcome, interpret_outcome]
  cases hsource : Program.ofString source with
  | error e =>
    cases hsource' : Program.ofString source' with
    | error e' =>
      rw [hsource, hsource'] at h
      have he : e'.moved f = e.moved f := Except.error.inj h
      change Except.error (Failure.parse (e'.moved f)) = .error (.parse (e.moved f))
      rw [he]
    | ok p' =>
      rw [hsource, hsource'] at h
      cases h
  | ok p =>
    cases hsource' : Program.ofString source' with
    | error e' =>
      rw [hsource, hsource'] at h
      cases h
    | ok p' =>
      rw [hsource, hsource'] at h
      obtain rfl : p' = p := Except.ok.inj h
      rfl

namespace Program

private theorem mapError_moved_of_feed
    (h : (Feed.ofString source').moved f = (Feed.ofString source).moved f) :
    (ofString source').mapError (ParseError.moved f) =
      (ofString source).mapError (ParseError.moved f) := by
  change (Parse.program.run (Feed.ofString source')).toExcept.mapError _ =
    (Parse.program.run (Feed.ofString source)).toExcept.mapError _
  rw [← Parse.toExcept_run_program_moved, ← Parse.toExcept_run_program_moved, h]

/-- A text has tokens, and another one is made of their lexemes with trivia between any two and any
trivia at both ends; the last token, which is the end of the text, has no lexeme. Then that text has
tokens of the same kinds with the same lexemes, it is read as the same program or refused with the
same error but for the place, and with a name check and without one it is interpreted with the same
store, name error or run-time error. -/
theorem layout_immaterial {tokens : List Token} (lexed : (Feed.ofString source).all = .ok tokens)
    (respaced : Respaced (tokens.dropLast.map Token.lexeme) source'.toList) :
    (∃ tokens', (Feed.ofString source').all = .ok tokens' ∧
      tokens'.map Token.kind = tokens.map Token.kind ∧
      tokens'.map Token.lexeme = tokens.map Token.lexeme) ∧
    (ofString source').mapError (ParseError.moved .forget) =
      (ofString source).mapError (ParseError.moved .forget) ∧
    ∀ checkNames, (interpret checkNames source').outcome.mapError (Failure.moved .forget) =
      (interpret checkNames source).outcome.mapError (Failure.moved .forget) := by
  obtain ⟨p, hfinish, rfl⟩ := Feed.all_eq_ok_iff.mp lexed
  rw [List.dropLast_concat] at respaced
  have hfeed := Feed.moved_ofString_of_respaced hfinish respaced
  have hread := mapError_moved_of_feed hfeed
  exact ⟨Feed.exists_all_of_moved hfeed lexed, hread, interpret_outcome_moved hread⟩

/-- A number that ends in a point in front of a word, and the same with a blank and a comment. -/
theorem point_before_word :
    let source := "PROGRAM p;BEGIN x:=2.END."
    let source' := "PROGRAM\np ; BEGIN x\t:= 2. \x7bEND\x7d END\n."
    (∃ tokens, (Feed.ofString source').all = .ok tokens ∧ tokens.map Token.lexeme =
        ["PROGRAM", "p", ";", "BEGIN", "x", ":=", "2.", "END", ".", ""]) ∧
      (ofString source').mapError (ParseError.moved .forget) =
        (ofString source).mapError (ParseError.moved .forget) ∧
      ∀ checkNames, (interpret checkNames source').outcome.mapError (Failure.moved .forget) =
        (interpret checkNames source).outcome.mapError (Failure.moved .forget) := by
  intro source source'
  have hall : (Feed.ofString source).all = .ok [
      ⟨.reserved .program, "PROGRAM", ⟨⟨1, 1⟩, ⟨1, 8⟩⟩⟩,
      ⟨.identifier "p", "p", ⟨⟨1, 9⟩, ⟨1, 10⟩⟩⟩,
      ⟨.mark .semicolon, ";", ⟨⟨1, 10⟩, ⟨1, 11⟩⟩⟩,
      ⟨.reserved .blockBegin, "BEGIN", ⟨⟨1, 11⟩, ⟨1, 16⟩⟩⟩,
      ⟨.identifier "x", "x", ⟨⟨1, 17⟩, ⟨1, 18⟩⟩⟩,
      ⟨.mark .assign, ":=", ⟨⟨1, 18⟩, ⟨1, 20⟩⟩⟩,
      ⟨.real (Decimal.ofDigits ['2'] []).toBinary64, "2.", ⟨⟨1, 20⟩, ⟨1, 22⟩⟩⟩,
      ⟨.reserved .blockEnd, "END", ⟨⟨1, 22⟩, ⟨1, 25⟩⟩⟩,
      ⟨.mark .dot, ".", ⟨⟨1, 25⟩, ⟨1, 26⟩⟩⟩,
      .atEnd ⟨1, 26⟩] := by
    decide +kernel
  have comment : Trivia [' ', '{', 'E', 'N', 'D', '}', ' '] :=
    .blank rfl (.comment (by decide : '}' ∉ ['E', 'N', 'D']) (.blank rfl .nil))
  have respaced : Respaced ["PROGRAM", "p", ";", "BEGIN", "x", ":=", "2.", "END", "."]
      source'.toList := by
    refine ⟨[], _, ?_, .nil, .blank (c := '\n') rfl (.blank (c := ' ') rfl (.blank (c := ' ') rfl
      (.blank (c := ' ') rfl (.blank (c := '\t') rfl (.blank (c := ' ') rfl (.cons comment (by simp)
        (.blank (c := '\n') rfl (.cons .nil (by simp) .nil))))))))⟩
    decide
  obtain ⟨⟨tokens, hall', -, hlexemes⟩, hread, hrun⟩ := layout_immaterial hall respaced
  exact ⟨⟨tokens, hall', hlexemes⟩, hread, hrun⟩

end Program

end MiniPascal
