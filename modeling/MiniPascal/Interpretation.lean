import MiniPascal.Grammar.Program
import MiniPascal.Run.Session
import MiniPascal.Scope.Check

/-!
From a text to a store: a program is read, its names are checked if that is asked for, and it is
run. Each stage has a log, and the first error of any stage ends the interpretation. Of the
statements that are run only the assignments are logged.
-/

set_option autoImplicit false
set_option relaxedAutoImplicit false

namespace MiniPascal

/-- What can be logged. -/
inductive Event
  | token (t : Token)
  | parsed (program : String) (declarations : Nat)
  | resolving (program : String)
  | declared (symbol : Symbol) (scope : String)
  | interpreting (program : String)
  | assigned (name : String) (value : Value)
  deriving DecidableEq

namespace Event

def line : Event → String
  | .token t => "TRACE pascal::lexer: token " ++ t.kind.listing ++ " at " ++ t.span.text
  | .parsed program declarations =>
    "DEBUG pascal::parser: parsed program " ++ program ++ " with " ++ toString declarations ++
      " top-level declarations"
  | .resolving program => "DEBUG pascal::resolver: resolving names in program " ++ program
  | .declared symbol scope =>
    "DEBUG pascal::resolver: declare " ++ symbol.text ++ " in scope " ++ scope
  | .interpreting program => "DEBUG pascal::interpreter: interpreting program " ++ program
  | .assigned name value => "TRACE pascal::interpreter: " ++ name ++ " := " ++ value.text

end Event

inductive Failure
  | parse (e : ParseError)
  | names (e : NameError)
  | runtime (e : RuntimeError)

namespace Failure

def message : Failure → String
  | .parse e => e.message
  | .names e => e.message
  | .runtime e => e.message

end Failure

namespace Feed

/-- The tokens that were looked at while `rest` was reached: those taken off, and the one then in
front. -/
def fetched (feed rest : Feed) : List Token :=
  feed.tokens.take (feed.tokens.length - (rest.tokens.length - 1))

theorem fetched_eq {feed rest : Feed} {front : List Token}
    (h : feed.tokens = front ++ rest.tokens) :
    feed.fetched rest = front ++ rest.tokens.take 1 := by
  rw [fetched, h]
  cases rest.tokens with
  | nil => simp
  | cons t ts =>
    have hlength : (front ++ t :: ts).length - ((t :: ts).length - 1) = (front ++ [t]).length := by
      simp only [List.length_append, List.length_cons, List.length_nil]
      omega
    rw [hlength, List.append_cons front t ts, List.take_left]
    rfl

end Feed

namespace Program

def ofStringLogged (source : String) : List Event × Except ParseError Program :=
  let feed := Feed.ofString source
  let reply := Parse.program.run feed
  let tokens := (feed.fetched reply.rest).map Event.token
  match reply with
  | .ok p _ => (tokens ++ [.parsed p.name p.declarations.length], .ok p)
  | .error e _ => (tokens, .error e)

def checkLogged (p : Program) : List Event × Except NameError Unit :=
  let (result, survey) := Survey.start.check p
  (.resolving p.name :: survey.declared.toList.map fun d => .declared d.1 d.2, result)

def runLogged (p : Program) : List Event × Except RuntimeError Store :=
  let (result, session) := Session.start.run p
  (.interpreting p.name :: session.performed.toList.map fun a => .assigned a.1 a.2,
    result.map fun _ => session.store)

theorem ofStringLogged_snd (source : String) : (ofStringLogged source).2 = ofString source := by
  unfold ofStringLogged
  change _ = (Parse.program.run (Feed.ofString source)).toExcept
  cases h : Parse.program.run (Feed.ofString source) <;> simp [h, Reply.toExcept]

end Program

/-- The log of an interpretation, and the store or the failure it ends in. -/
structure Transcript where
  events : List Event
  outcome : Except Failure Store

def interpret (checkNames : Bool) (source : String) : Transcript :=
  let (reading, parsed) := Program.ofStringLogged source
  match parsed with
  | .error e => ⟨reading, .error (.parse e)⟩
  | .ok p =>
    let (checking, checked) := if checkNames then p.checkLogged else ([], .ok ())
    match checked with
    | .error e => ⟨reading ++ checking, .error (.names e)⟩
    | .ok () =>
      let (running, store) := p.runLogged
      ⟨reading ++ checking ++ running, store.mapError .runtime⟩

/-- The stages of an interpretation without their logs. -/
theorem interpret_outcome (checkNames : Bool) (source : String) :
    (interpret checkNames source).outcome =
      match Program.ofString source with
      | .error e => .error (.parse e)
      | .ok p =>
        match if checkNames then (Survey.start.check p).1 else .ok () with
        | .error e => .error (.names e)
        | .ok () =>
          ((Session.start.run p).1.map fun _ => (Session.start.run p).2.store).mapError
            .runtime := by
  rw [interpret, ← Program.ofStringLogged_snd]
  rcases Program.ofStringLogged source with ⟨reading, _ | p⟩
  · rfl
  · cases checkNames with
    | false => rfl
    | true =>
      simp only [if_true, Program.checkLogged, Program.runLogged]
      rcases Survey.start.check p with ⟨_ | _, survey⟩ <;> rfl

end MiniPascal
