import MiniPascal.Proofs.Grammar.ReadingLog
import MiniPascal.Proofs.Run.RunningLog
import MiniPascal.Proofs.Scope.CheckingLog

/-!
The log of an interpretation is a trace of it: stage by stage it holds what was read, what was
declared and what was assigned, as far as the interpretation came.
-/

set_option autoImplicit false
set_option relaxedAutoImplicit false

namespace MiniPascal

/-- What an interpretation logs. Each stage logs behind the one before it, and none behind one that
fails. Names are checked only if that is asked for. -/
inductive Logs (source : String) : Bool → List Event → Prop
  | rejected {checkNames : Bool} {e : ParseError} {reading : List Event}
      (parsed : Program.ofString source = .error e)
      (reads : Program.LogsReading source (.error e) reading) : Logs source checkNames reading
  | misnamed {p : Program} {e : NameError} {reading checking : List Event}
      (parsed : Program.ofString source = .ok p)
      (reads : Program.LogsReading source (.ok p) reading)
      (resolved : (Survey.start.check p).1 = .error e)
      (checks : p.LogsChecking (.error e) checking) : Logs source true (reading ++ checking)
  | checked {p : Program} {reading checking running : List Event}
      (parsed : Program.ofString source = .ok p)
      (reads : Program.LogsReading source (.ok p) reading)
      (resolved : (Survey.start.check p).1 = .ok ()) (checks : p.LogsChecking (.ok ()) checking)
      (runs : p.LogsRunning (Session.start.run p).1 (Session.start.run p).2.store running) :
      Logs source true (reading ++ checking ++ running)
  | unchecked {p : Program} {reading running : List Event}
      (parsed : Program.ofString source = .ok p)
      (reads : Program.LogsReading source (.ok p) reading)
      (runs : p.LogsRunning (Session.start.run p).1 (Session.start.run p).2.store running) :
      Logs source false (reading ++ running)

/-- Whatever the text, and whether or not names are checked, the log is a trace of what became of
it. -/
theorem logs_interpret (checkNames : Bool) (source : String) :
    Logs source checkNames (interpret checkNames source).events := by
  have reads := Program.logsReading source
  have parsed := Program.ofStringLogged_snd source
  rw [← parsed] at reads
  unfold interpret
  generalize Program.ofStringLogged source = stage at parsed reads ⊢
  obtain ⟨reading, e | p⟩ := stage
  · exact .rejected parsed.symm reads
  · have runs := p.logsRunning
    cases checkNames with
    | false =>
      have log := Logs.unchecked parsed.symm reads runs
      rwa [← List.append_nil reading] at log
    | true =>
      have checks := p.logsChecking
      have resolved : p.checkLogged.2 = (Survey.start.check p).1 := rfl
      simp only [if_true]
      generalize p.checkLogged = stage at checks resolved ⊢
      obtain ⟨checking, e | _⟩ := stage
      · exact .misnamed parsed.symm reads resolved.symm checks
      · exact .checked parsed.symm reads resolved.symm checks runs

end MiniPascal
