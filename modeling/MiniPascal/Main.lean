import MiniPascal.Command

/-!
The program: it reads the file that the command line names and prints the answer.
-/

set_option autoImplicit false
set_option relaxedAutoImplicit false

namespace MiniPascal

def readSource (file : String) : IO (Except ReadError String) := do
  try
    let bytes ← IO.FS.readBinFile file
    return match String.fromUTF8? bytes with
    | some text => .ok text
    | none => .error .notText
  catch
    | .noFileOrDirectory .. => return .error .missing
    | e => return .error (.other (toString e))

end MiniPascal

open MiniPascal in
def main (args : List String) : IO UInt32 := do
  let command := Command.ofWords? args
  let source ← match command with
    | some c => readSource c.file
    | none => pure (.error .missing)
  let result := Exit.ofCommand? command source
  (← IO.getStdout).putStr result.output
  (← IO.getStderr).putStr result.errors
  return result.code.toUInt32
