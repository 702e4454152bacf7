import MiniPascal.Interpretation
import MiniPascal.Report

/-!
The command line: which words ask for what, and what the answer is.
-/

set_option autoImplicit false
set_option relaxedAutoImplicit false

namespace MiniPascal

inductive StoreFormat
  | text | json
  deriving DecidableEq

inductive Command
  | run (file : String) (checkNames : Bool) (format : StoreFormat)
  | tokens (file : String)
  | ast (file : String)
  deriving DecidableEq

namespace StoreFormat

def ofWord? : String → Option StoreFormat
  | "text" => some .text
  | "json" => some .json
  | _ => none

end StoreFormat

namespace Command

/-- One or more `v` behind a hyphen, or the long form, ask for more log output. They may stand
anywhere before a lone `--`. -/
def isVerbosity (word : String) : Bool :=
  word = "--verbose" ||
    match word.toList with
    | '-' :: 'v' :: rest => rest.all (· = 'v')
    | _ => false

/-- A word that begins with a hyphen is an option, a lone hyphen apart. -/
def isOption (word : String) : Bool :=
  word ≠ "-" && word.toList.head? = some '-'

structure Arguments where
  file : Option String
  noCheck : Bool
  format : Option StoreFormat

namespace Arguments

def none : Arguments := ⟨.none, false, .none⟩

def withFile? (a : Arguments) (word : String) : Option Arguments :=
  match a.file with
  | .none => some { a with file := some word }
  | some _ => .none

def withFormat? (a : Arguments) (word : String) : Option Arguments :=
  match a.format with
  | .none => (StoreFormat.ofWord? word).map fun f => { a with format := some f }
  | some _ => .none

def withNoCheck? (a : Arguments) : Option Arguments :=
  if a.noCheck then .none else some { a with noCheck := true }

/-- Behind a lone `--` every word is a file. -/
def readFiles? (a : Arguments) : List String → Option Arguments
  | [] => some a
  | word :: rest => (a.withFile? word).bind fun b => b.readFiles? rest

/-- The words behind the name of a subcommand. Only `run` has options of its own. -/
def read? (running : Bool) (a : Arguments) : List String → Option Arguments
  | [] => some a
  | "--" :: rest => a.readFiles? rest
  | word :: rest =>
    if isVerbosity word then a.read? running rest
    else if isOption word then
      if !running then .none
      else if word = "--no-check" then a.withNoCheck?.bind fun b => b.read? running rest
      else if word = "--format" then
        match rest with
        | value :: rest' =>
          if isOption value then .none
          else (a.withFormat? value).bind fun b => b.read? running rest'
        | [] => .none
      else if "--format=".toList <+: word.toList then
        (a.withFormat? (String.ofList (word.toList.drop 9))).bind fun b => b.read? running rest
      else .none
    else (a.withFile? word).bind fun b => b.read? running rest

end Arguments

def ofWords? (words : List String) : Option Command :=
  match words.dropWhile isVerbosity with
  | "run" :: rest => do
    let a ← Arguments.none.read? true rest
    return .run (← a.file) (!a.noCheck) (a.format.getD .text)
  | "tokens" :: rest => do
    let a ← Arguments.none.read? false rest
    return .tokens (← a.file)
  | "ast" :: rest => do
    let a ← Arguments.none.read? false rest
    return .ast (← a.file)
  | _ => none

def file : Command → String
  | .run file _ _ | .tokens file | .ast file => file

def answer (c : Command) (source : String) : Except String String :=
  match c with
  | .run _ checkNames format =>
    match (interpret checkNames source).outcome with
    | .ok store =>
      match format with
      | .text => .ok store.listing
      | .json => .ok (store.json ++ "\n")
    | .error e => .error e.message
  | .tokens _ =>
    match (Feed.ofString source).all with
    | .ok ts => .ok (Token.listing ts)
    | .error e => .error e.message
  | .ast _ =>
    match Program.ofString source with
    | .ok p => .ok (p.text ++ "\n")
    | .error e => .error e.message

end Command

inductive ReadError
  | missing
  | notText
  | other (reason : String)
  deriving DecidableEq

namespace ReadError

def message (file : String) (e : ReadError) : String :=
  "Failed to read " ++ file ++ ": " ++
    match e with
    | .missing => "No such file or directory (os error 2)"
    | .notText => "stream did not contain valid UTF-8"
    | .other reason => reason

end ReadError

structure Exit where
  code : Nat
  output : String
  errors : String
  deriving DecidableEq

namespace Exit

def usage : String :=
  "Usage: pascal [-v...] run|tokens|ast FILE [--no-check] [--format text|json]\n"

/-- A command line that asks for nothing gives code 2, and a command that fails code 1. -/
def ofCommand? (command : Option Command) (source : Except ReadError String) : Exit :=
  match command with
  | none => ⟨2, "", usage⟩
  | some c =>
    match source with
    | .error e => ⟨1, "", e.message c.file ++ "\n"⟩
    | .ok text =>
      match c.answer text with
      | .ok output => ⟨0, output, ""⟩
      | .error message => ⟨1, "", message ++ "\n"⟩

end Exit

end MiniPascal
