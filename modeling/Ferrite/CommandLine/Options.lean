import Ferrite.Compile
import Ferrite.Files.Path

/-! What a command line asks for. -/

namespace Ferrite.CommandLine

structure Options where
  paths : List Path := []
  goal : Option Goal := none
  outDir : Option Path := none
  deriving DecidableEq, Repr

/-- What is set by an option together with a value. -/
inductive Setting | goal | outDir
  deriving DecidableEq, Repr

def Setting.display : Setting → String
  | goal => "--emit <EMIT>"
  | outDir => "--out-dir <DIR>"

inductive UsageError
  | noPaths
  | emptyPath
  | missingValue (setting : Setting)
  | repeated (setting : Setting)
  | unknownGoal (value : String)
  | unknownOption (option : String)
  deriving DecidableEq, Repr

def UsageError.message : UsageError → String
  | noPaths => "the following required arguments were not provided: <PATHS>..."
  | emptyPath => "a value is required for '<PATHS>...' but none was supplied"
  | missingValue setting =>
      "a value is required for '" ++ setting.display ++ "' but none was supplied"
  | repeated setting => "the argument '" ++ setting.display ++ "' cannot be used multiple times"
  | unknownGoal value => "invalid value '" ++ value ++ "' for '" ++ Setting.goal.display ++ "'"
  | unknownOption option => "unexpected argument '" ++ option ++ "' found"

/-- What stands behind the beginning of an argument, if that is how it begins. -/
def behind? (beginning argument : String) : Option String :=
  if beginning.toList.isPrefixOf argument.toList then
    some (String.ofList (argument.toList.drop beginning.length))
  else none

/-- How one argument is meant. -/
inductive Argument
  | setting (s : Setting) (value : Option String)
  | flag
  | path
  | unknown
  deriving DecidableEq, Repr

/-- Reads one argument. The flags change nothing: diagnostics are plain in any case, and there is
no log to widen. -/
def Argument.read (a : String) : Argument :=
  if a = "--emit" then .setting .goal none
  else if a = "-o" || a = "--out-dir" then .setting .outDir none
  else if a = "--plain" || a = "--verbose" then .flag
  else match behind? "--emit=" a, behind? "--out-dir=" a, behind? "-o" a with
    | some value, _, _ => .setting .goal (some value)
    | _, some value, _ => .setting .outDir (some value)
    | _, _, some value => .setting .outDir (some ((behind? "=" value).getD value))
    | none, none, none =>
        match a.toList with
        | '-' :: 'v' :: more => if more.all (· = 'v') then .flag else .unknown
        | '-' :: _ :: _ => .unknown
        | _ => .path

/-- Whether an argument can be the value of the option in front of it. -/
def isValue (a : String) : Bool := !(a.toList.head? = some '-' && a ≠ "-")

def goal? : String → Option Goal
  | "check" => some .check
  | "wasm" => some .wasm
  | "ast" => some .tree
  | _ => none

namespace Options

def set (o : Options) (s : Setting) (value : String) : Except UsageError Options :=
  match s with
  | .goal =>
      if o.goal.isSome then .error (.repeated .goal)
      else match goal? value with
        | some goal => .ok { o with goal := some goal }
        | none => .error (.unknownGoal value)
  | .outDir =>
      if o.outDir.isSome then .error (.repeated .outDir)
      else if value = "" then .error (.missingValue .outDir)
      else .ok { o with outDir := some value.toList }

def addPath (o : Options) (path : String) : Except UsageError Options :=
  if path = "" then .error .emptyPath else .ok { o with paths := o.paths ++ [path.toList] }

/-- What the arguments ask for once they are all read. -/
def finish (o : Options) : Except UsageError Options :=
  if o.paths = [] then .error .noPaths else .ok o

/-- Reads arguments behind those that are already read. Behind two dashes all are paths. -/
def readFrom : List String → Options → Except UsageError Options
  | [], o => o.finish
  | a :: rest, o =>
      if a = "--" then do (← rest.foldlM addPath o).finish
      else match Argument.read a with
        | .setting s (some value) => (o.set s value).bind (readFrom rest)
        | .setting s none =>
            match rest with
            | [] => .error (.missingValue s)
            | value :: rest =>
                if isValue value then (o.set s value).bind (readFrom rest)
                else .error (.missingValue s)
        | .flag => readFrom rest o
        | .path => (o.addPath a).bind (readFrom rest)
        | .unknown => .error (.unknownOption a)

def read (args : List String) : Except UsageError Options := readFrom args {}

end Options
end Ferrite.CommandLine
