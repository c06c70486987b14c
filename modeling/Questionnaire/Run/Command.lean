import Questionnaire.Run.Batch

/-! The command line: settings from the environment, the log as lines, errors in full, an exit code.
-/
namespace Questionnaire
open Files Yaml

/-- The least urgent level that is shown; none if the log is off. -/
abbrev Filter := Option Level

namespace Filter

/-- The level that a word stands for. Words for more than is told show everything. -/
def ofWord? (word : String) : Option Filter :=
  match word.map Char.toLower with
  | "off" | "0" => some none
  | "error" | "1" => some (some .error)
  | "warn" | "2" => some (some .warn)
  | "info" | "debug" | "trace" | "3" | "4" | "5" => some (some .info)
  | _ => none

/-- The name that the program goes by in a filter. -/
def program : String := "question_flatten"

/-- A filter in text: a level, or one for the program by name. Anything else shows everything; lists
of directives, directives for other targets and for spans are not read. -/
def ofText (text : String) : Filter :=
  match ofWord? text with
  | some filter => filter
  | none =>
    if text.startsWith (program ++ "=") then
      (ofWord? (text.drop (program.length + 1)).toString).getD (some .info)
    else some .info

def shows (filter : Filter) (e : Notice) : Bool :=
  match filter with
  | some level => e.level.rank ≤ level.rank
  | none => false

end Filter

structure CommandOutcome where
  tree : Tree
  exitCode : Nat
  log : List Notice
  errorText : String

namespace RunError

/-- A cause indented below the error, and numbered if there are several. -/
def causeText (number : Option Nat) (text : String) : String :=
  match number with
  | none => "    " ++ text.replace "\n" "\n    "
  | some n => s!"    {n}: " ++ text.replace "\n" "\n       "

/-- An error with its causes. -/
def report (e : RunError) : String :=
  match e.chain with
  | [] => ""
  | message :: [] => s!"Error: {message}\n"
  | message :: [cause] => s!"Error: {message}\n\nCaused by:\n{causeText none cause}\n"
  | message :: causes =>
    s!"Error: {message}\n\nCaused by:\n" ++
      String.join (causes.zipIdx.map fun (cause, i) => causeText (some i) cause ++ "\n")

end RunError

/-- The program as a function of its environment and the file system. -/
def command (lookup : String → Option String) (t : Tree) : CommandOutcome :=
  let filter := match lookup "RUST_LOG" with
    | some text => Filter.ofText text
    | none => some .info
  let outcome := run (.ofVariables lookup) t
  let log := outcome.log.filter filter.shows
  match outcome.result with
  | .ok _ => ⟨outcome.tree, 0, log, ""⟩
  | .error .crash => ⟨outcome.tree, 101, log, ""⟩
  | .error e => ⟨outcome.tree, 1, log, e.report⟩

/-- The lines of a log; a message may have several. -/
def logLines (log : List Notice) : List String :=
  log.flatMap fun e => e.text.splitOn "\n"

end Questionnaire
