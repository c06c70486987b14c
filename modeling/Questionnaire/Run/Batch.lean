import Questionnaire.Files.Walk
import Questionnaire.Run.Schedule

/-!
A whole run: the settings are told, the output directory is looked at but not made, the files below
the input directory are found and worked on, and the counts are told. It fails if the input
directory cannot be walked, and on request if there was any error.
-/
namespace Questionnaire
open Files Yaml

/-- The most files that can be worked on at a time. -/
def maxPermits : Nat := 0x1FFFFFFFFFFFFFFF

inductive RunError
  | noInput (root : String) (e : Error)
  | errors (n : Nat)
  /-- The limit on files at a time is out of range. -/
  | crash

namespace RunError

/-- The texts of an error and its causes, the outermost first. -/
def chain : RunError → List String
  | .noInput root e =>
    s!"无法遍历输入目录: {root}" :: e.message ::
      match e with
      | .traversal _ io => [io.message]
      | _ => []
  | .errors n => [s!"运行中出现 {n} 个错误"]
  | .crash => []

def message (e : RunError) : String := e.chain.headD ""

end RunError

structure RunOutcome where
  tree : Tree
  log : List Notice
  result : Except RunError Stats

/-- What is told about an output directory that cannot be written to. -/
def outputWarning (t : Tree) (root : String) : List Notice :=
  match t.entry root with
  | .ok e => if e.isDir then [] else [.outputNotDirectory root]
  | .error _ => [.outputMissing root]

/-- The result of a run with these counts. -/
def verdict (c : Config) (s : Stats) : Except RunError Stats :=
  if c.strictExit && s.hasErrors then .error (.errors s.errorCount) else .ok s

def run (config : Config) (t : Tree) : RunOutcome :=
  let c := config.normalized
  let log := Notice.startup c ++ outputWarning t c.outputRoot ++ [.scanning]
  match (t.walk c.inputRoot).mapError (.traversal c.inputRoot) with
  | .error e => ⟨t, log, .error (.noInput c.inputRoot e)⟩
  | .ok [] => ⟨t, log ++ [.noFiles] ++ Notice.summary {}, .ok {}⟩
  | .ok files =>
    let log := log ++ [.filesFound files.length, .concurrency c.maxConcurrentFiles]
    if maxPermits < c.maxConcurrentFiles then ⟨t, log, .error .crash⟩
    else
      let p := runFiles c.outputRoot c.verboseLogging c.maxConcurrentFiles { tree := t } files
      ⟨p.tree, log ++ p.log ++ Notice.summary p.stats, verdict c p.stats⟩

end Questionnaire
