import Questionnaire.Record
import Questionnaire.Run.Config
import Questionnaire.Run.Stats

/-!
What a run tells while it goes on. Notices say what has happened; their level and wording stand in
two functions, and a filter by level says which of them are shown.
-/
namespace Questionnaire

inductive Level
  | error
  | warn
  | info
  deriving DecidableEq, Repr

def Level.text : Level → String
  | .error => "ERROR"
  | .warn => "WARN"
  | .info => "INFO"

/-- Errors come before warnings, and these before the rest. -/
def Level.rank : Level → Nat
  | .error => 1
  | .warn => 2
  | .info => 3

/-- A page in the course of a run: its number, its name and the file it is in. -/
structure PageContext where
  ordinal : Nat
  name : String
  source : String
  deriving DecidableEq, Repr

def PageContext.text (c : PageContext) : String :=
  s!"[页面#{c.ordinal} {c.name} 文件 {c.source}]"

inductive Notice
  | rule
  | started
  | inputRoot (path : String)
  | outputRoot (path : String)
  | maxConcurrentFiles (n : Nat)
  | outputNotDirectory (path : String)
  | outputMissing (path : String)
  | scanning
  | noFiles
  | filesFound (n : Nat)
  | concurrency (n : Nat)
  | fileSkipped (e : Error)
  | questionSkipped (page : PageContext) (e : Error)
  | progress (page : PageContext) (filenames : List String)
  | written (path : String)
  | writeFailed (e : Error)
  | finalRule
  | finished
  | finishedAt
  | totalFiles (n failed : Nat)
  | totalPages (n : Nat)
  | totalWritten (n : Nat)
  | totalSkipped (n : Nat)
  | totalWritesFailed (n : Nat)

namespace Notice

def level : Notice → Level
  | .fileSkipped _ | .writeFailed _ => .error
  | .outputNotDirectory _ | .outputMissing _ | .noFiles | .questionSkipped .. => .warn
  | _ => .info

def ruleText : String := String.ofList (List.replicate 60 '=')

/-- The wording. The time at which a run ends is not part of it. -/
def message : Notice → String
  | .rule => ruleText
  | .started => "🚀 程序启动 - 题目拆分模式"
  | .inputRoot path => s!"📂 输入目录: {path}"
  | .outputRoot path => s!"📂 输出目录: {path}"
  | .maxConcurrentFiles n => s!"📊 最大并发文件数: {n}"
  | .outputNotDirectory path => s!"⚠️ 输出路径不是目录: {path}，写入将会失败"
  | .outputMissing path => s!"⚠️ 输出目录不存在: {path}，写入将会失败"
  | .scanning => "\n📁 正在扫描输入目录..."
  | .noFiles => "⚠️ 输入目录中没有文件，程序结束"
  | .filesFound n => s!"✓ 找到 {n} 个待处理的文件"
  | .concurrency n => s!"📋 最多同时处理 {n} 个文件，完成顺序不固定\n"
  | .fileSkipped e => s!"❌ 跳过文件: {e.message}"
  | .questionSkipped page e => s!"{page.text} ⚠️ 跳过题目: {e.message}"
  | .progress page filenames =>
    s!"- Page {page.ordinal}\n    name: {page.name}\n    questions: " ++
      String.join (filenames.map fun f => "\n        - " ++ f)
  | .written path => s!"✓ 已写入: {path}"
  | .writeFailed e => s!"❌ {e.message}"
  | .finalRule => "\n" ++ ruleText
  | .finished => "📊 全部处理完成统计"
  | .finishedAt => "完成时间: <time>"
  | .totalFiles n failed => s!"📄 文件: {n} (失败 {failed})"
  | .totalPages n => s!"📑 页面: {n}"
  | .totalWritten n => s!"✅ 已写入题目: {n}"
  | .totalSkipped n => s!"⏭️ 跳过题目: {n}"
  | .totalWritesFailed n => s!"❌ 写入失败: {n}"

/-- Level and wording. -/
def text (e : Notice) : String := e.level.text ++ " " ++ e.message

/-- What is told before the input is looked at. -/
def startup (c : Config) : List Notice :=
  [.rule, .started, .inputRoot c.inputRoot, .outputRoot c.outputRoot,
    .maxConcurrentFiles c.maxConcurrentFiles, .rule]

/-- What is told at the end. -/
def summary (s : Stats) : List Notice :=
  [.finalRule, .finished, .finishedAt, .rule, .totalFiles s.files s.filesFailed,
    .totalPages s.pages, .totalWritten s.questionsWritten, .totalSkipped s.questionsSkipped,
    .totalWritesFailed s.writesFailed, .rule]

end Notice
end Questionnaire
