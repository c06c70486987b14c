import Questionnaire.Files.Tree
import Questionnaire.Yaml.Merge
import Questionnaire.Yaml.Read
import Questionnaire.Yaml.Write

/-! What can go wrong with a file or a question, and how it is told. -/
namespace Questionnaire
open Files Yaml

/-- A value named by its kind. -/
def kindName : Value → String
  | .null => "空值"
  | .bool _ => "布尔值"
  | .num _ => "数字"
  | .str _ => "字符串"
  | .seq _ => "列表"
  | .map _ => "映射"
  | .tagged .. => "带标签的值"

/-- Why a text is no definition. Where its shape is wrong the value found is given. -/
inductive DefinitionError
  | unreadable (e : ReadError)
  | unmergeable (e : MergeError)
  | noMapping (found : Value)
  | badPageName (found : Value)
  | badPage (page : String) (found : Value)
  | badQuestionText (page : String) (found : Value)

def DefinitionError.message : DefinitionError → String
  | .unreadable e => e.message
  | .unmergeable e => e.message
  | .noMapping v => s!"顶层应为映射，实际为 {kindName v}"
  | .badPageName v => s!"页面名无法作为文本: {kindName v}"
  | .badPage page v => s!"页面 '{page}' 的值应为映射，实际为 {kindName v}"
  | .badQuestionText page v => s!"页面 '{page}' 中的题目文本无法作为文本: {kindName v}"

/-- Why the value of a key field gives no file name. -/
inductive KeyProblem
  | notScalar
  | empty
  | notFileName (stem : String)
  deriving DecidableEq

def KeyProblem.message : KeyProblem → String
  | .notScalar => "值不是字符串、数字或布尔值"
  | .empty => "值为空"
  | .notFileName stem => s!"'{stem}' 不能作为文件名"

inductive Error
  | traversal (path : String) (e : IoError)
  | read (path : String) (e : IoError)
  | parse (path : String) (e : DefinitionError)
  | missingKey (page question : String)
  | invalidKey (page question : String) (problem : KeyProblem)
  | invalidRecord (page question : String)
  | serialize (filename : String) (e : Write.WriteError)
  | write (path : String) (e : IoError)

def Error.message : Error → String
  | .traversal path e => s!"无法遍历目录 ({path}): {e.message}"
  | .read path e => s!"读取文件失败 ({path}): {e.message}"
  | .parse path e => s!"解析文件失败 ({path}): {e.message}"
  | .missingKey page question => s!"题目缺少标识字段 'key' (页面: {page}, 题目: {question})"
  | .invalidKey page question p =>
    s!"标识字段无法用作文件名 (页面: {page}, 题目: {question}): {p.message}"
  | .invalidRecord page question => s!"题目元数据不是映射 (页面: {page}, 题目: {question})"
  | .serialize filename e => s!"序列化失败 ({filename}): {e.message}"
  | .write path e => s!"写入文件失败 ({path}): {e.message}"

end Questionnaire
