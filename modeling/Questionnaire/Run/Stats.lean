/-!
The counts of a run. They add up in any order (`merge_comm`, `merge_assoc`), and so do the errors
among them (`errorCount_merge`). They have no bound; those of a machine hold them below 2^64.
-/
namespace Questionnaire

structure Stats where
  files : Nat := 0
  filesFailed : Nat := 0
  pages : Nat := 0
  questionsWritten : Nat := 0
  questionsSkipped : Nat := 0
  writesFailed : Nat := 0
  deriving DecidableEq, Repr

namespace Stats

/-- The counts of two parts of a run together. -/
def merge (a b : Stats) : Stats where
  files := a.files + b.files
  filesFailed := a.filesFailed + b.filesFailed
  pages := a.pages + b.pages
  questionsWritten := a.questionsWritten + b.questionsWritten
  questionsSkipped := a.questionsSkipped + b.questionsSkipped
  writesFailed := a.writesFailed + b.writesFailed

def errorCount (s : Stats) : Nat := s.filesFailed + s.questionsSkipped + s.writesFailed

def hasErrors (s : Stats) : Bool := 0 < s.errorCount

@[simp]
theorem merge_default (a : Stats) : a.merge {} = a := rfl

@[simp]
theorem default_merge (a : Stats) : merge {} a = a := by
  simp only [merge, Nat.zero_add]

theorem merge_comm (a b : Stats) : a.merge b = b.merge a := by
  simp only [merge, Nat.add_comm]

theorem merge_assoc (a b c : Stats) : (a.merge b).merge c = a.merge (b.merge c) := by
  simp only [merge, Nat.add_assoc]

@[simp]
theorem errorCount_merge (a b : Stats) :
    (a.merge b).errorCount = a.errorCount + b.errorCount := by
  simp only [errorCount, merge]
  omega

end Stats
end Questionnaire
