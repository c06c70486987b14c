import Questionnaire.Text.Digits

/-!
The settings of a run, from variables by name. Settings are normalized once; doing so again changes
nothing (`normalized_normalized`).
-/
namespace Questionnaire

structure Config where
  inputRoot : String := "service"
  outputRoot : String := "g6"
  maxConcurrentFiles : Nat := 100
  verboseLogging : Bool := false
  strictExit : Bool := false
  deriving DecidableEq, Repr

namespace Config

/-- Counts fit 64 bits. -/
def maxCount : Nat := 0xFFFFFFFFFFFFFFFF

/-- A count in decimal digits, perhaps with a plus sign. -/
def count? (text : String) : Option Nat :=
  let digits := match text.toList with
    | '+' :: cs => cs
    | cs => cs
  (natOfDigits? 10 digits).filter (· ≤ maxCount)

/-- A switch is set by `true` and unset by `false`. -/
def switch? (text : String) : Option Bool :=
  if text == "true" then some true else if text == "false" then some false else none

/-- At least one file is worked on at a time. -/
def normalized (c : Config) : Config :=
  { c with maxConcurrentFiles := max c.maxConcurrentFiles 1 }

theorem one_le_normalized (c : Config) : 1 ≤ c.normalized.maxConcurrentFiles :=
  Nat.le_max_right ..

theorem normalized_of_one_le {c : Config} (h : 1 ≤ c.maxConcurrentFiles) : c.normalized = c := by
  cases c
  simp only [normalized, Nat.max_eq_left h]

@[simp]
theorem normalized_normalized (c : Config) : c.normalized.normalized = c.normalized :=
  normalized_of_one_le c.one_le_normalized

/-- The settings that variables give; what is missing or unreadable keeps its default. -/
def ofVariables (lookup : String → Option String) : Config :=
  let standard : Config := {}
  normalized
    { inputRoot := (lookup "INPUT_ROOT").getD standard.inputRoot
      outputRoot := (lookup "OUTPUT_ROOT").getD standard.outputRoot
      maxConcurrentFiles :=
        ((lookup "MAX_CONCURRENT_FILES").bind count?).getD standard.maxConcurrentFiles
      verboseLogging := ((lookup "VERBOSE_LOGGING").bind switch?).getD standard.verboseLogging
      strictExit := ((lookup "STRICT_EXIT").bind switch?).getD standard.strictExit }

end Config
end Questionnaire
