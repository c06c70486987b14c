import Questionnaire.Proofs.Text.Digits
import Questionnaire.Run.Config

/-!
Settings from variables. Each setting has a variable of its own: the text of the variable is read,
and a text that cannot be read, like a variable that is missing, leaves the standard value
(`Config.SetBy`). Directories are taken as they are, a count is a numeral below 2^64, and a switch is
one of two words. The settings that come of it are normalized (`Config.ofVariables_settings`).
-/
namespace Questionnaire.Config

/-- One or more decimal digits, with a plus sign before them or not, and the number they write.
Zeros may come first. -/
def Numeral (text : String) (n : Nat) : Prop :=
  ∃ digits, (text.toList = digits ∨ text.toList = '+' :: digits) ∧ digits ≠ [] ∧
    (∀ c ∈ digits, c.isDigit) ∧ Nat.ofDigitChars 10 digits 0 = n

/-- A text without the plus sign at its start. -/
def unsigned : List Char → List Char
  | '+' :: cs => cs
  | cs => cs

theorem unsigned_digits {digits : List Char} (all : ∀ c ∈ digits, c.isDigit) :
    unsigned digits = digits := by
  fun_cases unsigned digits with
  | case1 cs => exact absurd (all '+' List.mem_cons_self) (by decide)
  | case2 => rfl

theorem eq_or_eq_unsigned (cs : List Char) : cs = unsigned cs ∨ cs = '+' :: unsigned cs := by
  fun_cases unsigned cs with
  | case1 cs => exact Or.inr rfl
  | case2 => exact Or.inl rfl

theorem numeral_iff {text : String} {n : Nat} :
    Numeral text n ↔ natOfDigits? 10 (unsigned text.toList) = some n := by
  rw [natOfDigits?_eq_some]
  constructor
  · rintro ⟨digits, spelled, nonempty, all, value⟩
    have same : unsigned text.toList = digits := by
      rcases spelled with plain | signed
      · rw [plain, unsigned_digits all]
      · rw [signed]
        rfl
    rw [same]
    exact ⟨nonempty, all, value⟩
  · rintro ⟨nonempty, all, value⟩
    exact ⟨_, eq_or_eq_unsigned text.toList, nonempty, all, value⟩

theorem Numeral.unique {text : String} {m n : Nat} (hm : Numeral text m) (hn : Numeral text n) :
    m = n :=
  Option.some.inj ((numeral_iff.mp hm).symm.trans (numeral_iff.mp hn))

theorem count?_eq_some {text : String} {n : Nat} :
    count? text = some n ↔ Numeral text n ∧ n < Nat.pow 2 64 := by
  have counted : count? text = (natOfDigits? 10 (unsigned text.toList)).filter (· ≤ maxCount) := rfl
  have bound : Nat.pow 2 64 = maxCount + 1 := by decide
  rw [counted, Option.filter_eq_some_iff, ← numeral_iff, decide_eq_true_eq, bound, Nat.lt_succ_iff]

theorem switch?_eq_some {text : String} {b : Bool} :
    switch? text = some b ↔ text = toString b := by
  by_cases on : text = "true"
  · subst on
    cases b <;> decide
  · by_cases off : text = "false"
    · subst off
      cases b <;> decide
    · have unread : switch? text = none := by simp [switch?, on, off]
      cases b with
      | true => exact iff_of_false (by simp [unread]) on
      | false => exact iff_of_false (by simp [unread]) off

/-- The value that a variable gives to a setting: what its text is read as, or else the standard
value. -/
inductive Gives {α : Type} (lookup : String → Option String) (name : String)
    (Reads : String → α → Prop) (standard : α) : α → Prop
  | read {text : String} {value : α} : lookup name = some text → Reads text value →
      Gives lookup name Reads standard value
  | standard : (∀ text, lookup name = some text → ∀ value, ¬ Reads text value) →
      Gives lookup name Reads standard standard

theorem gives_getD {α : Type} {Reads : String → α → Prop} {read : String → Option α}
    (reads : ∀ text value, read text = some value ↔ Reads text value)
    (lookup : String → Option String) (name : String) (standard : α) :
    Gives lookup name Reads standard (((lookup name).bind read).getD standard) := by
  cases found : (lookup name).bind read with
  | some value =>
    obtain ⟨text, given, readable⟩ := Option.bind_eq_some_iff.mp found
    exact .read given ((reads text value).mp readable)
  | none =>
    refine .standard fun text given value readable => ?_
    rw [given, Option.bind_some, (reads text value).mpr readable] at found
    cases found

theorem gives_text (lookup : String → Option String) (name standard : String) :
    Gives lookup name Eq standard ((lookup name).getD standard) := by
  have given : Gives lookup name Eq standard (((lookup name).bind some).getD standard) :=
    gives_getD (fun _ _ => Option.some_inj) ..
  rwa [Option.bind_fun_some] at given

/-- Settings as variables give them. -/
structure SetBy (lookup : String → Option String) (c : Config) : Prop where
  inputRoot : Gives lookup "INPUT_ROOT" Eq "service" c.inputRoot
  outputRoot : Gives lookup "OUTPUT_ROOT" Eq "g6" c.outputRoot
  /-- At least one, whatever the count that is given. -/
  maxConcurrentFiles : ∃ n, c.maxConcurrentFiles = max n 1 ∧
    Gives lookup "MAX_CONCURRENT_FILES" (fun text n => Numeral text n ∧ n < Nat.pow 2 64) 100 n
  verboseLogging : Gives lookup "VERBOSE_LOGGING" (fun text b => text = toString b) false
    c.verboseLogging
  strictExit : Gives lookup "STRICT_EXIT" (fun text b => text = toString b) false c.strictExit

theorem setBy_ofVariables (lookup : String → Option String) :
    SetBy lookup (ofVariables lookup) where
  inputRoot := gives_text ..
  outputRoot := gives_text ..
  maxConcurrentFiles := ⟨_, rfl, gives_getD (fun _ _ => count?_eq_some) ..⟩
  verboseLogging := gives_getD (fun _ _ => switch?_eq_some) ..
  strictExit := gives_getD (fun _ _ => switch?_eq_some) ..

/-- A count that does not fit 64 bits is not read. -/
theorem SetBy.standard_of_large {lookup : String → Option String} {c : Config}
    (set : SetBy lookup c)
    {text : String} {n : Nat} (given : lookup "MAX_CONCURRENT_FILES" = some text)
    (numeral : Numeral text n) (large : Nat.pow 2 64 ≤ n) : c.maxConcurrentFiles = 100 := by
  obtain ⟨m, count, gives⟩ := set.maxConcurrentFiles
  rw [count]
  cases gives with
  | standard _ => rfl
  | read read counted =>
    obtain rfl := Option.some.inj (given.symm.trans read)
    have same := numeral.unique counted.1
    omega

/-- Each setting comes from its own variable, whatever the others are, and the settings together are
normalized. -/
theorem ofVariables_settings (lookup : String → Option String) :
    SetBy lookup (ofVariables lookup) ∧
    (∀ other, (other "INPUT_ROOT" = lookup "INPUT_ROOT" →
        (ofVariables other).inputRoot = (ofVariables lookup).inputRoot) ∧
      (other "OUTPUT_ROOT" = lookup "OUTPUT_ROOT" →
        (ofVariables other).outputRoot = (ofVariables lookup).outputRoot) ∧
      (other "MAX_CONCURRENT_FILES" = lookup "MAX_CONCURRENT_FILES" →
        (ofVariables other).maxConcurrentFiles = (ofVariables lookup).maxConcurrentFiles) ∧
      (other "VERBOSE_LOGGING" = lookup "VERBOSE_LOGGING" →
        (ofVariables other).verboseLogging = (ofVariables lookup).verboseLogging) ∧
      (other "STRICT_EXIT" = lookup "STRICT_EXIT" →
        (ofVariables other).strictExit = (ofVariables lookup).strictExit)) ∧
    (∀ text n, lookup "MAX_CONCURRENT_FILES" = some text → Numeral text n → Nat.pow 2 64 ≤ n →
      (ofVariables lookup).maxConcurrentFiles = 100) ∧
    1 ≤ (ofVariables lookup).maxConcurrentFiles ∧
    (ofVariables lookup).normalized = ofVariables lookup := by
  have set := setBy_ofVariables lookup
  refine ⟨set, fun other => ?_, fun _ _ => set.standard_of_large, one_le_normalized _,
    normalized_normalized _⟩
  refine ⟨?_, ?_, ?_, ?_, ?_⟩ <;>
    · intro same
      simp only [ofVariables, normalized, same]

private def zerosBefore (digits : String) (name : String) : Option String :=
  List.lookup name [("INPUT_ROOT", ""), ("MAX_CONCURRENT_FILES", "+000" ++ digits),
    ("VERBOSE_LOGGING", "true"), ("STRICT_EXIT", "True")]

/-- The largest count that is read, and the next one. -/
theorem ofVariables_settings_largest :
    let largest : Config := ⟨"", "g6", Nat.pow 2 64 - 1, true, false⟩
    let next : Config := ⟨"", "g6", 100, true, false⟩
    SetBy (zerosBefore "18446744073709551615") largest ∧
      Numeral "+00018446744073709551616" (Nat.pow 2 64) ∧
      SetBy (zerosBefore "18446744073709551616") next := by
  intro largest next
  have first : ofVariables (zerosBefore "18446744073709551615") = largest := by decide +kernel
  have second : ofVariables (zerosBefore "18446744073709551616") = next := by decide +kernel
  refine ⟨first ▸ (ofVariables_settings _).1, ?_, second ▸ (ofVariables_settings _).1⟩
  exact numeral_iff.mpr (by decide +kernel)

end Questionnaire.Config
