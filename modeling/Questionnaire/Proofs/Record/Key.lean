import Questionnaire.Proofs.Decimal.Text
import Questionnaire.Proofs.Record

/-!
Which questions have a record. A question is turned away because its metadata is no mapping, because
there is no key, or because of what the key is (`Refused`); in all other cases the text of the key
names the file (`ofQuestion_verdict`). The texts of numbers are fit for that, as their characters are
no separators and not all of them are points (`isStem_number`).
-/
namespace Questionnaire.Record
open Yaml
variable {page : String} {q : Question} {key : Value}

/-- Which values of a key field give no file name, and why. -/
inductive Refused : Value → KeyProblem → Prop
  | null : Refused .null .notScalar
  | seq (items : List Value) : Refused (.seq items) .notScalar
  | map (entries : Mapping) : Refused (.map entries) .notScalar
  | tagged (tag : Tag) (value : Value) : Refused (.tagged tag value) .notScalar
  | empty : Refused (.str "") .empty
  | here : Refused (.str ".") (.notFileName ".")
  | up : Refused (.str "..") (.notFileName "..")
  | separator {text : String} : '/' ∈ text.toList ∨ '\\' ∈ text.toList →
      Refused (.str text) (.notFileName text)

/-- The text of a number can be a file name. -/
theorem isStem_number (n : Number) : isStem n.text := by
  have other (t : String) (k : Nat) (points : t.toList = List.replicate k '.') : n.text ≠ t := by
    rintro rfl
    exact n.hasMark_text.ne_points k points
  have none (c : Char) (h : isNumeric c = false) : c ∉ n.text.toList := by
    intro hc
    rw [n.numeric_text c hc] at h
    cases h
  exact isStem_iff.mpr ⟨other "" 0 rfl, other "." 1 rfl, other ".." 2 rfl, none '/' (by decide),
    none '\\' (by decide)⟩

theorem stemOf_number (n : Number) : stemOf (.num n) = .ok n.text :=
  stemOf_eq_ok.mpr ⟨rfl, isStem_number n⟩

theorem stemOf_bool (b : Bool) : stemOf (.bool b) = .ok (toString b) := by
  cases b <;> rfl

theorem refused_str {text : String} {problem : KeyProblem} : Refused (.str text) problem ↔
    text = "" ∧ problem = .empty ∨ text ≠ "" ∧ ¬ isStem text ∧ problem = .notFileName text := by
  constructor
  · intro refused
    cases refused with
    | empty => exact Or.inl ⟨rfl, rfl⟩
    | here => exact Or.inr ⟨by decide, by decide, rfl⟩
    | up => exact Or.inr ⟨by decide, by decide, rfl⟩
    | separator found =>
      refine Or.inr ⟨?_, fun fits => ?_, rfl⟩
      · rintro rfl
        rcases found with h | h <;> cases h
      · obtain ⟨_, _, _, slash, back⟩ := isStem_iff.mp fits
        exact found.elim slash back
  · rintro (⟨rfl, rfl⟩ | ⟨filled, unfit, rfl⟩)
    · exact .empty
    · by_cases here : text = "."
      · exact here ▸ .here
      · by_cases up : text = ".."
        · exact up ▸ .up
        · refine .separator (Classical.byContradiction fun none => unfit ?_)
          rw [not_or] at none
          exact isStem_iff.mpr ⟨filled, here, up, none⟩

theorem stemOf_eq_error {problem : KeyProblem} :
    stemOf key = .error problem ↔ Refused key problem := by
  have unnamed {value : Value} (refused : Refused value .notScalar)
      (only : ∀ problem, Refused value problem → problem = .notScalar)
      (fails : stemOf value = .error .notScalar) :
      stemOf value = .error problem ↔ Refused value problem := by
    rw [fails, Except.error.injEq]
    exact ⟨fun eq => eq ▸ refused, fun h => (only problem h).symm⟩
  have named {value : Value} {stem : String} (never : ∀ problem, ¬ Refused value problem)
      (made : stemOf value = .ok stem) : stemOf value = .error problem ↔ Refused value problem := by
    rw [made]
    exact ⟨fun eq => (by cases eq), fun h => absurd h (never problem)⟩
  cases key with
  | null => exact unnamed .null (fun _ h => by cases h; rfl) rfl
  | bool b => exact named (fun _ h => by cases h) (stemOf_bool b)
  | num n => exact named (fun _ h => by cases h) (stemOf_number n)
  | seq items => exact unnamed (.seq items) (fun _ h => by cases h; rfl) rfl
  | map entries => exact unnamed (.map entries) (fun _ h => by cases h; rfl) rfl
  | tagged tag value => exact unnamed (.tagged tag value) (fun _ h => by cases h; rfl) rfl
  | str text =>
    have step : stemOf (.str text) = if text.isEmpty then .error .empty
        else if isStem text then .ok text else .error (.notFileName text) := rfl
    rw [refused_str, step]
    by_cases empty : text = ""
    · rw [if_pos (by simpa using empty), Except.error.injEq]
      simp only [empty, ne_eq, not_true_eq_false, false_and, or_false, true_and, eq_comm]
    · rw [if_neg (by simpa using empty)]
      by_cases fits : isStem text
      · simp [fits, empty]
      · simp only [fits, empty, if_false, Except.error.injEq, ne_eq, not_false_eq_true, true_and,
          false_and, false_or, Bool.false_eq_true, eq_comm]

/-- What is made of metadata that is a mapping hangs on its key. -/
theorem ofQuestion_map {fields : Mapping} (metadata : q.metadata = .map fields) :
    ofQuestion page q = match Mapping.find? keyField fields with
      | none => .error (.missingKey page q.text)
      | some key => match stemOf key with
        | .error problem => .error (.invalidKey page q.text problem)
        | .ok stem => .ok ⟨stem ++ fileExtension,
            Mapping.insert questionField (.str q.text) (Mapping.erase keyField fields)⟩ := by
  simp only [ofQuestion, metadata]
  cases Mapping.find? keyField fields with
  | none => rfl
  | some key => simp only; cases stemOf key <;> rfl

theorem ofQuestion_eq_invalidRecord :
    ofQuestion page q = .error (.invalidRecord page q.text) ↔
      ∀ fields, q.metadata ≠ .map fields := by
  constructor
  · intro h fields metadata
    rw [ofQuestion_map metadata] at h
    split at h
    · cases h
    · split at h <;> cases h
  · intro other
    rw [ofQuestion]
    split
    · rename_i fields metadata
      exact absurd metadata (other fields)
    · rfl

theorem ofQuestion_eq_invalidKey {problem : KeyProblem} :
    ofQuestion page q = .error (.invalidKey page q.text problem) ↔
      ∃ fields key, q.metadata = .map fields ∧ Mapping.find? keyField fields = some key ∧
        Refused key problem := by
  constructor
  · intro h
    by_cases mapping : ∃ fields, q.metadata = .map fields
    · obtain ⟨fields, metadata⟩ := mapping
      rw [ofQuestion_map metadata] at h
      split at h
      · cases h
      · rename_i key found
        split at h
        · rename_i hstem
          cases h
          exact ⟨fields, key, metadata, found, stemOf_eq_error.mp hstem⟩
        · cases h
    · rw [ofQuestion_eq_invalidRecord.mpr (not_exists.mp mapping)] at h
      cases h
  · rintro ⟨fields, key, metadata, found, refused⟩
    rw [ofQuestion_map metadata, found]
    simp only [stemOf_eq_error.mpr refused]

theorem ofQuestion_of_stem (page : String) {fields : Mapping} {stem : String}
    (metadata : q.metadata = .map fields) (found : Mapping.find? keyField fields = some key)
    (hstem : stemOf key = .ok stem) :
    ∃ record, ofQuestion page q = .ok ⟨stem ++ ".yml", record⟩ :=
  ⟨_, ofQuestion_eq_ok.mpr ⟨fields, key, stem, metadata, found, hstem, rfl⟩⟩

/-- A question has a record, or there is one reason for it to have none. Every number and every
Boolean is a key that names a file. -/
theorem ofQuestion_verdict (page : String) (q : Question) :
    (ofQuestion page q = .error (.invalidRecord page q.text) ↔
      ∀ fields, q.metadata ≠ .map fields) ∧
    (ofQuestion page q = .error (.missingKey page q.text) ↔
      ∃ fields, q.metadata = .map fields ∧ keyField ∉ fields.map Prod.fst) ∧
    (∀ problem, ofQuestion page q = .error (.invalidKey page q.text problem) ↔
      ∃ fields key, q.metadata = .map fields ∧ Mapping.find? keyField fields = some key ∧
        Refused key problem) ∧
    (∀ fields key, q.metadata = .map fields → Mapping.find? keyField fields = some key →
      (∀ problem, ¬ Refused key problem) → ∃ stem record, key.scalarText? = some stem ∧
        ofQuestion page q = .ok ⟨stem ++ ".yml", record⟩) ∧
    ∀ fields, q.metadata = .map fields →
      (∀ b, Mapping.find? keyField fields = some (.bool b) →
        ∃ record, ofQuestion page q = .ok ⟨toString b ++ ".yml", record⟩) ∧
      (∀ n : Number, Mapping.find? keyField fields = some (.num n) →
        (n.text ≠ "" ∧ n.text ≠ "." ∧ n.text ≠ ".." ∧ '/' ∉ n.text.toList ∧
          '\\' ∉ n.text.toList) ∧
        ∃ record, ofQuestion page q = .ok ⟨n.text ++ ".yml", record⟩) := by
  refine ⟨ofQuestion_eq_invalidRecord, ?_, fun _ => ofQuestion_eq_invalidKey, ?_, ?_⟩
  · rw [ofQuestion_eq_missingKey]
    refine exists_congr fun fields => and_congr_right fun _ => ?_
    rw [Mapping.find?_eq_none, Bool.eq_false_iff, ne_eq, keyField, Mapping.contains_str]
  · intro fields key metadata found fine
    cases hstem : stemOf key with
    | error problem => exact absurd (stemOf_eq_error.mp hstem) (fine problem)
    | ok stem =>
      obtain ⟨record, made⟩ := ofQuestion_of_stem page metadata found hstem
      exact ⟨stem, record, (stemOf_eq_ok.mp hstem).1, made⟩
  · intro fields metadata
    refine ⟨fun b found => ofQuestion_of_stem page metadata found (stemOf_bool b), fun n found => ?_⟩
    exact ⟨isStem_iff.mp (isStem_number n),
      ofQuestion_of_stem page metadata found (stemOf_number n)⟩

/-- The negative number next to zero, in exponent form. -/
theorem ofQuestion_verdict_least :
    let x : Binary64 := .finite true 1 0 (by decide)
    let fields : Mapping := [(.str "n", .null), (.str "key", .num (.float x))]
    Mapping.find? keyField fields = some (.num (.float x)) ∧
      ∃ record, ofQuestion "P" ⟨"Q", .map fields⟩ = .ok ⟨"-5e-324.yml", record⟩ := by
  intro x fields
  have found : Mapping.find? keyField fields = some (.num (.float x)) := by decide +kernel
  obtain ⟨_, _, _, _, scalars⟩ := ofQuestion_verdict "P" ⟨"Q", .map fields⟩
  obtain ⟨_, record, made⟩ := (scalars fields rfl).2 (.float x) found
  have name : (Number.float x).text ++ ".yml" = "-5e-324.yml" := by decide +kernel
  exact ⟨found, record, name ▸ made⟩

end Questionnaire.Record
