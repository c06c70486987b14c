import Questionnaire.Record
import Questionnaire.Proofs.Except
import Questionnaire.Proofs.Files.Name
import Questionnaire.Proofs.Yaml.Equality
import Questionnaire.Proofs.Yaml.Mapping

/-!
What `ofQuestion` makes of a question. There is a record exactly when the metadata is a mapping
with a key that can name a file; its fields are those of the metadata without the key and with the
text of the question, and its filename stands for one step of a path.
-/
namespace Questionnaire
open Files Yaml

deriving instance DecidableEq for Record

namespace Record
variable {page : String} {q : Question} {r : Record}

theorem ofQuestion_eq_ok :
    ofQuestion page q = .ok r ↔ ∃ fields key stem, q.metadata = .map fields ∧
      Mapping.find? keyField fields = some key ∧ stemOf key = .ok stem ∧
      r = ⟨stem ++ fileExtension,
        Mapping.insert questionField (.str q.text) (Mapping.erase keyField fields)⟩ := by
  constructor
  · intro h
    rw [ofQuestion] at h
    split at h
    · rename_i fields metadata
      split at h
      · cases h
      · rename_i key found
        obtain ⟨stem, hstem, h⟩ := bind_eq_ok.mp h
        cases h
        exact ⟨fields, key, stem, metadata, found, mapError_eq_ok.mp hstem, rfl⟩
    · cases h
  · rintro ⟨fields, key, stem, metadata, found, hstem, rfl⟩
    simp only [ofQuestion, metadata, found]
    exact bind_eq_ok.mpr ⟨stem, mapError_eq_ok.mpr hstem, rfl⟩

theorem ofQuestion_eq_missingKey :
    ofQuestion page q = .error (.missingKey page q.text) ↔
      ∃ fields : Mapping, q.metadata = .map fields ∧ Mapping.find? keyField fields = none := by
  constructor
  · intro h
    rw [ofQuestion] at h
    split at h
    · rename_i fields metadata
      split at h
      · rename_i absent
        exact ⟨fields, metadata, absent⟩
      · rename_i key _
        cases hstem : stemOf key <;> rw [hstem] at h <;> cases h
    · cases h
  · rintro ⟨fields, metadata, absent⟩
    simp only [ofQuestion, metadata, absent]

/-- The names of the fields of a record: those of the metadata but the key, and the one for the text
behind them if it is new. -/
theorem keys_record {fields : Mapping}
    (once : fields.Pairwise fun e f => e.1 = keyField → f.1 ≠ keyField) (text : Value) :
    (Mapping.insert questionField text (Mapping.erase keyField fields)).map Prod.fst =
      (fields.map Prod.fst).filter (!keyField.same ·) ++
        if Mapping.contains questionField fields then [] else [questionField] := by
  have erased : (Mapping.erase keyField fields).map Prod.fst =
      (fields.map Prod.fst).filter (!keyField.same ·) := Mapping.keys_erase_str once
  have present : Mapping.contains questionField (Mapping.erase keyField fields) =
      Mapping.contains questionField fields := Mapping.contains_erase_str (by decide) fields
  rw [← erased, ← present]
  exact Mapping.keys_insert_str text _

theorem isStem_iff {stem : String} : isStem stem ↔
    stem ≠ "" ∧ stem ≠ "." ∧ stem ≠ ".." ∧ '/' ∉ stem.toList ∧ '\\' ∉ stem.toList := by
  have separators : (∀ c ∈ stem.toList, c ≠ '/' ∧ c ≠ '\\') ↔
      '/' ∉ stem.toList ∧ '\\' ∉ stem.toList := by
    constructor
    · exact fun none => ⟨fun slash => (none _ slash).1 rfl, fun back => (none _ back).2 rfl⟩
    · rintro ⟨slash, back⟩ c hc
      exact ⟨fun eq => slash (eq ▸ hc), fun eq => back (eq ▸ hc)⟩
  simp [isStem, ← separators, and_assoc]

theorem stemOf_eq_ok {key : Value} {stem : String} :
    stemOf key = .ok stem ↔ key.scalarText? = some stem ∧ isStem stem := by
  constructor
  · intro h
    rw [stemOf] at h
    split at h
    · cases h
    · rename_i text found
      split at h
      · cases h
      · split at h
        · rename_i fits
          cases h
          exact ⟨found, fits⟩
        · cases h
  · rintro ⟨text, fits⟩
    have filled : stem.isEmpty = false := by simpa using (isStem_iff.mp fits).1
    simp only [stemOf, text, filled, fits, if_true]
    rfl

theorem isName_stem {stem : String} (h : isStem stem) : IsName (stem ++ fileExtension) := by
  obtain ⟨_, _, _, noSlash, _⟩ := isStem_iff.mp h
  have longer : ∀ t : String, t.length < 4 → stem ++ fileExtension ≠ t := by
    rintro t short rfl
    rw [String.length_append] at short
    have extension : fileExtension.length = 4 := rfl
    omega
  refine ⟨longer _ (by decide), longer _ (by decide), longer _ (by decide), ?_⟩
  intro slash
  rw [String.toList_append, List.mem_append] at slash
  rcases slash with hs | hs
  · exact noSlash hs
  · exact absurd hs (by decide)

theorem isName_ofQuestion (h : ofQuestion page q = .ok r) : IsName r.filename := by
  obtain ⟨_, _, stem, _, _, hstem, rfl⟩ := ofQuestion_eq_ok.mp h
  exact isName_stem (stemOf_eq_ok.mp hstem).2

end Record
end Questionnaire
