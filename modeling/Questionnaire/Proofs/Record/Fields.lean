import Questionnaire.Proofs.Record

/-!
The fields of a record. Its keys are those of the metadata without the key field, in their order, with
one for the text of the question at the end if there has been none; what stands at the other keys,
strings or not, stays, and the page has no part in it (`ofQuestion_fields`). So nothing is lost but
the key: a record with its key put back, at whatever place, makes that record again
(`ofQuestion_putBack`).
-/
namespace Questionnaire.Record
open Yaml
variable {page : String} {q : Question} {r : Record} {fields : Mapping}

/-- The fields of a record are those of the metadata but the key, in their order, and the text of the
question, which takes the place of an older one or else comes last. -/
theorem ofQuestion_fields (metadata : q.metadata = .map fields)
    (distinct : Mapping.Distinct fields) (made : ofQuestion page q = .ok r) :
    Mapping.contains keyField r.fields = false ∧
      Mapping.find? questionField r.fields = some (.str q.text) ∧
      (∀ k, k ≠ keyField → k ≠ questionField →
        Mapping.find? k r.fields = Mapping.find? k fields) ∧
      (∀ e : Value × Value, e.1 ≠ keyField → e.1 ≠ questionField →
        (e ∈ r.fields ↔ e ∈ fields)) ∧
      Mapping.Distinct r.fields ∧
      r.fields.map Prod.fst = (fields.map Prod.fst).filter (· ≠ keyField) ++
        (if Mapping.contains questionField fields then [] else [questionField]) ∧
      ∀ other, ofQuestion other q = .ok r := by
  obtain ⟨fields', key, stem, eq, found, hstem, rfl⟩ := ofQuestion_eq_ok.mp made
  obtain rfl := Value.map.inj (metadata.symm.trans eq)
  have apart : keyField ≠ questionField := by decide
  have erased : Mapping.Distinct (Mapping.erase keyField fields) :=
    distinct.sublist List.eraseP_sublist
  have names : (fields.map Prod.fst).filter (!keyField.same ·) =
      (fields.map Prod.fst).filter (· ≠ keyField) := by
    refine List.filter_congr fun k _ => ?_
    rw [Bool.eq_iff_iff, Bool.not_eq_true', Bool.eq_false_iff, ne_eq, keyField, same_str,
      decide_eq_true_iff]
  refine ⟨?_, Mapping.find?_insert_str_self .., fun k notKey notQuestion => ?_,
    fun e notKey notQuestion => ?_, erased.insert_str _, ?_, fun other => ?_⟩
  · exact (Mapping.contains_insert_str apart ..).trans (Mapping.not_contains_erase_str distinct)
  · exact (Mapping.find?_insert_str notQuestion ..).trans (Mapping.find?_erase_str notKey _)
  · exact (Mapping.mem_insert_str notQuestion).trans (Mapping.mem_erase_str notKey)
  · rw [← names]
    exact keys_record distinct.once _
  · exact ofQuestion_eq_ok.mpr ⟨fields, key, stem, metadata, found, hstem, rfl⟩

/-- Metadata with an older text of the question and keys of all kinds, some of which read like those
two but are no strings. -/
private def mixedFields : Mapping :=
  [(.null, .str "a"), (.str "question", .str "old"), (.seq [.str "key"], .bool true),
    (.str "key", .num (.int 17)), (.tagged ⟨"t"⟩ (.str "key"), .null),
    (.map [(.str "question", .null)], .seq []), (.num (.float .nan), .str "b"),
    (.bool true, .map []), (.str "n", .num (.int 1))]

theorem ofQuestion_fields_mixed :
    let q : Question := ⟨"Q", .map mixedFields⟩
    Mapping.Distinct mixedFields ∧ ∃ r, ofQuestion "P" q = .ok r ∧
      r.fields.map Prod.fst = (mixedFields.map Prod.fst).eraseIdx 3 ∧
      Mapping.find? questionField r.fields = some (.str "Q") ∧
      Mapping.find? (.tagged ⟨"t"⟩ (.str "key")) r.fields = some .null ∧
      ofQuestion "another page" q = .ok r := by
  intro q
  have distinct : Mapping.Distinct mixedFields := by
    unfold Mapping.Distinct
    decide +kernel
  have fits : ((ofQuestion "P" q).toOption).isSome := by decide +kernel
  obtain ⟨r, some⟩ := Option.isSome_iff_exists.mp fits
  have made := eq_ok_of_toOption some
  obtain ⟨_, text, others, _, _, keys, anyPage⟩ := ofQuestion_fields rfl distinct made
  refine ⟨distinct, r, made, keys.trans (by decide +kernel), text, ?_, anyPage _⟩
  exact (others _ (by decide +kernel) (by decide +kernel)).trans (by decide +kernel)

/-- With a key put in, at whatever place, fields that hold the text of the question make a record of
themselves. -/
theorem ofQuestion_keyed {before behind : Mapping} {key : Value} {stem text : String}
    (keyless : Mapping.contains keyField (before ++ behind) = false)
    (worded : Mapping.find? questionField (before ++ behind) = some (.str text))
    (hstem : stemOf key = .ok stem) (page : String) :
    ofQuestion page ⟨text, .map (before ++ (keyField, key) :: behind)⟩ =
      .ok ⟨stem ++ fileExtension, before ++ behind⟩ := by
  have found : keyField.same keyField = true := same_str.mpr rfl
  have early : Mapping.contains keyField before = false := by
    rw [Mapping.contains_append, Bool.or_eq_false_iff] at keyless
    exact keyless.1
  have others : ∀ e ∈ before, keyField.same e.1 = false := fun e he => by
    simpa using List.any_eq_false.mp early e he
  have erased : Mapping.erase keyField (before ++ (keyField, key) :: behind) = before ++ behind :=
    Mapping.erase_append (e := (keyField, key)) others found
  refine ofQuestion_eq_ok.mpr ⟨_, key, stem, rfl, ?_, hstem, ?_⟩
  · exact Mapping.find?_append_cons (e := (keyField, key)) early found
  · rw [erased, Mapping.insert_present worded]

/-- A record has no key, so it is no metadata of a question. With its key put back at any place it
makes the same file name and the same record again, for the same text on whatever page. -/
theorem ofQuestion_putBack (metadata : q.metadata = .map fields)
    (distinct : Mapping.Distinct fields) (made : ofQuestion page q = .ok r) :
    (∀ other text, ofQuestion other ⟨text, .map r.fields⟩ = .error (.missingKey other text)) ∧
      ∃ key, Mapping.find? keyField fields = some key ∧
        ∀ before behind, r.fields = before ++ behind →
          let keyed := before ++ (keyField, key) :: behind
          Mapping.Distinct keyed ∧ ∀ other, ofQuestion other ⟨q.text, .map keyed⟩ = .ok r := by
  obtain ⟨fields', key, stem, eq, found, hstem, hr⟩ := ofQuestion_eq_ok.mp made
  obtain rfl := Value.map.inj (metadata.symm.trans eq)
  have keyless : Mapping.contains keyField r.fields = false := by
    rw [hr]
    exact (Mapping.contains_insert_str (by decide) ..).trans
      (Mapping.not_contains_erase_str distinct)
  constructor
  · intro other text
    apply ofQuestion_eq_missingKey.mpr
    exact ⟨r.fields, rfl, Mapping.find?_eq_none.mpr keyless⟩
  · refine ⟨key, found, ?_⟩
    intro before behind split keyed
    have worded : Mapping.find? questionField r.fields = some (.str q.text) := by
      rw [hr]
      exact Mapping.find?_insert_str_self ..
    have erased : Mapping.Distinct (Mapping.erase keyField fields) :=
      distinct.sublist List.eraseP_sublist
    have unique : Mapping.Distinct r.fields := by
      rw [hr]
      exact erased.insert_str _
    have named : r = ⟨stem ++ fileExtension, before ++ behind⟩ := by
      rw [← split, hr]
    rw [split] at keyless worded unique
    constructor
    · exact unique.put_str keyless
    · intro other
      rw [named]
      exact ofQuestion_keyed keyless worded hstem other

/-- Metadata with an older text of the question in front of the key, and a list that reads like it. -/
theorem ofQuestion_putBack_between :
    let fields : Mapping := [(.str "n", .num (.int 1)), (.str "question", .str "old"),
      (.str "key", .num (.int 17)), (.seq [.str "key"], .bool true)]
    let keyed : Mapping := [(.str "n", .num (.int 1)), (.str "question", .str "Q"),
      (.seq [.str "key"], .bool true), (.str "key", .num (.int 17))]
    Mapping.Distinct fields ∧ ∃ r, ofQuestion "P" ⟨"Q", .map fields⟩ = .ok r ∧
      ofQuestion "P" ⟨"Q", .map r.fields⟩ = .error (.missingKey "P" "Q") ∧
      ofQuestion "another page" ⟨"Q", .map keyed⟩ = .ok r := by
  intro fields keyed
  have distinct : Mapping.Distinct fields := by
    unfold Mapping.Distinct
    decide +kernel
  let r : Record := ⟨"17.yml", keyed.take 3⟩
  have made : ofQuestion "P" ⟨"Q", .map fields⟩ = .ok r := eq_ok_of_toOption (by decide +kernel)
  obtain ⟨keyless, key, found, again⟩ := ofQuestion_putBack rfl distinct made
  have seventeen : key = .num (.int 17) := Option.some.inj (found.symm.trans (by decide +kernel))
  subst seventeen
  refine ⟨distinct, r, made, keyless "P" "Q", ?_⟩
  exact (again (keyed.take 3) [] rfl).2 "another page"

end Questionnaire.Record
