import Questionnaire.Proofs.Files.Overwrite
import Questionnaire.Proofs.Files.Twin
import Questionnaire.Proofs.Run.Confinement

/-!
The attempts to write records. How one ends is up to the record, the directory and the links below
the root; it does not matter which files have been written before (`attempt_twin`). So in a list of
records each write ends as it would alone (`attemptAll_alone`), a write that fails can be taken out
of any list (`attemptAll_without`), and the same list once more changes nothing
(`attemptAll_again`).
-/
namespace Questionnaire.Record
open Files
open Files.Tree (Twin)

/-- The end of an attempt where the root leads somewhere. -/
def verdictAt (t : Tree) (root : String) (place : List String) (r : Record) :
    Except Error String × Tree :=
  match Yaml.Mapping.write r.fields with
  | .error e => (.error (.serialize r.filename e), t)
  | .ok text =>
    match t.refusal? place r.filename with
    | some e => (.error (.write (joinPath root r.filename) e), t)
    | none => (.ok (joinPath root r.filename), t.put (place ++ [r.filename]) (.file text.toUTF8))

section One
variable {t s : Tree} {root : String} {place : List String} {r : Record}

theorem attempt_leads (unlinked : t.Unlinked root) (hname : IsName r.filename)
    (leads : t.outputPlace? root = some place) : r.attempt root t = verdictAt t root place r := by
  rw [verdictAt]
  cases written : Yaml.Mapping.write r.fields with
  | error e => exact attempt_unwritten written
  | ok text =>
    rw [attempt_written written, Tree.writeText_leads (unlinked place leads r.filename) hname leads]
    cases t.refusal? place r.filename <;> rfl

/-- Nothing is written below a root that leads nowhere. -/
theorem attempt_idle (hname : IsName r.filename) (idle : t.outputPlace? root = none) :
    (r.attempt root t).2 = t := by
  have unfit : r.fits t root = false := by
    rw [fits, Tree.accepts, idle, Bool.and_false]
  obtain ⟨e, failed⟩ := attempt_of_not_fits hname unfit
  rw [failed]

theorem twin_attempt (unlinked : t.Unlinked root) (hname : IsName r.filename) :
    Twin root t (r.attempt root t).2 := by
  cases leads : t.outputPlace? root with
  | none =>
    rw [attempt_idle hname leads]
    exact .refl
  | some place =>
    rw [attempt_leads unlinked hname leads, verdictAt]
    split
    · exact .refl
    · split
      · exact .refl
      · rename_i accepted
        exact .put unlinked leads accepted _

/-- An attempt ends alike in trees that differ in their files. -/
theorem attempt_twin (twin : Twin root t s) (unlinked : t.Unlinked root)
    (hname : IsName r.filename) : (r.attempt root s).1 = (r.attempt root t).1 := by
  cases leads : t.outputPlace? root with
  | none => rw [twin.idle leads]
  | some place =>
    rw [attempt_leads unlinked hname leads, attempt_leads (twin.unlinked unlinked) hname
      (twin.outputPlace?.trans leads), verdictAt, verdictAt, Tree.refusal?_sameFrame twin.frame]
    cases Yaml.Mapping.write r.fields with
    | error e => rfl
    | ok text => cases t.refusal? place r.filename <;> rfl

theorem attempt_of_error {e : Error} (failed : (r.attempt root t).1 = .error e) :
    r.attempt root t = (.error e, t) := by
  rw [attempt] at failed ⊢
  split
  · rename_i path after saved
    rw [saved] at failed
    cases failed
  · rename_i e' refused
    rw [refused] at failed
    rw [Except.error.inj failed]

end One

section All
variable {t s : Tree} {root : String} {rs : List Record}

theorem twin_attemptAll (unlinked : t.Unlinked root) (names : ∀ r ∈ rs, IsName r.filename) :
    Twin root t (attemptAll root t rs).2 := by
  induction rs generalizing t with
  | nil => exact .refl
  | cons r rs ih =>
    have first := twin_attempt unlinked (names r List.mem_cons_self)
    exact first.trans (ih (first.unlinked unlinked) fun s hs => names s (List.mem_cons_of_mem _ hs))

/-- Each write ends as it would alone, whatever is written before it. -/
theorem attemptAll_alone (unlinked : t.Unlinked root) (names : ∀ r ∈ rs, IsName r.filename) :
    (attemptAll root t rs).1 = rs.map fun r => (r.attempt root t).1 := by
  induction rs generalizing t with
  | nil => rfl
  | cons r rs ih =>
    have first := twin_attempt unlinked (names r List.mem_cons_self)
    have others : ∀ s ∈ rs, IsName s.filename := fun s hs => names s (List.mem_cons_of_mem _ hs)
    have rest := ih (first.unlinked unlinked) others
    have same : rs.map (fun s => (s.attempt root (r.attempt root t).2).1) =
        rs.map fun s => (s.attempt root t).1 :=
      List.map_congr_left fun s hs => attempt_twin first unlinked (others s hs)
    simp only [attemptAll, List.map_cons, rest, same]

theorem attemptAll_twin (twin : Twin root t s) (unlinked : t.Unlinked root)
    (names : ∀ r ∈ rs, IsName r.filename) :
    (attemptAll root s rs).1 = (attemptAll root t rs).1 := by
  rw [attemptAll_alone unlinked names, attemptAll_alone (twin.unlinked unlinked) names]
  exact List.map_congr_left fun r hr => attempt_twin twin unlinked (names r hr)

/-- A write that fails at its turn is of no consequence for those before and behind it. -/
theorem attemptAll_without {before after : List Record} {r : Record} {e : Error}
    (failed : (r.attempt root (attemptAll root t before).2).1 = .error e) :
    let early := attemptAll root t before
    let late := attemptAll root early.2 after
    attemptAll root t (before ++ r :: after) = (early.1 ++ .error e :: late.1, late.2) ∧
      attemptAll root t (before ++ after) = (early.1 ++ late.1, late.2) := by
  intro early late
  constructor
  · rw [attemptAll_append, attemptAll, attempt_of_error failed]
  · exact attemptAll_append root t before after

/-- What a record puts into the directory of a root, if it can be written there. -/
def delivery? (t : Tree) (place : List String) (r : Record) : Option (String × Entry) :=
  match Yaml.Mapping.write r.fields, t.refusal? place r.filename with
  | .ok text, none => some (r.filename, .file text.toUTF8)
  | _, _ => none

theorem delivery?_twin (twin : Twin root t s) (place : List String) :
    delivery? s place = delivery? t place := by
  funext r
  rw [delivery?, delivery?, Tree.refusal?_sameFrame twin.frame]

theorem verdictAt_tree (t : Tree) (root : String) (place : List String) (r : Record) :
    (verdictAt t root place r).2 = t.putAll place (delivery? t place r).toList := by
  rw [verdictAt, delivery?]
  cases Yaml.Mapping.write r.fields with
  | error e => rfl
  | ok text => cases t.refusal? place r.filename <;> rfl

theorem attemptAll_eq_putAll {place : List String} (unlinked : t.Unlinked root)
    (leads : t.outputPlace? root = some place) (names : ∀ r ∈ rs, IsName r.filename) :
    (attemptAll root t rs).2 = t.putAll place (rs.filterMap (delivery? t place)) := by
  induction rs generalizing t with
  | nil => rfl
  | cons r rs ih =>
    have hname := names r List.mem_cons_self
    have first := twin_attempt unlinked hname
    have rest := ih (first.unlinked unlinked) (first.outputPlace?.trans leads)
      fun s hs => names s (List.mem_cons_of_mem _ hs)
    have same := delivery?_twin first place
    rw [same, attempt_leads unlinked hname leads, verdictAt_tree] at rest
    have both : (attemptAll root t (r :: rs)).2 = (attemptAll root (r.attempt root t).2 rs).2 := rfl
    rw [both, attempt_leads unlinked hname leads, verdictAt_tree, rest]
    cases made : delivery? t place r with
    | none => rw [List.filterMap_cons_none made]; rfl
    | some w => rw [List.filterMap_cons_some made]; rfl

/-- The same records written once more leave all files as they are. -/
theorem attemptAll_again (unlinked : t.Unlinked root) (names : ∀ r ∈ rs, IsName r.filename) :
    (attemptAll root (attemptAll root t rs).2 rs).2 = (attemptAll root t rs).2 := by
  have twin := twin_attemptAll unlinked names
  cases leads : t.outputPlace? root with
  | none => rw [twin.idle leads, twin.idle leads]
  | some place =>
    have same := delivery?_twin twin place
    rw [attemptAll_eq_putAll (twin.unlinked unlinked) (twin.outputPlace?.trans leads) names, same,
      attemptAll_eq_putAll unlinked leads names, Tree.putAll_putAll]

end All
end Questionnaire.Record
