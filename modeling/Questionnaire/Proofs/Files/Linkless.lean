import Questionnaire.Proofs.Files.Output
import Questionnaire.Proofs.Files.Walk

/-!
Directories without links. What is found below such a directory, and what is read there, depends on
its own entries alone: in two trees in which a path leads to the same entries a walk finds the same
files (`walk_linkless`), and they have the same texts (`readText_linkless`).
-/
namespace Questionnaire.Files

/-- No names lead to a link. -/
def Entry.Linkless (e : Entry) : Prop := ∀ names target, e.at? names ≠ some (.link target)

theorem Entry.Linkless.child {es : Entries} (linkless : (Entry.dir es).Linkless)
    (distinct : (es.map Prod.fst).Nodup) {n : String} {e : Entry} (there : (n, e) ∈ es) :
    e.Linkless := by
  intro names target led
  apply linkless (n :: names) target
  rw [at?, (child?_eq_some distinct).mpr there]
  exact led

theorem Entry.Linkless.at? {e d : Entry} (linkless : e.Linkless) {names : List String}
    (led : e.at? names = some d) : d.Linkless := by
  intro more target onward
  apply linkless (names ++ more) target
  rw [at?_append, led]
  exact onward

theorem Entry.linkless_file (content : ByteArray) : (Entry.file content).Linkless := by
  intro names target led
  cases names <;> cases led

theorem Entry.linkless_nil : (Entry.dir []).Linkless := by
  intro names target led
  cases names <;> cases led

theorem Entry.Linkless.cons {n : String} {e : Entry} {es : Entries} (first : e.Linkless)
    (rest : (Entry.dir es).Linkless) : (Entry.dir ((n, e) :: es)).Linkless := by
  intro names target led
  cases names with
  | nil => cases led
  | cons m names =>
    by_cases here : n = m
    · apply first names target
      simpa [Entry.at?, child?, here] using led
    · apply rest (m :: names) target
      simpa [Entry.at?, child?, here] using led

theorem walkEntries_eq_flatMap (t : Tree) (path : String) (es : Entries) :
    walkEntries t path es = es.flatMap fun e => e.2.walk t (joinPath path e.1) := by
  induction es with
  | nil => rfl
  | cons e es ih => rw [walkEntries, ih, List.flatMap_cons]

theorem Entry.walk_linkless {e : Entry} (proper : e.Proper) (linkless : e.Linkless) (t s : Tree)
    (path : String) : e.walk s path = e.walk t path := by
  induction proper generalizing path with
  | file content => rfl
  | link target => exact absurd rfl (linkless [] target)
  | @dir es distinct _ _ ih =>
    rw [walk, walk, walkEntries_eq_flatMap, walkEntries_eq_flatMap]
    exact List.flatMap_congr fun e he => ih e he (linkless.child distinct he) _

namespace Tree
variable {t s : Tree} {root : String} {place : List String} {es : Entries}

theorem walk_eq_ok (leads : t.locate root = .ok (.entry place (.dir es))) :
    t.walk root = .ok (walkEntries t root es) := by
  rw [walk, readDir, entry, leads]
  rfl

theorem walk_linkless (proper : (Entry.dir es).Proper) (linkless : (Entry.dir es).Linkless)
    (leads : t.locate root = .ok (.entry place (.dir es)))
    (also : s.locate root = .ok (.entry place (.dir es))) : s.walk root = t.walk root := by
  rw [walk_eq_ok leads, walk_eq_ok also]
  exact congrArg Except.ok (Entry.walk_linkless proper linkless t s root)

theorem readText_linkless (proper : (Entry.dir es).Proper) (linkless : (Entry.dir es).Linkless)
    (leads : t.locate root = .ok (.entry place (.dir es)))
    (also : s.locate root = .ok (.entry place (.dir es))) {files : List String}
    (walked : t.walk root = .ok files) {path : String} (found : path ∈ files) :
    s.readText path = t.readText path := by
  rw [walk_eq_ok leads] at walked
  obtain rfl := Except.ok.inj walked
  rw [walkEntries_eq] at found
  obtain ⟨names, hnames, rfl⟩ := List.mem_map.mp found
  have way : names ∈ (Entry.dir es).ways t root := hnames
  obtain ⟨d, led, counts⟩ := (Entry.mem_ways proper).mp way
  have unlinked : ∀ target, d ≠ .link target := by
    rintro target rfl
    exact linkless names target led
  have legal := proper.legal led
  rw [readText, readText, entry, entry, locate_names leads legal led unlinked,
    locate_names also legal led unlinked]

theorem unlinked_of_linkless
    (linkless : ∀ place es, t.locate (rootPath root) = .ok (.entry place (.dir es)) →
      (Entry.dir es).Linkless) : t.Unlinked root := by
  intro place leads name target there
  obtain ⟨es, led⟩ := outputPlace?_eq_some.mp leads
  rw [node?, Entry.node?, Entry.at?_append, at?_of_locate led] at there
  obtain ⟨e, child, isLink⟩ := Option.map_eq_some_iff.mp there
  cases e with
  | link other => exact linkless place es led [name] other child
  | file content => cases isLink
  | dir ds => cases isLink

end Tree
end Questionnaire.Files
