import Mathlib.Data.List.Perm.Basic
import Questionnaire.Proofs.Files.Linkless
import Questionnaire.Proofs.Files.Target

/-!
Trees whose directories are listed in other orders. The order of a listing belongs to a tree but
says nothing about what it holds: a tree with other listings holds the same node at each place
(`Tree.node?_relist`), its paths lead to the same files (`Tree.leadsToFile_relist`), and what is
found below an entry is the same in another order (`Entry.ways_relist`).
-/
namespace Questionnaire.Files

/-- An order for the listing of each directory, which is told by its place. -/
structure ListingOrder where
  list : List String → Entries → Entries
  perm : ∀ place es, (list place es).Perm es

mutual

/-- An entry, whose own place is given, with all directories listed in these orders. -/
def Entry.relist (order : ListingOrder) (place : List String) : Entry → Entry
  | .file content => .file content
  | .link target => .link target
  | .dir entries => .dir (order.list place (relistEach order place entries))

/-- The entries of a directory with the directories among and below them listed in these orders. -/
def relistEach (order : ListingOrder) (place : List String) :
    List (String × Entry) → List (String × Entry)
  | [] => []
  | (name, e) :: es => (name, Entry.relist order (place ++ [name]) e) :: relistEach order place es

end

def Tree.relist (order : ListingOrder) (t : Tree) : Tree :=
  { t with root := t.root.relist order [] }

section Entries
variable {order : ListingOrder} {place : List String}

theorem relistEach_eq_map (es : Entries) : relistEach order place es =
    es.map fun e => (e.1, e.2.relist order (place ++ [e.1])) := by
  induction es with
  | nil => rfl
  | cons e es ih => rw [relistEach, ih, List.map_cons]

@[simp]
theorem names_relistEach (es : Entries) :
    (relistEach order place es).map Prod.fst = es.map Prod.fst := by
  rw [relistEach_eq_map, List.map_map]
  rfl

namespace Entry

@[simp]
theorem node_relist (e : Entry) : (e.relist order place).node = e.node := by
  cases e <;> rfl

/-- Where names are different it does not matter in which order they are listed. -/
theorem child?_perm {es ds : Entries} (same : es.Perm ds) (distinct : (ds.map Prod.fst).Nodup)
    (name : String) : (Entry.dir es).child? name = (Entry.dir ds).child? name := by
  have also : (es.map Prod.fst).Nodup := (same.map Prod.fst).nodup_iff.mpr distinct
  apply Option.ext
  intro e
  rw [child?_eq_some also, child?_eq_some distinct]
  exact same.mem_iff

theorem child?_relist {es : Entries} (distinct : (es.map Prod.fst).Nodup) (name : String) :
    ((Entry.dir es).relist order place).child? name =
      ((Entry.dir es).child? name).map (relist order (place ++ [name])) := by
  have listed : ((relistEach order place es).map Prod.fst).Nodup := by rwa [names_relistEach]
  rw [relist, child?_perm (order.perm ..) listed, child?, child?, relistEach_eq_map, List.find?_map,
    Option.map_map, Option.map_map]
  cases found : es.find? fun e => e.1 == name with
  | none => simp [Function.comp_def, found]
  | some e =>
    have named : e.1 = name := by simpa using List.find?_some found
    simp [Function.comp_def, found, named]

namespace Proper
variable {e : Entry}

theorem at?_relist (proper : e.Proper) (place names : List String) :
    (e.relist order place).at? names = (e.at? names).map (relist order (place ++ names)) := by
  induction names generalizing e place with
  | nil => rw [List.append_nil]; rfl
  | cons n names ih =>
    cases proper with
    | file content => rfl
    | link target => rfl
    | @dir es distinct _ each =>
      change (((Entry.dir es).relist order place).child? n).bind (Entry.at? names) =
        (((Entry.dir es).child? n).bind (Entry.at? names)).map _
      rw [child?_relist distinct]
      cases hc : (Entry.dir es).child? n with
      | none => rfl
      | some c =>
        have below := ih (each _ ((child?_eq_some distinct).mp hc)) (place ++ [n])
        rw [List.append_assoc] at below
        exact below

theorem relist (proper : e.Proper) (place : List String) : (e.relist order place).Proper := by
  induction proper generalizing place with
  | file content => exact .file content
  | link target => exact .link target
  | @dir es distinct legal each ih =>
    have same := order.perm place (relistEach order place es)
    have names := same.map Prod.fst
    rw [names_relistEach] at names
    rw [Entry.relist, proper_dir_iff]
    refine ⟨names.nodup_iff.mpr distinct, fun d hd => ?_⟩
    have member := same.mem_iff.mp hd
    rw [relistEach_eq_map] at member
    obtain ⟨c, hc, rfl⟩ := List.mem_map.mp member
    exact ⟨legal c hc, ih c hc _⟩

end Proper
end Entry
end Entries

namespace Tree
variable {t : Tree} (order : ListingOrder)

theorem node?_relist (proper : t.root.Proper) (place : List String) :
    (t.relist order).node? place = t.node? place := by
  rw [node?, node?, Entry.node?, Entry.node?, Tree.relist, proper.at?_relist, Option.map_map]
  congr 1
  funext e
  exact e.node_relist

theorem sameFrame_relist (proper : t.root.Proper) :
    Entry.SameFrame t.root (t.relist order).root := by
  intro place
  have same := node?_relist order proper place
  rw [node?, node?] at same
  rw [same]

theorem leadsToFile_relist (proper : t.root.Proper) (path : String) :
    (t.relist order).leadsToFile path = t.leadsToFile path := by
  rw [Bool.eq_iff_iff, leadsToFile_iff, leadsToFile_iff]
  refine exists_congr fun content => ?_
  rw [entry_eq_file, entry_eq_file, target?_sameFrame (sameFrame_relist order proper) rfl]
  simp only [node?_relist order proper]

/-- A path that leads to a directory leads there still, and finds the entries in their new order. -/
theorem locate_relist (proper : t.root.Proper) {path : String} {place : List String} {es : Entries}
    (leads : t.locate path = .ok (.entry place (.dir es))) :
    (t.relist order).locate path =
      .ok (.entry place (.dir (order.list place (relistEach order place es)))) := by
  obtain ⟨ds, led⟩ := locate_sameFrame (sameFrame_relist order proper) rfl leads
  have there : (t.relist order).root.at? place = some (.dir ds) := at?_of_locate led
  rw [Tree.relist, proper.at?_relist, at?_of_locate leads, List.nil_append] at there
  rw [led, ← Option.some.inj there]
  rfl

end Tree

theorem waysBelow_eq_flatMap (t : Tree) (path : String) (es : Entries) :
    waysBelow t path es = es.flatMap fun e => (e.2.ways t (joinPath path e.1)).map (e.1 :: ·) := by
  induction es with
  | nil => rfl
  | cons e es ih => rw [waysBelow, ih, List.flatMap_cons]

/-- What is found below an entry does not depend on the listings but for its order. -/
theorem Entry.ways_relist {t s : Tree} (same : ∀ path, s.leadsToFile path = t.leadsToFile path)
    {e : Entry} (proper : e.Proper) (order : ListingOrder) (place : List String) (path : String) :
    ((e.relist order place).ways s path).Perm (e.ways t path) := by
  induction proper generalizing place path with
  | file content => exact .refl _
  | link target =>
    rw [relist, ways, ways, same]
  | @dir es _ _ _ ih =>
    rw [relist, ways, ways, waysBelow_eq_flatMap, waysBelow_eq_flatMap]
    refine ((order.perm ..).flatMap_right _).trans ?_
    rw [relistEach_eq_map, List.flatMap_map]
    exact List.Perm.flatMap_left _ fun e he => (ih e he _ _).map _

end Questionnaire.Files
