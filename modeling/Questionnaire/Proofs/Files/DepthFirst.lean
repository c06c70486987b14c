import Questionnaire.Proofs.Files.Relisting

/-!
The order of a walk. What is found at or below an entry stands together, in the place that the entry
has among its siblings, and the files of one directory stand in the order of its listing
(`Tree.DepthFirst`). Which files are found does not depend on the listings, and whatever they are
the walk is depth-first for them (`Tree.walk_depthFirst`).
-/
namespace Questionnaire.Files

/-- A list in three parts, of which the one in the middle is all that has a property. -/
structure Parts {α : Type} (P : α → Prop) (xs front block back : List α) : Prop where
  split : xs = front ++ block ++ back
  inside : ∀ x ∈ block, P x
  outside : ∀ x ∈ front ++ back, ¬ P x

theorem Parts.map {α β : Type} {P : α → Prop} {Q : β → Prop} {f : α → β}
    {xs front block back : List α} (parts : Parts P xs front block back)
    (same : ∀ x ∈ xs, Q (f x) ↔ P x) :
    Parts Q (xs.map f) (front.map f) (block.map f) (back.map f) := by
  obtain ⟨rfl, inside, outside⟩ := parts
  refine ⟨by simp only [List.map_append], ?_, ?_⟩
  · intro y hy
    obtain ⟨x, hx, rfl⟩ := List.mem_map.mp hy
    have there : x ∈ front ++ block ++ back := by simp [hx]
    exact (same x there).mpr (inside x hx)
  · intro y hy
    rw [← List.map_append] at hy
    obtain ⟨x, hx, rfl⟩ := List.mem_map.mp hy
    have there : x ∈ front ++ block ++ back := by
      rcases List.mem_append.mp hx with h | h <;> simp [h]
    exact fun holds => outside x hx ((same x there).mp holds)

section Ways
variable {t : Tree} {path n : String} {names way : List String}

theorem waysBelow_append (es ds : Entries) :
    waysBelow t path (es ++ ds) = waysBelow t path es ++ waysBelow t path ds := by
  simp only [waysBelow_eq_flatMap, List.flatMap_append]

/-- The ways below a directory begin with the names of its entries. -/
theorem mem_names_of_begins {es : Entries} (there : way ∈ waysBelow t path es)
    (begins : n :: names <+: way) : n ∈ es.map Prod.fst := by
  obtain ⟨m, rest, e, rfl, hmem, _⟩ := mem_waysBelow.mp there
  obtain ⟨rfl, _⟩ := List.cons_prefix_cons.mp begins
  exact List.mem_map_of_mem hmem

/-- A listing around one of its entries. -/
theorem exists_split {es : Entries} (distinct : (es.map Prod.fst).Nodup) {e : Entry}
    (child : (Entry.dir es).child? n = some e) : ∃ before after, es = before ++ (n, e) :: after ∧
      n ∉ before.map Prod.fst ∧ n ∉ after.map Prod.fst := by
  obtain ⟨before, after, rfl⟩ := List.append_of_mem ((Entry.child?_eq_some distinct).mp child)
  rw [List.map_append, List.map_cons, List.nodup_append, List.nodup_cons] at distinct
  obtain ⟨_, ⟨behind, _⟩, apart⟩ := distinct
  exact ⟨before, after, rfl, fun h => apart n h n List.mem_cons_self rfl, behind⟩

/-- The ways through one place stand together. -/
theorem ways_through {e d : Entry} (proper : e.Proper) (t : Tree) (path : String)
    (led : e.at? names = some d) : ∃ front back, Parts (names <+: ·) (e.ways t path) front
      ((d.ways t (below path names)).map (names ++ ·)) back := by
  induction names generalizing e path with
  | nil =>
    cases led
    exact ⟨[], [], by simp [below], fun _ _ => List.nil_prefix, fun _ h => by cases h⟩
  | cons n names ih =>
    obtain ⟨c, child, rest⟩ := Option.bind_eq_some_iff.mp led
    obtain ⟨es, rfl⟩ := Entry.eq_dir_of_child? child
    obtain ⟨distinct, each⟩ := Entry.proper_dir_iff.mp proper
    have hc := (each _ ((Entry.child?_eq_some distinct).mp child)).2
    obtain ⟨before, after, rfl, notBefore, notAfter⟩ := exists_split distinct child
    obtain ⟨front, back, split, _, outside⟩ := ih hc (joinPath path n) rest
    refine ⟨waysBelow t path before ++ front.map (n :: ·),
      back.map (n :: ·) ++ waysBelow t path after, ?_, ?_, ?_⟩
    · rw [Entry.ways, waysBelow_append, waysBelow, split]
      simp [below, Function.comp_def]
    · intro way hway
      obtain ⟨w, _, rfl⟩ := List.mem_map.mp hway
      exact List.prefix_append ..
    · intro way hway begins
      simp only [List.append_assoc, List.mem_append, List.mem_map] at hway
      rcases hway with h | ⟨w, h, rfl⟩ | ⟨w, h, rfl⟩ | h
      · exact notBefore (mem_names_of_begins h begins)
      · exact outside w (List.mem_append_left _ h) (List.cons_prefix_cons.mp begins).2
      · exact outside w (List.mem_append_right _ h) (List.cons_prefix_cons.mp begins).2
      · exact notAfter (mem_names_of_begins h begins)

/-- The ways of single names stand in the order of the listing. -/
theorem singles_sublist {es : Entries} (distinct : (es.map Prod.fst).Nodup) :
    ((es.map fun e => [e.1]).filter (· ∈ waysBelow t path es)).Sublist (waysBelow t path es) := by
  induction es with
  | nil => exact .slnil
  | cons head es ih =>
    obtain ⟨n, e⟩ := head
    rw [List.map_cons, List.nodup_cons] at distinct
    have others : (es.map fun e => [e.1]).filter (· ∈ waysBelow t path ((n, e) :: es)) =
        (es.map fun e => [e.1]).filter (· ∈ waysBelow t path es) := by
      refine List.filter_congr fun way hway => ?_
      obtain ⟨d, hd, rfl⟩ := List.mem_map.mp hway
      have apart : n ≠ d.1 := fun same =>
        distinct.1 (List.mem_map.mpr ⟨d, hd, same.symm⟩)
      simp [waysBelow, apart]
    have rest := ih distinct.2
    rw [List.map_cons, List.filter_cons, others]
    split
    · rename_i found
      rw [decide_eq_true_eq, waysBelow, List.mem_append] at found
      rcases found with here | later
      · rw [waysBelow]
        exact (List.singleton_sublist.mpr here).append rest
      · exact absurd (mem_names_of_begins later (List.prefix_refl _)) distinct.1
    · rw [waysBelow]
      exact rest.trans (List.sublist_append_right ..)

/-- The ways through some entries of the directory that names lead to. -/
def waysInto (t : Tree) (path : String) (names : List String) (es : Entries) : List (List String) :=
  (waysBelow t (below path names) es).map (names ++ ·)

theorem waysInto_append (es ds : Entries) :
    waysInto t path names (es ++ ds) = waysInto t path names es ++ waysInto t path names ds := by
  rw [waysInto, waysBelow_append, List.map_append]
  rfl

theorem mem_names_of_mem_waysInto {es : Entries} (there : way ∈ waysInto t path names es)
    (begins : names ++ [n] <+: way) : n ∈ es.map Prod.fst := by
  obtain ⟨w, hw, rfl⟩ := List.mem_map.mp there
  exact mem_names_of_begins hw ((List.prefix_append_right_inj names).mp begins)

theorem prefix_of_mem_waysInto {e : Entry} (there : way ∈ waysInto t path names [(n, e)]) :
    names ++ [n] <+: way := by
  obtain ⟨w, hw, rfl⟩ := List.mem_map.mp there
  obtain ⟨m, rest, d, rfl, hmem, _⟩ := mem_waysBelow.mp hw
  cases List.mem_singleton.mp hmem
  exact ⟨rest, List.append_assoc ..⟩

/-- The ways through the entries of a directory, and others before and behind them. -/
theorem ways_around {e : Entry} (proper : e.Proper) (t : Tree) (path : String) {es : Entries}
    (led : e.at? names = some (.dir es)) :
    ∃ front back, e.ways t path = front ++ waysInto t path names es ++ back ∧
      ∀ m, ∀ way ∈ front ++ back, ¬ names ++ [m] <+: way := by
  obtain ⟨front, back, split, _, outside⟩ := ways_through proper t path led
  exact ⟨front, back, split, fun m way hway begins =>
    outside way hway ((List.prefix_append ..).trans begins)⟩

/-- The ways through an entry stand together, between those through the entries listed before it
and those through the entries listed behind it. -/
theorem ways_between {e c : Entry} (proper : e.Proper) (t : Tree) (path : String)
    {before after : Entries} (led : e.at? names = some (.dir (before ++ (n, c) :: after))) :
    ∃ front block back, Parts (names ++ [n] <+: ·) (e.ways t path) front block back ∧
      (∀ s ∈ before, ∀ way ∈ e.ways t path, names ++ [s.1] <+: way → way ∈ front) ∧
      ∀ s ∈ after, ∀ way ∈ e.ways t path, names ++ [s.1] <+: way → way ∈ back := by
  obtain ⟨front, back, split, outside⟩ := ways_around proper t path led
  rw [List.append_cons, waysInto_append, waysInto_append] at split
  obtain ⟨distinct, _⟩ := Entry.proper_dir_iff.mp (proper.at? led)
  rw [List.map_append, List.nodup_append, List.map_cons, List.nodup_cons] at distinct
  obtain ⟨_, ⟨notAfter, _⟩, apart⟩ := distinct
  have through : ∀ m, ∀ way ∈ e.ways t path, names ++ [m] <+: way →
      way ∈ waysInto t path names before ∨ way ∈ waysInto t path names [(n, c)] ∨
        way ∈ waysInto t path names after := by
    intro m way hway begins
    have passes : way ∉ front ++ back := fun h => outside m way h begins
    rw [List.mem_append, not_or] at passes
    simpa [split, passes, or_assoc] using hway
  refine ⟨front ++ waysInto t path names before, waysInto t path names [(n, c)],
    waysInto t path names after ++ back, ⟨?_, fun way => prefix_of_mem_waysInto, ?_⟩, ?_, ?_⟩
  · rw [split]
    simp only [List.append_assoc]
  · intro way hway begins
    simp only [List.append_assoc, List.mem_append] at hway
    rcases hway with h | h | h | h
    · exact outside n way (List.mem_append_left _ h) begins
    · exact apart n (mem_names_of_mem_waysInto h begins) n List.mem_cons_self rfl
    · exact notAfter (mem_names_of_mem_waysInto h begins)
    · exact outside n way (List.mem_append_right _ h) begins
  · intro s hs way hway begins
    have name : s.1 ∈ before.map Prod.fst := List.mem_map_of_mem hs
    rcases through s.1 way hway begins with h | h | h
    · exact List.mem_append_right _ h
    · have here := List.mem_singleton.mp (mem_names_of_mem_waysInto h begins)
      exact absurd here (apart _ name n List.mem_cons_self)
    · have later := mem_names_of_mem_waysInto h begins
      exact absurd rfl (apart _ name _ (List.mem_cons_of_mem n later))
  · intro s hs way hway begins
    have name : s.1 ∈ after.map Prod.fst := List.mem_map_of_mem hs
    rcases through s.1 way hway begins with h | h | h
    · have earlier := mem_names_of_mem_waysInto h begins
      exact absurd rfl (apart _ earlier _ (List.mem_cons_of_mem n name))
    · have here := List.mem_singleton.mp (mem_names_of_mem_waysInto h begins)
      exact absurd (here ▸ name) notAfter
    · exact List.mem_append_left _ h

/-- The ways to the entries of a directory stand in the order of its listing. -/
theorem ways_listed {e : Entry} (proper : e.Proper) (t : Tree) (path : String) {es : Entries}
    (led : e.at? names = some (.dir es)) :
    ((es.map fun d => names ++ [d.1]).filter (· ∈ e.ways t path)).Sublist (e.ways t path) := by
  obtain ⟨front, back, split, outside⟩ := ways_around proper t path led
  obtain ⟨distinct, _⟩ := Entry.proper_dir_iff.mp (proper.at? led)
  have there : ∀ m, names ++ [m] ∈ e.ways t path ↔ [m] ∈ waysBelow t (below path names) es := by
    intro m
    have inside : names ++ [m] ∉ front ++ back := fun h => outside m _ h (List.prefix_refl _)
    rw [List.mem_append, not_or] at inside
    simp [split, waysInto, inside]
  have same : (es.map fun d => names ++ [d.1]).filter (· ∈ e.ways t path) =
      ((es.map fun d => [d.1]).filter (· ∈ waysBelow t (below path names) es)).map
        (names ++ ·) := by
    rw [List.filter_map, List.filter_map, List.map_map]
    refine congrArg (List.map _) (List.filter_congr fun d _ => ?_)
    simp [there]
  rw [same, split]
  exact ((singles_sublist distinct).map _).trans
    ((List.sublist_append_right front _).trans (List.sublist_append_left _ back))

end Ways

/-- At or below what names lead to. -/
def AtOrBelow (root : String) (names : List String) (path : String) : Prop :=
  ∃ more, (∀ n ∈ more, IsName n) ∧ path = below root (names ++ more)

theorem atOrBelow_iff {root : String} {names way : List String} (hroot : root ≠ "")
    (hnames : ∀ n ∈ names, IsName n) (hway : ∀ n ∈ way, IsName n) :
    AtOrBelow root names (below root way) ↔ names <+: way := by
  constructor
  · rintro ⟨more, hmore, same⟩
    have legal : ∀ n ∈ names ++ more, IsName n := by
      intro n hn
      rcases List.mem_append.mp hn with h | h
      · exact hnames n h
      · exact hmore n h
    rw [below_injective hroot hway legal same]
    exact List.prefix_append ..
  · rintro ⟨more, rfl⟩
    exact ⟨more, fun n hn => hway n (List.mem_append_right _ hn), rfl⟩

/-- The order of a walk below a place. -/
structure Tree.DepthFirst (t : Tree) (root : String) (place : List String) (files : List String) :
    Prop where
  /-- What is at or below an entry stands together, between that of the entries listed before it
  and that of those listed behind it. -/
  together : ∀ names before n e after,
    t.root.at? (place ++ names) = some (.dir (before ++ (n, e) :: after)) →
      ∃ front block back, Parts (AtOrBelow root (names ++ [n])) files front block back ∧
        (∀ s ∈ before, ∀ f ∈ files, AtOrBelow root (names ++ [s.1]) f → f ∈ front) ∧
        ∀ s ∈ after, ∀ f ∈ files, AtOrBelow root (names ++ [s.1]) f → f ∈ back
  /-- The files of one directory stand in the order of its listing. -/
  listed : ∀ names es, t.root.at? (place ++ names) = some (.dir es) →
    ((es.map fun e => below root (names ++ [e.1])).filter (· ∈ files)).Sublist files

/-- The names to an entry are legal. -/
theorem Entry.Proper.isName_entry {e : Entry} (proper : e.Proper) {names : List String}
    {es : Entries} (led : e.at? names = some (.dir es)) {d : String × Entry} (there : d ∈ es) :
    ∀ n ∈ names ++ [d.1], IsName n := by
  intro n hn
  apply isName_of_isLegalName
  rcases List.mem_append.mp hn with above | here
  · exact proper.legal led n above
  · rw [List.mem_singleton.mp here]
    exact ((proper_dir_iff.mp (proper.at? led)).2 d there).1

namespace Tree
variable {t : Tree} {root : String} {place : List String} {es : Entries}

/-- A walk is depth-first. -/
theorem depthFirst_walkEntries (proper : t.root.Proper)
    (leads : t.locate root = .ok (.entry place (.dir es))) :
    t.DepthFirst root place (walkEntries t root es) := by
  have dir := at?_of_locate leads
  have inside := proper.at? dir
  have hroot := (clean_of_locate leads).2
  have led : ∀ names ds, t.root.at? (place ++ names) = some (.dir ds) →
      (Entry.dir es).at? names = some (.dir ds) := by
    intro names ds h
    rwa [Entry.at?_append, dir] at h
  have isName : ∀ way ∈ (Entry.dir es).ways t root, ∀ n ∈ way, IsName n := fun way hway n hn =>
    isName_of_isLegalName (inside.legal_ways hway n hn)
  have found : walkEntries t root es = ((Entry.dir es).ways t root).map (below root) :=
    walkEntries_eq t root es
  rw [found]
  constructor
  · intro names before n e after there
    have inDir := led _ _ there
    obtain ⟨front, block, back, parts, earlier, later⟩ := ways_between inside t root inDir
    have through : ∀ s ∈ before ++ (n, e) :: after, ∀ way ∈ (Entry.dir es).ways t root,
        AtOrBelow root (names ++ [s.1]) (below root way) ↔ names ++ [s.1] <+: way :=
      fun s hs way hway => atOrBelow_iff hroot (inside.isName_entry inDir hs) (isName way hway)
    refine ⟨_, _, _, parts.map (through (n, e) (by simp)), ?_, ?_⟩
    · intro s hs f hf below
      obtain ⟨way, hway, rfl⟩ := List.mem_map.mp hf
      have begins := (through s (List.mem_append_left _ hs) way hway).mp below
      exact List.mem_map_of_mem (earlier s hs way hway begins)
    · intro s hs f hf below
      obtain ⟨way, hway, rfl⟩ := List.mem_map.mp hf
      have begins := (through s (by simp [hs]) way hway).mp below
      exact List.mem_map_of_mem (later s hs way hway begins)
  · intro names ds there
    have inDir := led _ _ there
    have same : (ds.map fun d => below root (names ++ [d.1])).filter
          (· ∈ ((Entry.dir es).ways t root).map (below root)) =
        ((ds.map fun d => names ++ [d.1]).filter (· ∈ (Entry.dir es).ways t root)).map
          (below root) := by
      rw [List.filter_map, List.filter_map, List.map_map]
      refine congrArg (List.map _) (List.filter_congr fun d hd => ?_)
      simp only [Function.comp_apply, mem_map_below hroot isName (inside.isName_entry inDir hd)]
    rw [same]
    exact (ways_listed inside t root inDir).map _

/-- With other listings a walk finds the same files in another order. -/
theorem walk_relist (proper : t.root.Proper)
    (leads : t.locate root = .ok (.entry place (.dir es))) (order : ListingOrder) :
    ∃ files, (t.relist order).walk root = .ok files ∧ (t.relist order).Walked root place files ∧
      (t.relist order).DepthFirst root place files ∧ files.Perm (walkEntries t root es) := by
  have led := locate_relist order proper leads
  have relisted : (t.relist order).root.Proper := proper.relist []
  have same := Entry.ways_relist (leadsToFile_relist order proper)
    (proper.at? (at?_of_locate leads)) order place root
  obtain ⟨files, walked, finds⟩ := walk_finds relisted led
  obtain rfl := Except.ok.inj ((walk_eq_ok led).symm.trans walked)
  refine ⟨_, walked, finds, depthFirst_walkEntries relisted led, ?_⟩
  rw [walkEntries_eq, walkEntries_eq]
  exact same.map _

/-- Whatever the order in which directories are listed, a walk is depth-first for it; the order of
the listings has no influence on what is found. -/
theorem walk_depthFirst (proper : t.root.Proper)
    (leads : t.locate root = .ok (.entry place (.dir es))) (order other : ListingOrder) :
    ∃ files files', (t.relist order).walk root = .ok files ∧
      (t.relist other).walk root = .ok files' ∧ (t.relist order).Walked root place files ∧
      (t.relist order).DepthFirst root place files ∧ files.Perm files' := by
  obtain ⟨files, walked, finds, ordered, same⟩ := walk_relist proper leads order
  obtain ⟨files', walked', _, _, same'⟩ := walk_relist proper leads other
  exact ⟨files, files', walked, walked', finds, ordered, same.trans same'.symm⟩

end Tree

/-- Directories among and below files, and a link that comes before its target. -/
private def shelvedTree : Tree where
  root := .dir [("work", .dir [("in", .dir
    [("b.yml", .file .empty), ("to-c.yml", .link "sub/c.yml"),
      ("sub", .dir [("d.yml", .file .empty), ("deep", .dir [("e.yml", .file .empty)]),
        ("c.yml", .file .empty)]),
      ("empty", .dir []), ("a.yml", .file .empty)])])]
  cwd := ["work"]

private def asListed : ListingOrder where
  list _ es := es
  perm _ es := .refl es

/-- All directories backwards but one. -/
private def backwards : ListingOrder where
  list place es := if place = ["work", "in", "sub"] then es else es.reverse
  perm place es := by
    split
    · exact .refl es
    · exact es.reverse_perm

theorem Tree.walk_depthFirst_backwards :
    let files := ["in/b.yml", "in/to-c.yml", "in/sub/d.yml", "in/sub/deep/e.yml", "in/sub/c.yml",
      "in/a.yml"]
    let files' := ["in/a.yml", "in/sub/d.yml", "in/sub/deep/e.yml", "in/sub/c.yml", "in/to-c.yml",
      "in/b.yml"]
    shelvedTree.root.Proper ∧ (shelvedTree.relist asListed).walk "in" = .ok files ∧
      (shelvedTree.relist backwards).walk "in" = .ok files' ∧
      (shelvedTree.relist backwards).Walked "in" ["work", "in"] files' ∧
      (shelvedTree.relist backwards).DepthFirst "in" ["work", "in"] files' ∧
      files'.Perm files := by
  intro files files'
  have proper : shelvedTree.root.Proper := by
    have names : ∀ n ∈ ["work", "in", "b.yml", "to-c.yml", "sub", "d.yml", "deep", "e.yml", "c.yml",
        "empty", "a.yml"], isLegalName n := by decide
    simp only [List.forall_mem_cons, List.not_mem_nil, false_implies, implies_true] at names
    simp [shelvedTree, Entry.proper_dir_iff, Entry.Proper.file, Entry.Proper.link, names]
  have walked : (shelvedTree.relist backwards).walk "in" = .ok files' := by decide +kernel
  have walkedFirst : (shelvedTree.relist asListed).walk "in" = .ok files := by decide +kernel
  have leads : ∃ es, shelvedTree.locate "in" = .ok (.entry ["work", "in"] (.dir es)) := ⟨_, rfl⟩
  obtain ⟨es, leads⟩ := leads
  obtain ⟨_, _, found, foundFirst, finds, ordered, same⟩ :=
    Tree.walk_depthFirst proper leads backwards asListed
  obtain rfl := Except.ok.inj (walked.symm.trans found)
  obtain rfl := Except.ok.inj (walkedFirst.symm.trans foundFirst)
  exact ⟨proper, walkedFirst, walked, finds, ordered, same⟩

end Questionnaire.Files
