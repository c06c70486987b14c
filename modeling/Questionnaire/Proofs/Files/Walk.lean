import Mathlib.Data.List.Nodup
import Questionnaire.Files.Walk
import Questionnaire.Proofs.Files.Directory

/-!
The files below a directory, told by the names that lead to them. A walk goes through directories
alone and takes the names of one file after another (`Entry.ways`). The names in a directory are
different, so no two files have the same names, and names put behind a path can be read off again
(`below_injective`). Hence a walk finds each file below its root once and nothing else
(`Tree.walk_finds`), and each path that it finds leads to a file.
-/
namespace Questionnaire.Files

/-- A path with names behind it. -/
def below (path : String) (names : List String) : String := names.foldl joinPath path

section Below
variable {path name : String}

theorem joinPath_ne_empty (hname : IsName name) (hpath : path ≠ "") : joinPath path name ≠ "" := by
  obtain ⟨cs, joined, _⟩ := toList_joinPath hname hpath
  intro empty
  simp [empty] at joined

theorem steps_below {names : List String} (hpath : path ≠ "") (hnames : ∀ n ∈ names, IsName n) :
    steps (below path names) = steps path ++ names.map .name := by
  induction names generalizing path with
  | nil => simp [below]
  | cons n names ih =>
    have hn := hnames n List.mem_cons_self
    have rest := ih (joinPath_ne_empty hn hpath) fun m hm => hnames m (List.mem_cons_of_mem n hm)
    rw [steps_joinPath hn hpath] at rest
    rw [List.map_cons, List.append_cons]
    exact rest

/-- Different names make different paths. -/
theorem below_injective {names names' : List String} (hpath : path ≠ "")
    (hnames : ∀ n ∈ names, IsName n) (hnames' : ∀ n ∈ names', IsName n)
    (same : below path names = below path names') : names = names' := by
  have both := congrArg steps same
  rw [steps_below hpath hnames, steps_below hpath hnames', List.append_cancel_left_eq] at both
  exact (List.map_inj_right fun _ _ => Component.name.inj).mp both

theorem mem_map_below {ways : List (List String)} (hpath : path ≠ "")
    (hways : ∀ way ∈ ways, ∀ n ∈ way, IsName n) {names : List String}
    (hnames : ∀ n ∈ names, IsName n) :
    below path names ∈ ways.map (below path) ↔ names ∈ ways := by
  rw [List.mem_map]
  constructor
  · rintro ⟨way, hway, same⟩
    rwa [← below_injective hpath (hways way hway) hnames same]
  · exact fun hmem => ⟨names, hmem, rfl⟩

end Below

/-- Entries as a file system has them: the names in a directory are legal, and no two of them are
the same. -/
inductive Entry.Proper : Entry → Prop
  | file (content : ByteArray) : Proper (.file content)
  | link (target : String) : Proper (.link target)
  | dir {entries : Entries} : (entries.map Prod.fst).Nodup → (∀ e ∈ entries, isLegalName e.1) →
      (∀ e ∈ entries, Proper e.2) → Proper (.dir entries)

theorem Entry.proper_dir_iff {es : Entries} : (Entry.dir es).Proper ↔
    (es.map Prod.fst).Nodup ∧ ∀ e ∈ es, isLegalName e.1 ∧ e.2.Proper := by
  constructor
  · rintro (_ | _ | ⟨distinct, legal, each⟩)
    exact ⟨distinct, fun e he => ⟨legal e he, each e he⟩⟩
  · rintro ⟨distinct, both⟩
    exact .dir distinct (fun e he => (both e he).1) fun e he => (both e he).2

/-- What a walk counts at a path: a file, or a link by which the path leads to one. -/
inductive Entry.Counts (t : Tree) (path : String) : Entry → Prop
  | file (content : ByteArray) : Counts t path (.file content)
  | link {content : ByteArray} (target : String) : t.entry path = .ok (.file content) →
      Counts t path (.link target)

/-- Does a path lead to a file? -/
def Tree.leadsToFile (t : Tree) (path : String) : Bool :=
  match t.entry path with
  | .ok e => e.isFile
  | .error _ => false

mutual

/-- The names that lead from an entry, whose own path is given, to what a walk counts. -/
def Entry.ways (t : Tree) (path : String) : Entry → List (List String)
  | .file _ => [[]]
  | .link _ => if t.leadsToFile path then [[]] else []
  | .dir entries => waysBelow t path entries

/-- The names that lead from a directory to what a walk counts. -/
def waysBelow (t : Tree) (path : String) : List (String × Entry) → List (List String)
  | [] => []
  | (name, e) :: es => (Entry.ways t (joinPath path name) e).map (name :: ·) ++ waysBelow t path es

end

section Ways
variable {t : Tree} {path : String} {names : List String}

theorem Tree.leadsToFile_iff : t.leadsToFile path ↔ ∃ c, t.entry path = .ok (.file c) := by
  rw [leadsToFile]
  cases t.entry path with
  | error e => simp
  | ok e => cases e <;> simp [Entry.isFile]

mutual

theorem Entry.walk_eq (t : Tree) (path : String) :
    (e : Entry) → e.walk t path = (e.ways t path).map (below path)
  | .file content => rfl
  | .link target => by
    rw [Entry.walk, Entry.ways, Tree.leadsToFile]
    cases t.entry path with
    | error e => rfl
    | ok e => cases e <;> rfl
  | .dir entries => by
    rw [Entry.walk, Entry.ways]
    exact walkEntries_eq t path entries

theorem walkEntries_eq (t : Tree) (path : String) :
    (es : List (String × Entry)) → walkEntries t path es = (waysBelow t path es).map (below path)
  | [] => rfl
  | (name, e) :: es => by
    rw [walkEntries, waysBelow, Entry.walk_eq, walkEntries_eq, List.map_append, List.map_map]
    rfl

end

theorem mem_waysBelow {es : Entries} : names ∈ waysBelow t path es ↔
    ∃ n rest e, names = n :: rest ∧ (n, e) ∈ es ∧ rest ∈ e.ways t (joinPath path n) := by
  induction es with
  | nil => simp [waysBelow]
  | cons head es ih =>
    obtain ⟨n, e⟩ := head
    rw [waysBelow, List.mem_append, ih, List.mem_map]
    constructor
    · rintro (⟨rest, hrest, rfl⟩ | ⟨m, rest, d, rfl, hd, hrest⟩)
      · exact ⟨n, rest, e, rfl, List.mem_cons_self, hrest⟩
      · exact ⟨m, rest, d, rfl, List.mem_cons_of_mem _ hd, hrest⟩
    · rintro ⟨m, rest, d, rfl, hd, hrest⟩
      rcases List.mem_cons.mp hd with first | later
      · cases first
        exact Or.inl ⟨rest, hrest, rfl⟩
      · exact Or.inr ⟨m, rest, d, rfl, later, hrest⟩

theorem Entry.child?_eq_some {es : Entries} (distinct : (es.map Prod.fst).Nodup) {n : String}
    {e : Entry} : (Entry.dir es).child? n = some e ↔ (n, e) ∈ es := by
  induction es with
  | nil => simp [child?]
  | cons head es ih =>
    obtain ⟨m, d⟩ := head
    rw [List.map_cons, List.nodup_cons] at distinct
    have rest := ih distinct.2
    simp only [child?] at rest
    by_cases same : m = n
    · subst same
      have absent : (m, e) ∉ es := fun later =>
        distinct.1 (List.mem_map.mpr ⟨(m, e), later, rfl⟩)
      simp [child?, absent, eq_comm]
    · have other : (n, e) ≠ (m, d) := fun equal => same (congrArg Prod.fst equal).symm
      simp [child?, same, rest, other]

theorem Entry.mem_ways {e : Entry} (proper : e.Proper) :
    names ∈ e.ways t path ↔ ∃ d, e.at? names = some d ∧ d.Counts t (below path names) := by
  induction names generalizing e path with
  | nil =>
    change _ ↔ ∃ d, some e = some d ∧ d.Counts t path
    simp only [Option.some.injEq, exists_eq_left']
    cases proper with
    | file content =>
      rw [ways]
      exact iff_of_true List.mem_cons_self (.file content)
    | link target =>
      rw [ways]
      constructor
      · intro h
        split at h
        · rename_i leads
          obtain ⟨c, hc⟩ := Tree.leadsToFile_iff.mp leads
          exact .link target hc
        · cases h
      · rintro (_ | ⟨_, hc⟩)
        rw [if_pos (Tree.leadsToFile_iff.mpr ⟨_, hc⟩)]
        exact List.mem_cons_self
    | dir _ _ _ =>
      rw [ways, mem_waysBelow]
      constructor
      · rintro ⟨n, rest, d, empty, _⟩
        cases empty
      · intro counts
        cases counts
  | cons n names ih =>
    change _ ↔ ∃ d, (e.child? n).bind (at? names) = some d ∧
      d.Counts t (below (joinPath path n) names)
    cases proper with
    | file content => simp [ways, child?]
    | link target =>
      rw [ways]
      split <;> simp [child?]
    | @dir es distinct legal each =>
      rw [ways, mem_waysBelow]
      constructor
      · rintro ⟨m, rest, d, equal, hd, hrest⟩
        cases equal
        rw [(child?_eq_some distinct).mpr hd]
        exact (ih (each _ hd)).mp hrest
      · rintro ⟨d, reached, counts⟩
        obtain ⟨e, he, led⟩ := Option.bind_eq_some_iff.mp reached
        have hmem := (child?_eq_some distinct).mp he
        exact ⟨n, names, e, rfl, hmem, (ih (each _ hmem)).mpr ⟨d, led, counts⟩⟩

theorem nodup_waysBelow {es : Entries} (distinct : (es.map Prod.fst).Nodup)
    (each : ∀ e ∈ es, ∀ path, (e.2.ways t path).Nodup) : (waysBelow t path es).Nodup := by
  induction es with
  | nil => exact List.nodup_nil
  | cons head es ih =>
    obtain ⟨n, e⟩ := head
    rw [List.map_cons, List.nodup_cons] at distinct
    have rest := ih distinct.2 fun d hd => each d (List.mem_cons_of_mem _ hd)
    have first := each (n, e) List.mem_cons_self (joinPath path n)
    rw [waysBelow, List.nodup_append]
    refine ⟨first.map fun _ _ same => (List.cons.inj same).2, rest, ?_⟩
    -- The ways below different entries begin with different names.
    rintro way hway _ hother rfl
    obtain ⟨names, _, rfl⟩ := List.mem_map.mp hway
    obtain ⟨m, _, d, equal, hd, _⟩ := mem_waysBelow.mp hother
    cases equal
    exact distinct.1 (List.mem_map.mpr ⟨(n, d), hd, rfl⟩)

theorem Entry.nodup_ways {e : Entry} (proper : e.Proper) (path : String) :
    (e.ways t path).Nodup := by
  induction proper generalizing path with
  | file content => exact List.nodup_singleton _
  | link target =>
    rw [ways]
    split
    · exact List.nodup_singleton _
    · exact List.nodup_nil
  | dir distinct _ _ ih =>
    rw [ways]
    exact nodup_waysBelow distinct ih

end Ways

namespace Entry.Proper

theorem at? {e d : Entry} (proper : e.Proper) {names : List String}
    (led : e.at? names = some d) : d.Proper := by
  induction names generalizing e with
  | nil =>
    cases led
    exact proper
  | cons n names ih =>
    obtain ⟨child, hc, rest⟩ := Option.bind_eq_some_iff.mp led
    obtain ⟨es, rfl⟩ := eq_dir_of_child? hc
    cases proper with
    | dir distinct _ each => exact ih (each _ ((child?_eq_some distinct).mp hc)) rest

theorem legal {e d : Entry} (proper : e.Proper) {names : List String}
    (led : e.at? names = some d) : ∀ n ∈ names, isLegalName n := by
  induction names generalizing e with
  | nil => exact fun n hn => absurd hn List.not_mem_nil
  | cons n names ih =>
    obtain ⟨child, hc, rest⟩ := Option.bind_eq_some_iff.mp led
    obtain ⟨es, rfl⟩ := eq_dir_of_child? hc
    cases proper with
    | dir distinct legal each =>
      have hmem := (child?_eq_some distinct).mp hc
      intro m hm
      rcases List.mem_cons.mp hm with rfl | later
      · exact legal _ hmem
      · exact ih (each _ hmem) rest m later

theorem legal_ways {t : Tree} {path : String} {e : Entry} (proper : e.Proper) {names : List String}
    (way : names ∈ e.ways t path) : ∀ n ∈ names, isLegalName n := by
  obtain ⟨d, led, _⟩ := (mem_ways proper).mp way
  exact proper.legal led

end Entry.Proper

theorem isName_of_isLegalName {name : String} (h : isLegalName name) : IsName name := by
  simp only [isLegalName, Bool.and_eq_true, decide_eq_true_eq, Bool.not_eq_true',
    List.contains_eq_mem, decide_eq_false_iff_not] at h
  obtain ⟨⟨⟨⟨⟨nonempty, notHere⟩, notUp⟩, single⟩, _⟩, _⟩ := h
  exact ⟨nonempty, notHere, notUp, single⟩

namespace Tree
variable {t : Tree} {root : String} {place names : List String} {es : Entries}

/-- A path to a directory goes on through directories as its names do. -/
theorem locate_names {d : Entry} (leads : t.locate root = .ok (.entry place (.dir es)))
    (legal : ∀ n ∈ names, isLegalName n) (led : (Entry.dir es).at? names = some d)
    (unlinked : ∀ target, d ≠ .link target) :
    t.locate (below root names) = .ok (.entry (place ++ names) d) := by
  induction names generalizing root place es with
  | nil =>
    cases led
    rw [List.append_nil]
    exact leads
  | cons n names ih =>
    obtain ⟨child, hc, rest⟩ := Option.bind_eq_some_iff.mp led
    have hn := isName_of_isLegalName (legal n List.mem_cons_self)
    obtain ⟨clean, short⟩ := (isLegalName_iff hn).mp (legal n List.mem_cons_self)
    obtain ⟨links, located⟩ := locate_joinPath leads hn clean false
    rw [follow_eq, descend_name _ _ _ _ _ short, hc] at located
    cases child with
    | file content =>
      cases names with
      | nil => cases rest; exact located
      | cons m names => cases rest
    | link target =>
      cases names with
      | nil => cases rest; exact absurd rfl (unlinked target)
      | cons m names => cases rest
    | dir ds =>
      have onward := ih located (fun m hm => legal m (List.mem_cons_of_mem n hm)) rest
      rw [List.append_assoc] at onward
      exact onward

/-- Names that lead from a place through directories alone to a file, or to a link by which the
path of the names leads to a file. -/
structure FileBelow (t : Tree) (root : String) (place names : List String) : Prop where
  nonempty : names ≠ []
  dirs : ∀ i < names.length, t.node? (place ++ names.take i) = some .dir
  last : (∃ content, t.node? (place ++ names) = some (.file content)) ∨
    ∃ target content, t.node? (place ++ names) = some (.link target) ∧
      t.entry (below root names) = .ok (.file content)

theorem fileBelow_iff (dir : t.root.at? place = some (.dir es)) :
    t.FileBelow root place names ↔
      ∃ d, (Entry.dir es).at? names = some d ∧ d.Counts t (below root names) := by
  have node : ∀ names, t.node? (place ++ names) = ((Entry.dir es).at? names).map Entry.node := by
    intro names
    rw [node?, Entry.node?, Entry.at?_append, dir]
    rfl
  constructor
  · rintro ⟨_, _, last⟩
    rw [node] at last
    rcases last with ⟨c, hc⟩ | ⟨target, c, hl, leads⟩
    · obtain ⟨d, hd, isFile⟩ := Option.map_eq_some_iff.mp hc
      cases d <;> cases isFile
      exact ⟨_, hd, .file c⟩
    · obtain ⟨d, hd, isLink⟩ := Option.map_eq_some_iff.mp hl
      cases d <;> cases isLink
      exact ⟨_, hd, .link target leads⟩
  · rintro ⟨d, hd, counts⟩
    refine ⟨?_, fun i hi => ?_, ?_⟩
    · rintro rfl
      cases hd
      cases counts
    · have split : names.take i ++ names[i] :: names.drop (i + 1) = names := by simp
      rw [← split] at hd
      obtain ⟨ds, hds⟩ := Entry.dir_of_at?_append hd
      rw [node, hds]
      rfl
    · rw [node, hd]
      cases counts with
      | file content => exact Or.inl ⟨content, rfl⟩
      | link target leads => exact Or.inr ⟨target, _, rfl, leads⟩

/-- What a walk below a directory comes to: each file once, and nothing else. -/
structure Walked (t : Tree) (root : String) (place : List String) (files : List String) : Prop where
  once : files.Nodup
  below : ∀ path ∈ files, ∃ names, t.FileBelow root place names ∧ path = below root names
  leads : ∀ path ∈ files, ∃ content, t.entry path = .ok (.file content)
  mem_iff : ∀ names, (∀ n ∈ names, IsName n) →
    (Files.below root names ∈ files ↔ t.FileBelow root place names)

theorem walk_finds (proper : t.root.Proper)
    (leads : t.locate root = .ok (.entry place (.dir es))) :
    ∃ files, t.walk root = .ok files ∧ t.Walked root place files := by
  have dir := at?_of_locate leads
  have inside := proper.at? dir
  have hroot := (clean_of_locate leads).2
  have listed : t.readDir root = .ok es := by
    rw [readDir, entry, leads]
    rfl
  have ways : ∀ names, names ∈ waysBelow t root es ↔ t.FileBelow root place names := by
    intro names
    rw [fileBelow_iff dir, ← Entry.mem_ways inside, Entry.ways]
  have named : ∀ names ∈ waysBelow t root es, ∀ n ∈ names, isLegalName n := by
    intro names hnames
    rw [← Entry.ways] at hnames
    exact inside.legal_ways hnames
  have isName : ∀ names ∈ waysBelow t root es, ∀ n ∈ names, IsName n := fun names hnames n hn =>
    isName_of_isLegalName (named names hnames n hn)
  refine ⟨walkEntries t root es, by rw [walk, listed]; rfl, ?_, ?_, ?_, ?_⟩
  · have once := Entry.nodup_ways (t := t) inside root
    rw [Entry.ways] at once
    rw [walkEntries_eq]
    refine once.map_on ?_
    intro names hnames names' hnames' same
    exact below_injective hroot (isName names hnames) (isName names' hnames') same
  · intro path hpath
    rw [walkEntries_eq] at hpath
    obtain ⟨names, hnames, rfl⟩ := List.mem_map.mp hpath
    exact ⟨names, (ways names).mp hnames, rfl⟩
  · intro path hpath
    rw [walkEntries_eq] at hpath
    obtain ⟨names, hnames, rfl⟩ := List.mem_map.mp hpath
    obtain ⟨d, hd, counts⟩ := (fileBelow_iff dir).mp ((ways names).mp hnames)
    cases counts with
    | link target led => exact ⟨_, led⟩
    | file content =>
      have unlinked : ∀ target, Entry.file content ≠ .link target := by
        intro target link
        cases link
      have located := locate_names leads (named names hnames) hd unlinked
      exact ⟨content, entry_eq_ok.mpr ⟨_, located⟩⟩
  · intro names hnames
    rw [walkEntries_eq, mem_map_below hroot isName hnames]
    exact ways names

/-- Without a directory at its root there is no walk. -/
theorem walk_error (noDir : ∀ place es, t.locate root ≠ .ok (.entry place (.dir es))) :
    ∃ e, t.walk root = .error e := by
  rw [walk, readDir, entry]
  cases led : t.locate root with
  | error e => exact ⟨e, rfl⟩
  | ok found =>
    cases found with
    | missing place name rest => exact ⟨.notFound, rfl⟩
    | entry place e =>
      cases e with
      | dir es => exact absurd led (noDir place es)
      | file content => exact ⟨.notDirectory, rfl⟩
      | link target => exact ⟨.notDirectory, rfl⟩

end Tree
end Questionnaire.Files
