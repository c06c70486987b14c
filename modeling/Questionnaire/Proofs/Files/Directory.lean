import Questionnaire.Proofs.Except
import Questionnaire.Proofs.Files.Name
import Questionnaire.Proofs.Files.Resolve

/-!
Files in one directory. In a directory without directories and links (`Holds`) a file can be
written under every legal name and under no other one, the write changes the node of that file
alone, and the file then reads as what was written.
-/
namespace Questionnaire.Files

/-- What the name of a file can be. -/
def isLegalName (name : String) : Bool :=
  name ≠ "" && name ≠ "." && name ≠ ".." && !name.toList.contains '/' &&
    !name.toList.contains '\x00' && name.utf8ByteSize ≤ Tree.maxName

theorem isLegalName_iff {name : String} (h : IsName name) :
    isLegalName name ↔ '\x00' ∉ name.toList ∧ name.utf8ByteSize ≤ Tree.maxName := by
  simp [isLegalName, h.nonempty, h.notHere, h.notUp, h.single]

theorem fromUTF8?_toUTF8 (text : String) : String.fromUTF8? text.toUTF8 = some text := by
  rw [String.fromUTF8?]
  exact dif_pos text.isValidUTF8

namespace Tree

/-- The place to which a path leads is a directory with files only. -/
structure Holds (t : Tree) (root : String) (place : List String) : Prop where
  leads : ∃ es, t.locate root = .ok (.entry place (.dir es))
  files : ∀ name n, t.node? (place ++ [name]) = some n → ∃ c, n = .file c

/-- Behind a path to a directory a name is looked for in that directory. -/
theorem locate_joinPath {t : Tree} {root name : String} {place : List String} {es : Entries}
    (leads : t.locate root = .ok (.entry place (.dir es))) (hname : IsName name)
    (clean : '\x00' ∉ name.toList) (make : Bool) :
    ∃ links, t.locate (joinPath root name) make =
      follow t.root make links place (.dir es) [.name name] := by
  obtain ⟨rootClean, hroot⟩ := clean_of_locate leads
  obtain ⟨e, he, led⟩ := follow_of_locate leads
  have unslashed : follow t.root false maxLinks (t.start root) e (steps root) =
      .ok (.entry place (.dir es)) := by
    rcases components_eq root with h | h
    · rw [← h]
      exact led
    · rw [h] at led
      exact follow_slash led
  have open_ : ∀ rest, rest ++ [Component.name name] = [.slash] → make = false := by
    intro rest h
    cases rest with
    | nil => cases h
    | cons c rest => simp at h
  obtain ⟨links, _, same⟩ := follow_append open_ unslashed
  have joinedClean : '\x00' ∉ (joinPath root name).toList := by
    rw [nul_mem_joinPath hname hroot]
    exact not_or.mpr ⟨rootClean, clean⟩
  have joinedNonempty : joinPath root name ≠ "" := by
    obtain ⟨cs, joined, _⟩ := toList_joinPath hname hroot
    intro h
    simp [h] at joined
  have start : t.start (joinPath root name) = t.start root := by
    simp only [Tree.start, isAbsolute_joinPath hname hroot]
  refine ⟨links, ?_⟩
  rw [locate_eq joinedClean joinedNonempty, start, he, components_joinPath hname hroot]
  exact same

theorem descend_name (root : Entry) (make : Bool) (place : List String) (es : Entries)
    (name : String) (short : name.utf8ByteSize ≤ maxName) :
    descend root make place (.dir es) [.name name] =
      match (Entry.dir es).child? name with
      | none => .missing place name []
      | some (.link target) => .linked place target []
      | some e => .found (place ++ [name]) e := by
  have unslashed : (make && ([] : List Component) == [.slash]) = false := by simp
  have fits : ¬ maxName < name.utf8ByteSize := Nat.not_lt.mpr short
  cases hc : (Entry.dir es).child? name with
  | none => simp only [descend, unslashed, Bool.false_eq_true, if_false, if_neg fits, hc]
  | some e =>
    cases e <;> simp only [descend, unslashed, Bool.false_eq_true, if_false, if_neg fits, hc]

theorem descend_longName (root : Entry) (make : Bool) (place : List String) (es : Entries)
    (name : String) (long : maxName < name.utf8ByteSize) :
    descend root make place (.dir es) [.name name] = .failed .nameTooLong := by
  have unslashed : (make && ([] : List Component) == [.slash]) = false := by simp
  simp only [descend, unslashed, Bool.false_eq_true, if_false, if_pos long]

namespace Holds
variable {t : Tree} {root : String} {place : List String}

theorem child_isFile (h : t.Holds root place) {es : Entries}
    (hes : t.root.at? place = some (.dir es)) {name : String} {e : Entry}
    (child : (Entry.dir es).child? name = some e) : ∃ c, e = .file c := by
  have hnode : t.node? (place ++ [name]) = some e.node := by
    rw [node?_concat hes, child]
    rfl
  obtain ⟨c, hc⟩ := h.files name _ hnode
  cases e with
  | file content => exact ⟨content, rfl⟩
  | link target => cases hc
  | dir ds => cases hc

/-- A new content for one of the files, or a new file. -/
theorem put_file (h : t.Holds root place) (name : String) (c : ByteArray) :
    (t.put (place ++ [name]) (.file c)).Holds root place ∧
      ∀ q, (t.put (place ++ [name]) (.file c)).node? q =
        if q = place ++ [name] then some (.file c) else t.node? q := by
  obtain ⟨es, leads⟩ := h.leads
  have hes := at?_of_locate leads
  have leaf : ∀ d, (Entry.dir es).child? name = some d → d.isFile := by
    intro d hd
    obtain ⟨old, rfl⟩ := h.child_isFile hes hd
    rfl
  have node := node?_put_file hes leaf c
  have same : Entry.SameFrame t.root (t.put (place ++ [name]) (.file c)).root := by
    intro q
    change (t.node? q).bind Entry.Node.leading? =
      ((t.put (place ++ [name]) (.file c)).node? q).bind Entry.Node.leading?
    rw [node]
    split
    · rename_i hq
      rw [hq]
      cases hn : t.node? (place ++ [name]) with
      | none => rfl
      | some n =>
        obtain ⟨old, rfl⟩ := h.files _ _ hn
        rfl
    · rfl
  refine ⟨⟨locate_sameFrame same rfl leads, ?_⟩, node⟩
  intro other n hn
  rw [node] at hn
  split at hn
  · exact ⟨c, (Option.some.inj hn).symm⟩
  · exact h.files other n hn

theorem writeText_legal (h : t.Holds root place) {name : String} (hname : IsName name)
    (legal : isLegalName name) (text : String) :
    t.writeText (joinPath root name) text =
      .ok (t.put (place ++ [name]) (.file text.toUTF8)) := by
  obtain ⟨clean, short⟩ := (isLegalName_iff hname).mp legal
  obtain ⟨es, leads⟩ := h.leads
  have hes := at?_of_locate leads
  obtain ⟨links, located⟩ := locate_joinPath leads hname clean true
  rw [follow_eq, descend_name _ _ _ _ _ short] at located
  rw [writeText, writeFile, located]
  cases hc : (Entry.dir es).child? name with
  | none => rfl
  | some e =>
    obtain ⟨old, rfl⟩ := h.child_isFile hes hc
    rfl

theorem writeText_illegal (h : t.Holds root place) {name : String} (hname : IsName name)
    (illegal : ¬ isLegalName name) (text : String) :
    ∃ e, t.writeText (joinPath root name) text = .error e := by
  obtain ⟨es, leads⟩ := h.leads
  rw [isLegalName_iff hname, Decidable.not_and_iff_or_not] at illegal
  by_cases clean : '\x00' ∉ name.toList
  · obtain ⟨links, located⟩ := locate_joinPath leads hname clean true
    have long : maxName < name.utf8ByteSize := by
      rcases illegal with h | h
      · exact absurd clean h
      · omega
    rw [follow_eq, descend_longName _ _ _ _ _ long] at located
    exact ⟨.nameTooLong, by rw [writeText, writeFile, located]; rfl⟩
  · have nul : '\x00' ∈ (joinPath root name).toList :=
      (nul_mem_joinPath hname (clean_of_locate leads).2).mpr
        (Or.inr (Decidable.not_not.mp clean))
    refine ⟨.nulInName, ?_⟩
    have found : (joinPath root name).toList.contains '\x00' = true := by simpa using nul
    rw [writeText, writeFile, locate, if_pos found]
    rfl

theorem readText_of_node (h : t.Holds root place) {name : String} (hname : IsName name)
    (legal : isLegalName name) {text : String}
    (node : t.node? (place ++ [name]) = some (.file text.toUTF8)) :
    t.readText (joinPath root name) = .ok text := by
  obtain ⟨clean, short⟩ := (isLegalName_iff hname).mp legal
  obtain ⟨es, leads⟩ := h.leads
  have hes := at?_of_locate leads
  obtain ⟨links, located⟩ := locate_joinPath leads hname clean false
  have child : (Entry.dir es).child? name = some (.file text.toUTF8) := by
    rw [node?_concat hes] at node
    obtain ⟨e, he, hnode⟩ := Option.map_eq_some_iff.mp node
    cases e with
    | file c => cases hnode; exact he
    | link target => cases hnode
    | dir ds => cases hnode
  rw [follow_eq, descend_name _ _ _ _ _ short, child] at located
  have hentry : t.entry (joinPath root name) = .ok (.file text.toUTF8) :=
    entry_eq_ok.mpr ⟨_, located⟩
  refine bind_eq_ok.mpr ⟨.file text.toUTF8, hentry, ?_⟩
  simp only [fromUTF8?_toUTF8]
  rfl

end Holds
end Tree
end Questionnaire.Files
