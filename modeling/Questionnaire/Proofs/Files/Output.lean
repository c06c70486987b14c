import Questionnaire.Proofs.Files.Directory
import Questionnaire.Proofs.Files.Writing

/-!
Files below a root. The root may lead to a directory or nowhere; an empty one stands for the working
directory. What can be wrong with a name that no link has is told by `refusal?`, in the order in which
it is found (`writeText_leads`). Where the directory holds no links, a file can be written under a
legal name that no directory in it has (`accepts`), and then one node changes; every other write
fails. What a root accepts and where it leads depends on directories and links alone, so it stays as
it is (`accepts_sameFrame`).
-/
namespace Questionnaire.Files
open Entry (SameFrame)

/-- A path to the directory of a root. -/
def rootPath (root : String) : String := if root = "" then "." else root

theorem rootPath_ne_empty (root : String) : rootPath root ≠ "" := by
  rw [rootPath]
  split
  · decide
  · assumption

/-- A name below a root is one more step, also if the root is empty. -/
theorem components_below {root name : String} (h : IsName name) :
    components (joinPath root name) = steps root ++ [.name name] := by
  by_cases hroot : root = ""
  · rw [hroot, h.joinPath_empty, h.components_eq]
    rfl
  · exact components_joinPath h hroot

def Entry.Node.isDir : Node → Bool
  | .dir => true
  | _ => false

theorem Entry.any_isDir {n : Option Node} : n.any Node.isDir = true ↔ n = some .dir := by
  cases n with
  | none => simp
  | some n => cases n <;> simp [Node.isDir]

namespace Tree

theorem follow_here (root : Entry) (make : Bool) (links : Nat) (p : List String) (e : Entry)
    (c : Component) (cs : List Component) :
    follow root make links p e (.here :: c :: cs) = follow root make links p e (c :: cs) := by
  rw [follow_eq, follow_eq]
  cases e <;> rfl

theorem locate_rootPath {t : Tree} {root name : String} (hname : IsName name) (make : Bool) :
    t.locate (joinPath (rootPath root) name) make = t.locate (joinPath root name) make := by
  by_cases hroot : root = ""
  · subst hroot
    rw [hname.joinPath_empty, rootPath, if_pos rfl]
    by_cases clean : '\x00' ∈ name.toList
    · have nul : '\x00' ∈ (joinPath "." name).toList :=
        (nul_mem_joinPath hname (by decide)).mpr (Or.inr clean)
      rw [locate, locate, if_pos (by simpa using nul), if_pos (by simpa using clean)]
    · have joined : '\x00' ∉ (joinPath "." name).toList := by
        rw [nul_mem_joinPath hname (by decide)]
        exact not_or.mpr ⟨by decide, clean⟩
      have filled : joinPath "." name ≠ "" := by
        obtain ⟨cs, hcs, _⟩ := toList_joinPath hname (show "." ≠ "" by decide)
        intro empty
        simp [empty] at hcs
      have start : t.start (joinPath "." name) = t.start name := by
        rw [Tree.start, Tree.start, isAbsolute_joinPath hname (by decide), hname.relative]
        rfl
      have dotted : components (joinPath "." name) = [.here, .name name] :=
        components_joinPath hname (by decide)
      rw [locate_eq joined filled, locate_eq clean hname.nonempty, start, dotted,
        hname.components_eq]
      simp only [follow_here]
  · rw [rootPath, if_neg hroot]

/-- Where a path with a name at its end can be written to, the path before it is that of a
directory. -/
theorem dir_of_target? {root e : Entry} {make : Bool} {links : Nat} {p q : List String}
    {n : String} {cs : List Component} {found : Found} (he : root.at? p = some e)
    (h : follow root make links p e (cs ++ [.name n]) = .ok found)
    (target : found.target? = some q) :
    ∃ d es, follow root false links p e cs = .ok (.entry d (.dir es)) := by
  have open_ : ∀ rest, rest ++ [Component.name n] = [.slash] → make = false := by
    intro rest heq
    cases rest with
    | nil => cases heq
    | cons c rest => simp at heq
  induction links using Nat.strongRecOn generalizing p e cs with
  | ind links ih =>
    have valid := descend_valid false cs he
    rw [follow_eq, descend_append open_] at h
    rw [follow_eq]
    cases hd : descend root false p e cs with
    | found d e' =>
      rw [hd] at h
      cases e' with
      | dir es => exact ⟨d, es, rfl⟩
      | file content => cases h
      | link target => cases h
    | missing d m rest =>
      rw [hd] at h
      cases h
      cases rest <;> cases target
    | failed err => rw [hd] at h; cases h
    | linked place target rest =>
      rw [hd] at h valid
      obtain ⟨es, _, above, _⟩ := valid
      obtain ⟨p', e', turn⟩ := exists_turn above target
      cases links with
      | zero => cases h
      | succ links =>
        rw [Stop.extend, resume_linked turn, ← List.append_assoc] at h
        rw [resume_linked turn]
        exact ih links (Nat.lt_succ_self links) turn.at?_eq h

/-- A path to a directory leads there with a slash at its end too. -/
theorem follow_slash_dir {root e : Entry} {links : Nat} {p q : List String} {cs : List Component}
    {es : Entries} (led : follow root false links p e cs = .ok (.entry q (.dir es))) :
    follow root false links p e (cs ++ [.slash]) = .ok (.entry q (.dir es)) := by
  have reading : ∀ rest, rest ++ [Component.slash] = [.slash] → false = false := fun _ _ => rfl
  obtain ⟨left, _, same⟩ := follow_append reading led
  rw [same, follow_eq]
  rfl

/-- The directory that the paths below a root are in. -/
def outputPlace? (t : Tree) (root : String) : Option (List String) :=
  match t.locate (rootPath root) with
  | .ok (.entry place (.dir _)) => some place
  | _ => none

/-- No entry of the directory of a root is a link. -/
def Unlinked (t : Tree) (root : String) : Prop :=
  ∀ place, t.outputPlace? root = some place →
    ∀ name target, t.node? (place ++ [name]) ≠ some (.link target)

/-- Can a file of this name be written below a root? -/
def accepts (t : Tree) (root name : String) : Bool :=
  match t.outputPlace? root with
  | some place => isLegalName name && !(t.node? (place ++ [name])).any Entry.Node.isDir
  | none => false

/-- What keeps a file of this name from being written in a directory. -/
def refusal? (t : Tree) (place : List String) (name : String) : Option IoError :=
  if '\x00' ∈ name.toList then some .nulInName
  else if maxName < name.utf8ByteSize then some .nameTooLong
  else if (t.node? (place ++ [name])).any Entry.Node.isDir then some .isDirectory
  else none

section Below
variable {t : Tree} {root name : String} {place : List String}

theorem outputPlace?_eq_some :
    t.outputPlace? root = some place ↔
      ∃ es, t.locate (rootPath root) = .ok (.entry place (.dir es)) := by
  rw [outputPlace?]
  split
  · rename_i q es h
    simp [h]
  · rename_i other
    constructor
    · intro h
      cases h
    · rintro ⟨es, h⟩
      exact absurd h (other place es)

theorem outputPlace?_of_entry {es : Entries} (dir : t.entry root = .ok (.dir es)) :
    ∃ place, t.outputPlace? root = some place ∧ t.root.at? place = some (.dir es) := by
  obtain ⟨place, led⟩ := entry_eq_ok.mp dir
  have nonempty : root ≠ "" := (clean_of_locate led).2
  refine ⟨place, outputPlace?_eq_some.mpr ⟨es, ?_⟩, at?_of_locate led⟩
  rw [rootPath, if_neg nonempty]
  exact led

/-- A file can only be written below a root that leads to a directory. -/
theorem outputPlace?_of_writeText (hname : IsName name) {text : String} {t' : Tree}
    (h : t.writeText (joinPath root name) text = .ok t') :
    ∃ place, t.outputPlace? root = some place := by
  obtain ⟨found, hl, h⟩ := bind_eq_ok.mp h
  rw [← locate_rootPath hname] at hl
  have target : ∃ q, found.target? = some q := by
    cases found with
    | entry q d => exact ⟨q, rfl⟩
    | missing q n rest =>
      cases rest with
      | nil => exact ⟨_, rfl⟩
      | cons c rest => cases h
  obtain ⟨q, target⟩ := target
  obtain ⟨clean, _⟩ := clean_of_locate hl
  rw [nul_mem_joinPath hname (rootPath_ne_empty root), not_or] at clean
  obtain ⟨e, he, led⟩ := follow_of_locate hl
  have start : t.start (joinPath (rootPath root) name) = t.start (rootPath root) := by
    simp only [Tree.start, isAbsolute_joinPath hname (rootPath_ne_empty root)]
  rw [start] at he
  rw [start, components_joinPath hname (rootPath_ne_empty root)] at led
  obtain ⟨place, es, dir⟩ := dir_of_target? he led target
  refine ⟨place, outputPlace?_eq_some.mpr ⟨es, ?_⟩⟩
  rw [locate_eq clean.1 (rootPath_ne_empty root), he]
  rcases components_eq (rootPath root) with h | h
  · rw [h]
    exact dir
  · rw [h]
    exact follow_slash_dir dir

theorem locate_below (hname : IsName name) (leads : t.outputPlace? root = some place)
    (clean : '\x00' ∉ name.toList) (make : Bool) :
    ∃ links es, t.root.at? place = some (.dir es) ∧ t.locate (joinPath root name) make =
      follow t.root make links place (.dir es) [.name name] := by
  obtain ⟨es, hes⟩ := outputPlace?_eq_some.mp leads
  obtain ⟨links, located⟩ := locate_joinPath hes hname clean make
  exact ⟨links, es, at?_of_locate hes, by rw [← locate_rootPath hname, located]⟩

theorem accepts_eq_true : t.accepts root name ↔ ∃ place, t.outputPlace? root = some place ∧
    isLegalName name ∧ t.node? (place ++ [name]) ≠ some .dir := by
  rw [accepts]
  cases t.outputPlace? root with
  | none => simp
  | some place => simp [← Entry.any_isDir]

/-- A write below a root that leads somewhere, told without the way there. -/
theorem writeText_leads (free : ∀ target, t.node? (place ++ [name]) ≠ some (.link target))
    (hname : IsName name) (leads : t.outputPlace? root = some place) (text : String) :
    t.writeText (joinPath root name) text = match t.refusal? place name with
      | some e => .error e
      | none => .ok (t.put (place ++ [name]) (.file text.toUTF8)) := by
  by_cases clean : '\x00' ∈ name.toList
  · have joined := (nul_mem_joinPath hname (rootPath_ne_empty root)).mpr (Or.inr clean)
    have failed : t.locate (joinPath root name) true = .error .nulInName := by
      rw [← locate_rootPath hname, locate, if_pos (by simpa using joined)]
    rw [refusal?, if_pos clean, writeText, writeFile, failed]
    rfl
  · obtain ⟨links, es, hes, located⟩ := locate_below hname leads clean true
    rw [refusal?, if_neg clean]
    by_cases long : maxName < name.utf8ByteSize
    · rw [follow_eq, descend_longName _ _ _ _ _ long] at located
      rw [if_pos long, writeText, writeFile, located]
      rfl
    · have child := node?_concat hes name
      rw [follow_eq, descend_name _ _ _ _ _ (Nat.not_lt.mp long)] at located
      rw [if_neg long, writeText, writeFile, located, child]
      cases hc : (Entry.dir es).child? name with
      | none => rfl
      | some e =>
        rw [hc] at child
        cases e with
        | file old => rfl
        | dir ds => rfl
        | link target => exact absurd child (free target)

theorem refusal?_eq_none : t.refusal? place name = none ↔ '\x00' ∉ name.toList ∧
    name.utf8ByteSize ≤ maxName ∧ t.node? (place ++ [name]) ≠ some .dir := by
  rw [refusal?, ← Nat.not_lt, ne_eq, ← Entry.any_isDir]
  split
  · simp [*]
  · split
    · simp [*]
    · split <;> simp [*]

/-- Below its root a file is written to one place. -/
theorem writeText_of_accepts (unlinked : t.Unlinked root) (hname : IsName name)
    (leads : t.outputPlace? root = some place) (accepted : t.accepts root name) (text : String) :
    t.writeText (joinPath root name) text = .ok (t.put (place ++ [name]) (.file text.toUTF8)) := by
  obtain ⟨q, hq, legal, notDir⟩ := accepts_eq_true.mp accepted
  obtain rfl := Option.some.inj (hq.symm.trans leads)
  obtain ⟨clean, short⟩ := (isLegalName_iff hname).mp legal
  rw [writeText_leads (unlinked q leads name) hname leads,
    refusal?_eq_none.mpr ⟨clean, short, notDir⟩]

/-- Where a file below a root can be written, its path stands for a place in the directory. -/
theorem target?_of_accepts (unlinked : t.Unlinked root) (hname : IsName name)
    (leads : t.outputPlace? root = some place) (accepted : t.accepts root name) :
    t.target? (joinPath root name) = some (place ++ [name]) := by
  obtain ⟨q, hq, legal, _⟩ := accepts_eq_true.mp accepted
  obtain rfl := Option.some.inj (hq.symm.trans leads)
  obtain ⟨clean, short⟩ := (isLegalName_iff hname).mp legal
  obtain ⟨links, es, hes, located⟩ := locate_below hname leads clean false
  have child := node?_concat hes name
  rw [follow_eq, descend_name _ _ _ _ _ short] at located
  rw [target?, located]
  cases hc : (Entry.dir es).child? name with
  | none => rfl
  | some e =>
    rw [hc] at child
    cases e with
    | file old => rfl
    | dir ds => rfl
    | link target => exact absurd child (unlinked q leads name target)

theorem writeText_of_not_accepts (hname : IsName name) (refused : t.accepts root name = false)
    (text : String) : ∃ e, t.writeText (joinPath root name) text = .error e := by
  cases hw : t.writeText (joinPath root name) text with
  | error e => exact ⟨e, rfl⟩
  | ok t' =>
    exfalso
    obtain ⟨place, leads⟩ := outputPlace?_of_writeText hname hw
    obtain ⟨found, hl, hw⟩ := bind_eq_ok.mp hw
    have clean : '\x00' ∉ name.toList := by
      intro nul
      rw [← locate_rootPath hname] at hl
      have joined := (nul_mem_joinPath hname (rootPath_ne_empty root)).mpr (Or.inr nul)
      exact (clean_of_locate hl).1 joined
    obtain ⟨links, es, hes, located⟩ := locate_below hname leads clean true
    rw [follow_eq] at located
    by_cases short : name.utf8ByteSize ≤ maxName
    · -- The name is legal, so there is a directory of that name.
      rw [descend_name _ _ _ _ _ short] at located
      have legal : isLegalName name := (isLegalName_iff hname).mpr ⟨clean, short⟩
      have dir : t.node? (place ++ [name]) = some .dir := by
        refine Classical.byContradiction fun notDir => ?_
        rw [accepts_eq_true.mpr ⟨place, leads, legal, notDir⟩] at refused
        cases refused
      rw [node?_concat hes] at dir
      obtain ⟨e, he, hnode⟩ := Option.map_eq_some_iff.mp dir
      cases e with
      | file old => cases hnode
      | link target => cases hnode
      | dir ds =>
        rw [he, hl] at located
        cases located
        cases hw
    · rw [descend_longName _ _ _ _ _ (by omega), hl] at located
      cases located

theorem frame_put (leads : t.outputPlace? root = some place) (unlinked : t.Unlinked root)
    (notDir : t.node? (place ++ [name]) ≠ some .dir) (c : ByteArray) :
    SameFrame t.root (t.put (place ++ [name]) (.file c)).root ∧
      ∀ q, (t.put (place ++ [name]) (.file c)).node? q =
        if q = place ++ [name] then some (.file c) else t.node? q := by
  obtain ⟨es, hl⟩ := outputPlace?_eq_some.mp leads
  have hes := at?_of_locate hl
  have leaf : ∀ d, (Entry.dir es).child? name = some d → d.isFile := by
    intro d hd
    have child : t.node? (place ++ [name]) = some d.node := by
      rw [node?_concat hes, hd]
      rfl
    cases d with
    | file old => rfl
    | dir ds => exact absurd child notDir
    | link target => exact absurd child (unlinked place leads name target)
  exact ⟨(filled_put hes leaf).sameFrame, node?_put_file hes leaf c⟩

end Below

section Frame
variable {t t' : Tree} (same : SameFrame t.root t'.root) (cwd : t'.cwd = t.cwd)
include same

theorem node?_eq_dir_sameFrame (q : List String) :
    t'.node? q = some .dir ↔ t.node? q = some .dir := by
  have dir : ∀ n : Option Entry.Node, n = some .dir ↔ n.bind Entry.Node.leading? = some .dir := by
    intro n
    cases n with
    | none => simp
    | some n => cases n <;> simp [Entry.Node.leading?]
  rw [dir, dir (t.node? q), node?, node?, same q]

theorem node?_eq_link_sameFrame (q : List String) (target : String) :
    t'.node? q = some (.link target) ↔ t.node? q = some (.link target) := by
  have link : ∀ n : Option Entry.Node,
      n = some (.link target) ↔ n.bind Entry.Node.leading? = some (.link target) := by
    intro n
    cases n with
    | none => simp
    | some n => cases n <;> simp [Entry.Node.leading?]
  rw [link, link (t.node? q), node?, node?, same q]

include cwd

theorem outputPlace?_sameFrame (root : String) : t'.outputPlace? root = t.outputPlace? root := by
  have leads : ∀ place, t'.outputPlace? root = some place ↔ t.outputPlace? root = some place := by
    intro place
    rw [outputPlace?_eq_some, outputPlace?_eq_some]
    constructor
    · rintro ⟨es, h⟩
      exact locate_sameFrame same.symm cwd.symm h
    · rintro ⟨es, h⟩
      exact locate_sameFrame same cwd h
  cases h : t.outputPlace? root with
  | some place => exact (leads place).mpr h
  | none =>
    cases h' : t'.outputPlace? root with
    | none => rfl
    | some place =>
      rw [(leads place).mp h'] at h
      cases h

theorem accepts_sameFrame (root name : String) : t'.accepts root name = t.accepts root name := by
  rw [Bool.eq_iff_iff, accepts_eq_true, accepts_eq_true, outputPlace?_sameFrame same cwd]
  refine exists_congr fun place => and_congr_right fun _ => and_congr_right fun _ => ?_
  rw [Ne, node?_eq_dir_sameFrame same]

theorem unlinked_sameFrame {root : String} (unlinked : t.Unlinked root) : t'.Unlinked root := by
  intro place leads name target there
  rw [outputPlace?_sameFrame same cwd] at leads
  exact unlinked place leads name target ((node?_eq_link_sameFrame same _ _).mp there)

end Frame

end Tree
end Questionnaire.Files
