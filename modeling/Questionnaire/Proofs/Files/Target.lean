import Questionnaire.Proofs.Except
import Questionnaire.Proofs.Files.Name
import Questionnaire.Proofs.Files.Resolve

/-!
The place that a path stands for, whether there is something or not. It depends on directories and
links alone (`target?_sameFrame`), and what is read from a path is what stands at that place
(`readText_eq_ok`): so a path reads as before as long as nothing happens at its place.
-/
namespace Questionnaire.Files
open Entry (SameFrame)

theorem Entry.SameFrame.symm {root root' : Entry} (same : SameFrame root root') :
    SameFrame root' root := fun place => (same place).symm

theorem Entry.SameFrame.trans {a b c : Entry} (h : SameFrame a b) (h' : SameFrame b c) :
    SameFrame a c := fun place => (h place).trans (h' place)

/-- A file, or nothing. -/
def Entry.Plain (e? : Option Entry) : Prop := ∀ e, e? = some e → ∃ content, e = .file content

/-- Where there is neither a directory nor a link in one tree, there is none in the other. -/
theorem Entry.SameFrame.plain {root root' : Entry} (same : SameFrame root root')
    {place : List String} (plain : Entry.Plain (root.at? place)) :
    Entry.Plain (root'.at? place) := by
  intro e he
  cases e with
  | file content => exact ⟨content, rfl⟩
  | dir ds =>
    obtain ⟨es, hes⟩ := same.symm.dir he
    obtain ⟨_, h⟩ := plain _ hes
    cases h
  | link target =>
    obtain ⟨_, h⟩ := plain _ (same.symm.link he)
    cases h

theorem components_ne_nil {path : String} (relative : isAbsolute path = false)
    (nonempty : path ≠ "") : components path ≠ [] := by
  have filled : path.toList ≠ [] := by simpa using nonempty
  have part : (splitPath path.toList).filter (!·.isEmpty) ≠ [] := by
    cases h : path.toList with
    | nil => exact absurd h filled
    | cons c cs =>
      have hc : c ≠ '/' := by
        rintro rfl
        simp [isAbsolute, h] at relative
      rw [splitPath, if_neg hc]
      split <;> simp
  rcases components_eq path with h | h
  · rw [h, steps]
    simpa using part
  · rw [h]
    simp

namespace Tree

/-- The place where something has been found, or where a file can be made. -/
def Found.target? : Found → Option (List String)
  | .entry place _ => some place
  | .missing place name [] => some (place ++ [name])
  | .missing .. => none

/-- The place that a path stands for. -/
def target? (t : Tree) (path : String) : Option (List String) :=
  (t.locate path).toOption.bind Found.target?

/-- How a descent ends, files and what is missing not being told apart. -/
def Stop.outline : Stop → Option (List String ⊕ List String × String × List Component)
  | .found place _ => some (.inl place)
  | .missing place name [] => some (.inl (place ++ [name]))
  | .linked place target rest => some (.inr (place, target, rest))
  | _ => none

/-- A descent ends at a name where there is a file or nothing. -/
theorem outline_plain {root : Entry} {p : List String} {n : String} {es : Entries}
    {cs : List Component} (short : ¬ maxName < n.utf8ByteSize)
    (plain : Entry.Plain ((Entry.dir es).child? n)) :
    (descend root false p (.dir es) (.name n :: cs)).outline =
      if cs = [] then some (.inl (p ++ [n])) else none := by
  simp only [descend, Bool.false_and, Bool.false_eq_true, if_false, short]
  cases hc : (Entry.dir es).child? n with
  | none => cases cs <;> rfl
  | some child =>
    obtain ⟨content, rfl⟩ := plain child hc
    cases cs <;> rfl

theorem descend_outline {root root' : Entry} (same : SameFrame root root') {p : List String}
    {es es' : Entries} (cs : List Component) (hp : root.at? p = some (.dir es))
    (hp' : root'.at? p = some (.dir es')) :
    (descend root false p (.dir es) cs).outline =
      (descend root' false p (.dir es') cs).outline := by
  induction cs generalizing p es es' with
  | nil => rfl
  | cons c cs ih =>
    cases c with
    | here => exact ih hp hp'
    | slash => exact ih hp hp'
    | up =>
      obtain ⟨ds, hd⟩ := Entry.dir_dropLast hp
      obtain ⟨ds', hd'⟩ := same.dir hd
      simp only [descend, hd, hd']
      exact ih hd hd'
    | name n =>
      by_cases long : maxName < n.utf8ByteSize
      · simp only [descend, Bool.false_and, Bool.false_eq_true, if_false, long, if_true]
      have child := Entry.at?_concat hp n
      have child' := Entry.at?_concat hp' n
      by_cases plain : Entry.Plain (root.at? (p ++ [n]))
      · rw [outline_plain long (child ▸ plain), outline_plain long (child' ▸ same.plain plain)]
      -- Otherwise a directory or link of the name is in both trees.
      · simp only [descend, Bool.false_and, Bool.false_eq_true, if_false, long, ← child, ← child']
        cases hc : root.at? (p ++ [n]) with
        | none => simp [Entry.Plain, hc] at plain
        | some child =>
          cases child with
          | file content => simp [Entry.Plain, hc] at plain
          | dir ds =>
            obtain ⟨ds', hd'⟩ := same.dir hc
            simp only [hd']
            exact ih hc hd'
          | link target => simp only [same.link hc]

/-- The target of what a path is followed to. -/
def followTarget? (root : Entry) (links : Nat) (p : List String) (e : Entry)
    (cs : List Component) : Option (List String) :=
  (follow root false links p e cs).toOption.bind Found.target?

theorem followTarget?_place {root e : Entry} {links : Nat} {p q : List String}
    {cs : List Component} (h : (descend root false p e cs).outline = some (.inl q)) :
    followTarget? root links p e cs = some q := by
  rw [followTarget?, follow_eq]
  cases hd : descend root false p e cs with
  | found place d =>
    rw [hd] at h
    cases h
    rfl
  | missing place n rest =>
    rw [hd] at h
    cases rest <;> cases h
    rfl
  | linked place target rest => rw [hd] at h; cases h
  | failed err => rw [hd] at h; cases h

theorem followTarget?_none {root e : Entry} {links : Nat} {p : List String}
    {cs : List Component} (h : (descend root false p e cs).outline = none) :
    followTarget? root links p e cs = none := by
  rw [followTarget?, follow_eq]
  cases hd : descend root false p e cs with
  | found place d => rw [hd] at h; cases h
  | missing place n rest =>
    rw [hd] at h
    cases rest with
    | nil => cases h
    | cons c rest => rfl
  | linked place target rest => rw [hd] at h; cases h
  | failed err => rfl

theorem linked_of_outline {s : Stop} {place : List String} {target : String}
    {rest : List Component} (h : s.outline = some (.inr (place, target, rest))) :
    s = .linked place target rest := by
  cases s with
  | found q d => cases h
  | missing q n more => cases more <;> cases h
  | linked q tg more => cases h; rfl
  | failed err => cases h

theorem followTarget?_linked {root e e' : Entry} {links : Nat} {p p' place : List String}
    {target : String} {cs rest : List Component}
    (h : (descend root false p e cs).outline = some (.inr (place, target, rest)))
    (turn : Turn root place target p' e') :
    followTarget? root (links + 1) p e cs =
      followTarget? root links p' e' (components target ++ rest) := by
  rw [followTarget?, follow_eq, linked_of_outline h, resume_linked turn]
  rfl

theorem followTarget?_sameFrame {root root' : Entry} (same : SameFrame root root') {links : Nat}
    {p : List String} {es es' : Entries} {cs : List Component}
    (hp : root.at? p = some (.dir es)) (hp' : root'.at? p = some (.dir es')) :
    followTarget? root' links p (.dir es') cs = followTarget? root links p (.dir es) cs := by
  induction links using Nat.strongRecOn generalizing p es es' cs with
  | ind links ih =>
    have outline := descend_outline same cs hp hp'
    cases ho : (descend root false p (.dir es) cs).outline with
    | none => rw [followTarget?_none ho, followTarget?_none (outline.symm.trans ho)]
    | some stop =>
      have ho' := outline.symm.trans ho
      cases stop with
      | inl q => rw [followTarget?_place ho, followTarget?_place ho']
      | inr link =>
        obtain ⟨place, target, rest⟩ := link
        cases links with
        | zero =>
          rw [followTarget?, followTarget?, follow_eq, follow_eq, linked_of_outline ho,
            linked_of_outline ho']
          rfl
        | succ links =>
          have valid := descend_valid false cs hp
          rw [linked_of_outline ho] at valid
          obtain ⟨ds, _, above, _⟩ := valid
          obtain ⟨p', e, turn⟩ := exists_turn above target
          obtain ⟨ts, rfl⟩ := turn.dir above
          obtain ⟨ts', turn'⟩ := turn.sameFrame same
          rw [followTarget?_linked ho turn, followTarget?_linked ho' turn']
          exact ih links (Nat.lt_succ_self links) turn.at?_eq turn'.at?_eq

theorem followTarget?_notDir {root e : Entry} {links : Nat} {p : List String}
    {cs : List Component} (notDir : ∀ es, e ≠ .dir es) :
    followTarget? root links p e cs = if cs = [] then some p else none := by
  cases cs with
  | nil => exact followTarget?_place rfl
  | cons c cs =>
    rw [if_neg (List.cons_ne_nil c cs)]
    cases e with
    | file content => exact followTarget?_none rfl
    | link target => exact followTarget?_none rfl
    | dir es => exact absurd rfl (notDir es)

theorem target?_eq {t : Tree} {path : String} (clean : '\x00' ∉ path.toList)
    (nonempty : path ≠ "") :
    t.target? path = (t.root.at? (t.start path)).bind fun e =>
      followTarget? t.root maxLinks (t.start path) e (components path) := by
  rw [target?, locate_eq clean nonempty]
  cases t.root.at? (t.start path) <;> rfl

/-- A path that starts at no directory leads nowhere, unless it is that of the root itself. -/
theorem target?_stuck {t : Tree} {path : String} (clean : '\x00' ∉ path.toList)
    (nonempty : path ≠ "") (notDir : ∀ es, t.root.at? (t.start path) ≠ some (.dir es)) :
    t.target? path = if components path = [] then some [] else none := by
  have steps : components path = [] → t.start path = [] := by
    intro none
    by_cases absolute : isAbsolute path
    · rw [Tree.start, if_pos absolute]
    · exact absurd none (components_ne_nil (by simpa using absolute) nonempty)
  rw [target?_eq clean nonempty]
  cases he : t.root.at? (t.start path) with
  | none =>
    have some : components path ≠ [] := by
      intro none
      rw [steps none] at he
      cases he
    rw [if_neg some]
    rfl
  | some e =>
    rw [Option.bind_some, followTarget?_notDir fun es h => notDir es (h ▸ he)]
    split
    · rename_i none
      rw [steps none]
    · rfl

/-- A path stands for the same place when files come, go or change. -/
theorem target?_sameFrame {t t' : Tree} (same : SameFrame t.root t'.root) (cwd : t'.cwd = t.cwd)
    (path : String) : t'.target? path = t.target? path := by
  by_cases broken : '\x00' ∈ path.toList ∨ path = ""
  · have failed : ∀ s : Tree, s.target? path = none := by
      intro s
      cases hs : s.locate path with
      | error e => rw [target?, hs]; rfl
      | ok found =>
        obtain ⟨clean, nonempty⟩ := clean_of_locate hs
        exact absurd broken (not_or.mpr ⟨clean, nonempty⟩)
    rw [failed, failed]
  · obtain ⟨clean, nonempty⟩ := not_or.mp broken
    have start : t'.start path = t.start path := by simp only [Tree.start, cwd]
    by_cases dir : ∃ es, t.root.at? (t.start path) = some (.dir es)
    · obtain ⟨es, hes⟩ := dir
      obtain ⟨es', hes'⟩ := same.dir hes
      rw [target?_eq clean nonempty, target?_eq clean nonempty, start, hes, hes']
      exact followTarget?_sameFrame same hes hes'
    · have notDir : ∀ es, t.root.at? (t.start path) ≠ some (.dir es) := not_exists.mp dir
      have notDir' : ∀ es, t'.root.at? (t'.start path) ≠ some (.dir es) := by
        intro es h
        rw [start] at h
        obtain ⟨ds, hds⟩ := same.symm.dir h
        exact notDir ds hds
      rw [target?_stuck clean nonempty notDir, target?_stuck clean nonempty notDir']

/-- What is missing on a way is missing in a directory. -/
theorem dir_of_follow_missing {root e : Entry} {make : Bool} {links : Nat} {p q : List String}
    {n : String} {cs rest : List Component} (he : root.at? p = some e)
    (led : follow root make links p e cs = .ok (.missing q n rest)) :
    ∃ es, root.at? q = some (.dir es) ∧ (Entry.dir es).child? n = none := by
  induction links using Nat.strongRecOn generalizing p e cs with
  | ind links ih =>
    have valid := descend_valid make cs he
    rw [follow_eq] at led
    cases hd : descend root make p e cs with
    | found place d => rw [hd] at led; cases led
    | failed err => rw [hd] at led; cases led
    | missing place m more =>
      rw [hd] at led valid
      cases led
      exact valid
    | linked place target more =>
      rw [hd] at led valid
      obtain ⟨es, _, above, _⟩ := valid
      obtain ⟨p', e', turn⟩ := exists_turn above target
      cases links with
      | zero => cases led
      | succ links =>
        rw [resume_linked turn] at led
        exact ih links (Nat.lt_succ_self links) turn.at?_eq led

theorem at?_of_locate_missing {t : Tree} {path : String} {make : Bool} {q : List String}
    {n : String} {rest : List Component} (h : t.locate path make = .ok (.missing q n rest)) :
    t.root.at? (q ++ [n]) = none := by
  obtain ⟨e, he, led⟩ := follow_of_locate h
  obtain ⟨es, above, absent⟩ := dir_of_follow_missing he led
  rw [Entry.at?_concat above, absent]

theorem locate_of_target? {t : Tree} {path : String} {place : List String} {e : Entry}
    (target : t.target? path = some place) (there : t.root.at? place = some e) :
    t.locate path = .ok (.entry place e) := by
  cases hl : t.locate path with
  | error err => simp [target?, hl, Except.toOption] at target
  | ok found =>
    rw [target?, hl] at target
    cases found with
    | entry q d =>
      obtain rfl : q = place := Option.some.inj target
      rw [Option.some.inj ((at?_of_locate hl).symm.trans there)]
    | missing q n rest =>
      cases rest with
      | cons c rest => cases target
      | nil =>
        obtain rfl : q ++ [n] = place := Option.some.inj target
        rw [at?_of_locate_missing hl] at there
        cases there

/-- The file that a path leads to stands at the place of the path. -/
theorem entry_eq_file {t : Tree} {path : String} {content : ByteArray} :
    t.entry path = .ok (.file content) ↔
      ∃ place, t.target? path = some place ∧ t.node? place = some (.file content) := by
  constructor
  · intro h
    obtain ⟨place, led⟩ := entry_eq_ok.mp h
    refine ⟨place, by rw [target?, led]; rfl, ?_⟩
    rw [node?, Entry.node?, at?_of_locate led]
    rfl
  · rintro ⟨place, target, node⟩
    obtain ⟨e, he, hnode⟩ := Option.map_eq_some_iff.mp node
    cases e with
    | link target => cases hnode
    | dir es => cases hnode
    | file c =>
      cases hnode
      exact entry_eq_ok.mpr ⟨place, locate_of_target? target he⟩

/-- What is read from a path is the file at its place. -/
theorem readText_eq_ok {t : Tree} {path text : String} :
    t.readText path = .ok text ↔ ∃ place content, t.target? path = some place ∧
      t.node? place = some (.file content) ∧ String.fromUTF8? content = some text := by
  constructor
  · intro h
    obtain ⟨e, he, h⟩ := bind_eq_ok.mp h
    cases e with
    | link target => cases h
    | dir es => cases h
    | file content =>
      obtain ⟨place, target, node⟩ := entry_eq_file.mp he
      refine ⟨place, content, target, node, ?_⟩
      cases hu : String.fromUTF8? content with
      | none => simp only [hu] at h; cases h
      | some read => simp only [hu] at h; cases h; rfl
  · rintro ⟨place, content, target, node, valid⟩
    refine bind_eq_ok.mpr ⟨.file content, entry_eq_file.mpr ⟨place, target, node⟩, ?_⟩
    simp only [valid]
    rfl

/-- Nothing is read otherwise from a path if the node at its place has not changed. -/
theorem readText_toOption {t t' : Tree} (same : SameFrame t.root t'.root) (cwd : t'.cwd = t.cwd)
    {path : String} (kept : ∀ place, t.target? path = some place → t'.node? place = t.node? place) :
    (t'.readText path).toOption = (t.readText path).toOption := by
  have reads : ∀ text, t'.readText path = .ok text ↔ t.readText path = .ok text := by
    intro text
    rw [readText_eq_ok, readText_eq_ok, target?_sameFrame same cwd]
    refine exists_congr fun place => exists_congr fun content => and_congr_right fun target => ?_
    rw [kept place target]
  cases h : t.readText path with
  | ok text => rw [(reads text).mpr h]
  | error e =>
    cases h' : t'.readText path with
    | error e' => rfl
    | ok text =>
      rw [(reads text).mp h'] at h
      cases h

end Tree
end Questionnaire.Files
