import Questionnaire.Proofs.Except
import Questionnaire.Proofs.Files.Node

/-!
How a path leads through a tree. Going on from where a path has led is the same as following the
longer path (`follow_append`), and where a path to a directory leads depends on directories and
links alone (`locate_sameFrame`): files may come, go and change meanwhile.
-/
namespace Questionnaire.Files

namespace Tree.Stop

/-- Further steps, taken where a descent has ended. -/
def extend (more : List Component) (onward : List String → Entry → Stop) : Stop → Stop
  | .found place e => onward place e
  | .missing place n rest => .missing place n (rest ++ more)
  | .linked place target rest => .linked place target (rest ++ more)
  | .failed e => .failed e

/-- What a descent reports is in the tree. -/
def Valid (root : Entry) : Stop → Prop
  | .found place e => root.at? place = some e
  | .missing place n _ => ∃ es, root.at? place = some (.dir es) ∧ (Entry.dir es).child? n = none
  | .linked place target _ => ∃ es n, root.at? place = some (.dir es) ∧
      (Entry.dir es).child? n = some (.link target)
  | .failed _ => True

end Tree.Stop

namespace Tree

theorem descend_valid {root e : Entry} {p : List String} (make : Bool) (cs : List Component)
    (h : root.at? p = some e) : (descend root make p e cs).Valid root := by
  induction cs generalizing p e with
  | nil =>
    rw [descend]
    exact h
  | cons c cs ih =>
    cases e with
    | file content => exact trivial
    | link target => exact trivial
    | dir es =>
      cases c with
      | here => exact ih h
      | slash => exact ih h
      | up =>
        simp only [descend]
        cases hp : root.at? p.dropLast with
        | none => exact trivial
        | some parent => exact ih hp
      | name n =>
        simp only [descend]
        split
        · exact trivial
        · split
          · exact trivial
          · cases hc : (Entry.dir es).child? n with
            | none => exact ⟨es, h, hc⟩
            | some child =>
              have hn : root.at? (p ++ [n]) = some child := by rw [Entry.at?_concat h, hc]
              cases child with
              | link target => exact ⟨es, n, h, hc⟩
              | file content => exact ih hn
              | dir ds => exact ih hn

/-- A longer path is followed from where the shorter one has led. Only a path that ends with a
slash is treated in another way where a file may have to be made. -/
theorem descend_append {make : Bool} {more : List Component}
    (open_ : ∀ rest, rest ++ more = [.slash] → make = false) (root : Entry) (p : List String)
    (e : Entry) (cs : List Component) :
    descend root make p e (cs ++ more) =
      (descend root false p e cs).extend more fun q d => descend root make q d more := by
  induction cs generalizing p e with
  | nil =>
    rw [List.nil_append, descend]
    rfl
  | cons c cs ih =>
    rw [List.cons_append]
    cases e with
    | file content => rfl
    | link target => rfl
    | dir es =>
      cases c with
      | here => exact ih p _
      | slash => exact ih p _
      | up =>
        simp only [descend]
        cases root.at? p.dropLast with
        | none => rfl
        | some parent => exact ih _ parent
      | name n =>
        have unmade : (make && cs ++ more == [.slash]) = false := by
          by_cases hs : cs ++ more = [.slash]
          · simp [open_ cs hs]
          · simp [hs]
        simp only [descend, unmade, Bool.false_and, Bool.false_eq_true, if_false]
        split
        · rfl
        · cases (Entry.dir es).child? n with
          | none => rfl
          | some child =>
            cases child with
            | link target => rfl
            | file content => exact ih _ _
            | dir ds => exact ih _ _

/-- What becomes of a descent when so many links may still be followed. -/
def resume (root : Entry) (make : Bool) : Nat → Stop → Except IoError Found
  | _, .found place e => .ok (.entry place e)
  | _, .missing place n rest => .ok (.missing place n rest)
  | _, .failed e => .error e
  | 0, .linked .. => .error .tooManyLinks
  | links + 1, .linked place target rest =>
    if isAbsolute target then follow root make links [] root (components target ++ rest)
    else match root.at? place with
      | some e => follow root make links place e (components target ++ rest)
      | none => .error .notFound

theorem follow_eq (root : Entry) (make : Bool) (links : Nat) (p : List String) (e : Entry)
    (cs : List Component) :
    follow root make links p e cs = resume root make links (descend root make p e cs) := by
  cases links <;> rw [follow] <;> cases descend root make p e cs <;> rfl

/-- Where a link leads on from: the root, or the directory that it stands in. -/
def Turn (root : Entry) (place : List String) (target : String) (p : List String) (e : Entry) :
    Prop :=
  if isAbsolute target then p = [] ∧ e = root else p = place ∧ root.at? place = some e

theorem Turn.at?_eq {root e : Entry} {place p : List String} {target : String}
    (turn : Turn root place target p e) : root.at? p = some e := by
  rw [Turn] at turn
  split at turn
  · rw [turn.1, turn.2]
    rfl
  · rw [turn.1]
    exact turn.2

theorem exists_turn {root e : Entry} {place : List String} (above : root.at? place = some e)
    (target : String) : ∃ p' e', Turn root place target p' e' := by
  by_cases absolute : isAbsolute target
  · exact ⟨[], root, by rw [Turn, if_pos absolute]; exact ⟨rfl, rfl⟩⟩
  · exact ⟨place, e, by rw [Turn, if_neg absolute]; exact ⟨rfl, above⟩⟩

theorem resume_linked {root e : Entry} {make : Bool} {place p : List String} {target : String}
    (turn : Turn root place target p e) (links : Nat) (rest : List Component) :
    resume root make (links + 1) (.linked place target rest) =
      follow root make links p e (components target ++ rest) := by
  rw [Turn] at turn
  rw [resume]
  split at turn
  · rename_i absolute
    rw [if_pos absolute, turn.1, turn.2]
  · rename_i relative
    rw [if_neg relative, turn.1, turn.2]

/-- A way through links to an entry. -/
inductive Way (root : Entry) (make : Bool) (q : List String) (d : Entry) :
    Nat → List String → Entry → List Component → Prop
  | found {links : Nat} {p : List String} {e : Entry} {cs : List Component} :
      descend root make p e cs = .found q d → Way root make q d links p e cs
  | linked {links : Nat} {p place p' : List String} {e e' : Entry} {target : String}
      {cs rest : List Component} : descend root make p e cs = .linked place target rest →
      Turn root place target p' e' → Way root make q d links p' e' (components target ++ rest) →
      Way root make q d (links + 1) p e cs

theorem follow_eq_entry {root e d : Entry} {make : Bool} {links : Nat} {p q : List String}
    {cs : List Component} :
    follow root make links p e cs = .ok (.entry q d) ↔ Way root make q d links p e cs := by
  constructor
  · intro led
    induction links generalizing p e cs with
    | zero =>
      rw [follow_eq] at led
      cases hd : descend root make p e cs <;> simp only [hd, resume] at led <;> cases led
      exact .found hd
    | succ links ih =>
      rw [follow_eq] at led
      cases hd : descend root make p e cs with
      | found q' d' =>
        simp only [hd, resume] at led
        cases led
        exact .found hd
      | missing q' n rest => simp [hd, resume] at led
      | failed err => simp [hd, resume] at led
      | linked place target rest =>
        have turn : ∃ p' e', Turn root place target p' e' := by
          by_cases absolute : isAbsolute target
          · exact ⟨[], root, by rw [Turn, if_pos absolute]; exact ⟨rfl, rfl⟩⟩
          · simp only [hd, resume, if_neg absolute] at led
            cases hp : root.at? place with
            | none => simp [hp] at led
            | some e' => exact ⟨place, e', by rw [Turn, if_neg absolute]; exact ⟨rfl, hp⟩⟩
        obtain ⟨p', e', turn⟩ := turn
        rw [hd, resume_linked turn] at led
        exact .linked hd turn (ih led)
  · intro way
    induction way with
    | found hd =>
      rw [follow_eq, hd]
      rfl
    | linked hd turn _ ih => rw [follow_eq, hd, resume_linked turn, ih]

theorem follow_append {make : Bool} {more : List Component}
    (open_ : ∀ rest, rest ++ more = [.slash] → make = false) {root e d : Entry} {links : Nat}
    {p q : List String} {cs : List Component}
    (led : follow root false links p e cs = .ok (.entry q d)) :
    ∃ left, left ≤ links ∧
      follow root make links p e (cs ++ more) = follow root make left q d more := by
  induction follow_eq_entry.mp led with
  | @found links p e cs hd =>
    refine ⟨links, Nat.le_refl _, ?_⟩
    rw [follow_eq, descend_append open_, hd]
    exact (follow_eq ..).symm
  | linked hd turn way ih =>
    obtain ⟨left, bound, same⟩ := ih (follow_eq_entry.mpr way)
    refine ⟨left, Nat.le_succ_of_le bound, ?_⟩
    rw [follow_eq, descend_append open_, hd, Stop.extend, resume_linked turn,
      ← List.append_assoc]
    exact same

/-- A slash at the end of a path to a directory can be left out. -/
theorem follow_slash {root e : Entry} {links : Nat} {p q : List String} {cs : List Component}
    {es : Entries} (led : follow root false links p e (cs ++ [.slash]) = .ok (.entry q (.dir es))) :
    follow root false links p e cs = .ok (.entry q (.dir es)) := by
  have open_ : ∀ rest, rest ++ [Component.slash] = [.slash] → false = false := fun _ _ => rfl
  generalize hcs : cs ++ [Component.slash] = slashed at led
  induction follow_eq_entry.mp led generalizing cs with
  | found found =>
    rw [← hcs, descend_append open_] at found
    rw [follow_eq]
    cases hd : descend root false _ _ cs with
    | found q' d' => cases d' <;> simp_all [descend, Stop.extend, resume]
    | missing q' n rest => simp [hd, Stop.extend] at found
    | linked q' target rest => simp [hd, Stop.extend] at found
    | failed err => simp [hd, Stop.extend] at found
  | linked linked turn way ih =>
    rw [← hcs, descend_append open_] at linked
    rw [follow_eq]
    cases hd : descend root false _ _ cs with
    | found q' d' => cases d' <;> simp_all [descend, Stop.extend]
    | missing q' n rest => simp [hd, Stop.extend] at linked
    | failed err => simp [hd, Stop.extend] at linked
    | linked q' target rest =>
      simp only [hd, Stop.extend, Stop.linked.injEq] at linked
      obtain ⟨rfl, rfl, rfl⟩ := linked
      rw [resume_linked turn]
      exact ih (List.append_assoc ..) (follow_eq_entry.mpr way)

end Tree

/-- Directories and links, which lead on. -/
def Entry.Node.leading? : Entry.Node → Option Entry.Node
  | .file _ => none
  | n => some n

/-- The same directories and links at all places, whatever the files. -/
def Entry.SameFrame (root root' : Entry) : Prop :=
  ∀ place, (root.node? place).bind Entry.Node.leading? =
    (root'.node? place).bind Entry.Node.leading?

namespace Entry.SameFrame
variable {root root' : Entry}

theorem dir (h : SameFrame root root') {place : List String} {es : Entries}
    (hd : root.at? place = some (.dir es)) : ∃ ds, root'.at? place = some (.dir ds) := by
  have same := h place
  simp only [node?, hd, Option.map_some, node, Option.bind_some, Node.leading?] at same
  obtain ⟨n, hn, lead⟩ := Option.bind_eq_some_iff.mp same.symm
  obtain ⟨e, he, rfl⟩ := Option.map_eq_some_iff.mp hn
  cases e with
  | dir ds => exact ⟨ds, he⟩
  | file c => cases lead
  | link t => cases lead

theorem link (h : SameFrame root root') {place : List String} {target : String}
    (hl : root.at? place = some (.link target)) : root'.at? place = some (.link target) := by
  have same := h place
  simp only [node?, hl, Option.map_some, node, Option.bind_some, Node.leading?] at same
  obtain ⟨n, hn, lead⟩ := Option.bind_eq_some_iff.mp same.symm
  obtain ⟨e, he, rfl⟩ := Option.map_eq_some_iff.mp hn
  cases e with
  | link t => cases lead; exact he
  | file c => cases lead
  | dir ds => cases lead

end Entry.SameFrame

namespace Tree
open Entry (SameFrame)

theorem descend_sameFrame {root root' : Entry} (same : SameFrame root root') (make : Bool)
    {p : List String} {es es' : Entries} (cs : List Component)
    (hp : root.at? p = some (.dir es)) (hp' : root'.at? p = some (.dir es')) :
    (∀ q ds, descend root make p (.dir es) cs = .found q (.dir ds) →
      ∃ ds', descend root' make p (.dir es') cs = .found q (.dir ds')) ∧
    (∀ q target rest, descend root make p (.dir es) cs = .linked q target rest →
      descend root' make p (.dir es') cs = .linked q target rest) := by
  induction cs generalizing p es es' with
  | nil =>
    simp only [descend, Stop.found.injEq, Entry.dir.injEq]
    refine ⟨?_, by simp⟩
    rintro q ds ⟨rfl, rfl⟩
    exact ⟨es', rfl, rfl⟩
  | cons c cs ih =>
    cases c with
    | here => exact ih hp hp'
    | slash => exact ih hp hp'
    | up =>
      obtain ⟨ds, hd⟩ := Entry.dir_dropLast hp
      obtain ⟨ds', hd'⟩ := same.dir hd
      simp only [descend, hd, hd']
      exact ih hd hd'
    | name n =>
      simp only [descend]
      split
      · simp
      · split
        · simp
        · rw [← Entry.at?_concat hp, ← Entry.at?_concat hp']
          cases hc : root.at? (p ++ [n]) with
          | none => simp
          | some child =>
            cases child with
            | dir ds =>
              obtain ⟨ds', hd'⟩ := same.dir hc
              simp only [hd']
              exact ih hc hd'
            | link target =>
              simp [same.link hc]
            | file content => cases cs <;> simp [descend]

theorem Turn.dir {root e : Entry} {place p : List String} {target : String} {es : Entries}
    (turn : Turn root place target p e) (above : root.at? place = some (.dir es)) :
    ∃ ds, e = .dir ds := by
  rw [Turn] at turn
  split at turn
  · rw [turn.2]
    exact Entry.dir_root above
  · exact ⟨es, Option.some.inj (turn.2.symm.trans above)⟩

theorem Turn.sameFrame {root root' : Entry} (same : SameFrame root root')
    {place p : List String} {target : String} {ds : Entries}
    (turn : Turn root place target p (.dir ds)) : ∃ ds', Turn root' place target p (.dir ds') := by
  obtain ⟨ds', hp'⟩ := same.dir turn.at?_eq
  refine ⟨ds', ?_⟩
  rw [Turn] at turn ⊢
  split at turn
  · rename_i absolute
    rw [if_pos absolute]
    rw [turn.1] at hp'
    exact ⟨turn.1, (Option.some.inj hp').symm⟩
  · rename_i relative
    rw [if_neg relative]
    exact ⟨turn.1, turn.1 ▸ hp'⟩

/-- Where a path to a directory leads does not depend on files. -/
theorem follow_sameFrame {root root' : Entry} (same : SameFrame root root') {make : Bool}
    {links : Nat} {p q : List String} {es es' ds : Entries} {cs : List Component}
    (hp : root.at? p = some (.dir es)) (hp' : root'.at? p = some (.dir es'))
    (led : follow root make links p (.dir es) cs = .ok (.entry q (.dir ds))) :
    ∃ ds', follow root' make links p (.dir es') cs = .ok (.entry q (.dir ds')) := by
  generalize he : Entry.dir es = e at led
  induction follow_eq_entry.mp led generalizing es es' with
  | found hd =>
    subst he
    obtain ⟨ds', found⟩ := (descend_sameFrame same make _ hp hp').1 _ _ hd
    exact ⟨ds', follow_eq_entry.mpr (.found found)⟩
  | @linked links p place p' e e' target cs rest hd turn way ih =>
    subst he
    have linked := (descend_sameFrame same make cs hp hp').2 place target rest hd
    have valid := descend_valid make cs hp
    rw [hd] at valid
    obtain ⟨_, _, above, _⟩ := valid
    obtain ⟨ts, rfl⟩ := turn.dir above
    obtain ⟨ts', turn'⟩ := turn.sameFrame same
    obtain ⟨ds', led'⟩ := ih turn.at?_eq turn'.at?_eq rfl (follow_eq_entry.mpr way)
    exact ⟨ds', follow_eq_entry.mpr (.linked linked turn' (follow_eq_entry.mp led'))⟩

/-- The place from which a path is followed. -/
def start (t : Tree) (path : String) : List String := if isAbsolute path then [] else t.cwd

theorem locate_eq {t : Tree} {path : String} (clean : '\x00' ∉ path.toList) (nonempty : path ≠ "")
    (make : Bool) :
    t.locate path make = match t.root.at? (t.start path) with
      | some e => follow t.root make maxLinks (t.start path) e (components path)
      | none => .error .notFound := by
  have noNul : path.toList.contains '\x00' = false := by simpa using clean
  have notEmpty : path.isEmpty = false := by simpa using nonempty
  simp only [locate, noNul, notEmpty, Bool.false_eq_true, if_false, followFrom, start]
  split <;> rfl

theorem clean_of_locate {t : Tree} {path : String} {make : Bool} {found : Found}
    (h : t.locate path make = .ok found) : '\x00' ∉ path.toList ∧ path ≠ "" := by
  rw [locate] at h
  split at h
  · cases h
  · rename_i clean
    split at h
    · cases h
    · rename_i nonempty
      exact ⟨by simpa using clean, by simpa using nonempty⟩

/-- A path that leads somewhere starts at an entry of the tree. -/
theorem follow_of_locate {t : Tree} {path : String} {make : Bool} {found : Found}
    (h : t.locate path make = .ok found) : ∃ e, t.root.at? (t.start path) = some e ∧
      follow t.root make maxLinks (t.start path) e (components path) = .ok found := by
  obtain ⟨clean, nonempty⟩ := clean_of_locate h
  rw [locate_eq clean nonempty] at h
  cases he : t.root.at? (t.start path) with
  | none => simp [he] at h
  | some e => exact ⟨e, rfl, by simpa [he] using h⟩

/-- Only from a directory a path can lead to a directory. -/
theorem dir_of_follow {root e : Entry} {make : Bool} {links : Nat} {p q : List String}
    {cs : List Component} {ds : Entries}
    (h : follow root make links p e cs = .ok (.entry q (.dir ds))) : ∃ es, e = .dir es := by
  cases e with
  | dir es => exact ⟨es, rfl⟩
  | file content => rw [follow_eq] at h; cases cs <;> simp [descend, resume] at h
  | link target => rw [follow_eq] at h; cases cs <;> simp [descend, resume] at h

theorem follow_place {root e d : Entry} {make : Bool} {links : Nat} {p q : List String}
    {cs : List Component} (he : root.at? p = some e)
    (h : follow root make links p e cs = .ok (.entry q d)) : root.at? q = some d := by
  induction follow_eq_entry.mp h with
  | @found links p e cs hd =>
    have valid := descend_valid make cs he
    rw [hd] at valid
    exact valid
  | linked _ turn way ih => exact ih turn.at?_eq (follow_eq_entry.mpr way)

theorem at?_of_locate {t : Tree} {path : String} {make : Bool} {q : List String} {d : Entry}
    (h : t.locate path make = .ok (.entry q d)) : t.root.at? q = some d := by
  obtain ⟨e, he, led⟩ := follow_of_locate h
  exact follow_place he led

theorem entry_eq_ok {t : Tree} {path : String} {e : Entry} :
    t.entry path = .ok e ↔ ∃ place, t.locate path = .ok (.entry place e) := by
  constructor
  · intro h
    obtain ⟨found, led, h⟩ := bind_eq_ok.mp h
    cases found with
    | missing place n rest => cases h
    | entry place d =>
      cases h
      exact ⟨place, led⟩
  · rintro ⟨place, led⟩
    rw [entry, led]
    rfl

theorem locate_sameFrame {t t' : Tree} (same : SameFrame t.root t'.root) (cwd : t'.cwd = t.cwd)
    {path : String} {q : List String} {ds : Entries}
    (led : t.locate path = .ok (.entry q (.dir ds))) :
    ∃ ds', t'.locate path = .ok (.entry q (.dir ds')) := by
  obtain ⟨clean, nonempty⟩ := clean_of_locate led
  obtain ⟨e, he, hfollow⟩ := follow_of_locate led
  obtain ⟨es, rfl⟩ := dir_of_follow hfollow
  obtain ⟨es', he'⟩ := same.dir he
  have start : t'.start path = t.start path := by simp only [Tree.start, cwd]
  rw [locate_eq clean nonempty, start, he']
  exact follow_sameFrame same he he' hfollow

end Tree
end Questionnaire.Files
