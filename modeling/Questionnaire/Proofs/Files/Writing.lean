import Questionnaire.Proofs.Files.Target

/-!
Writing to any path. A path that is written to stands for one place, at which there is a file or
nothing, links to it having been followed (`writeFile_place`). After the write the path leads to a
file with what was written, and all other places are as they were (`Filled`).
-/
namespace Questionnaire.Files
open Entry (SameFrame)

namespace Tree

section Follow
variable {root e : Entry} {p : List String} {cs : List Component}

/-- On the way to a file that may have to be made only a slash at the end is treated in another
way. -/
theorem descend_make (root : Entry) (p : List String) (e : Entry) (cs : List Component) :
    descend root true p e cs = descend root false p e cs ∨
      descend root true p e cs = .failed .isDirectory := by
  induction cs generalizing p e with
  | nil => exact Or.inl rfl
  | cons c cs ih =>
    cases e with
    | file content => exact Or.inl rfl
    | link target => exact Or.inl rfl
    | dir es =>
      cases c with
      | here => exact ih p _
      | slash => exact ih p _
      | up =>
        simp only [descend]
        cases root.at? p.dropLast with
        | none => exact Or.inl rfl
        | some parent => exact ih _ parent
      | name n =>
        by_cases slashed : cs = [.slash]
        · exact Or.inr (by simp [descend, slashed])
        · simp only [descend, slashed, Bool.true_and, Bool.false_and, beq_iff_eq, if_false,
            Bool.false_eq_true]
          split
          · exact Or.inl rfl
          · cases (Entry.dir es).child? n with
            | none => exact Or.inl rfl
            | some child =>
              cases child with
              | link target => exact Or.inl rfl
              | file content => exact ih _ _
              | dir ds => exact ih _ _

theorem follow_make {links : Nat} {found : Found}
    (led : follow root true links p e cs = .ok found) :
    follow root false links p e cs = .ok found := by
  induction links using Nat.strongRecOn generalizing p e cs with
  | ind links ih =>
    rw [follow_eq] at led ⊢
    rcases descend_make root p e cs with same | failed
    · rw [same] at led
      cases hd : descend root false p e cs with
      | found place d => rw [hd] at led; exact led
      | missing place n rest => rw [hd] at led; exact led
      | failed err => rw [hd] at led; cases led
      | linked place target rest =>
        rw [hd] at led
        cases links with
        | zero => cases led
        | succ links =>
          by_cases absolute : isAbsolute target
          · rw [resume, if_pos absolute] at led ⊢
            exact ih links (Nat.lt_succ_self links) led
          · rw [resume, if_neg absolute] at led ⊢
            cases above : root.at? place with
            | none => rw [above] at led; cases led
            | some e' =>
              rw [above] at led
              exact ih links (Nat.lt_succ_self links) led
    · rw [failed] at led
      cases led

/-- Links that stand on a way are followed. -/
theorem descend_unlinked {make : Bool} {q : List String} {d : Entry} (he : root.at? p = some e)
    (start : cs = [] → ∀ target, e ≠ .link target)
    (found : descend root make p e cs = .found q d) : ∀ target, d ≠ .link target := by
  induction cs generalizing p e with
  | nil =>
    cases found
    exact start rfl
  | cons c cs ih =>
    cases e with
    | file content => cases found
    | link target => cases found
    | dir es =>
      cases c with
      | here => exact ih he (fun _ _ => Entry.noConfusion) found
      | slash => exact ih he (fun _ _ => Entry.noConfusion) found
      | up =>
        obtain ⟨ds, above⟩ := Entry.dir_dropLast he
        simp only [descend, above] at found
        exact ih above (fun _ _ => Entry.noConfusion) found
      | name n =>
        simp only [descend] at found
        split at found
        · cases found
        · split at found
          · cases found
          · cases hc : (Entry.dir es).child? n with
            | none => rw [hc] at found; cases found
            | some child =>
              have hn : root.at? (p ++ [n]) = some child := by rw [Entry.at?_concat he, hc]
              rw [hc] at found
              cases child with
              | link target => cases found
              | file content => exact ih hn (fun _ _ => Entry.noConfusion) found
              | dir ds => exact ih hn (fun _ _ => Entry.noConfusion) found

theorem follow_unlinked {make : Bool} {links : Nat} {q : List String} {d : Entry}
    (he : root.at? p = some e) (start : cs = [] → ∀ target, e ≠ .link target)
    (led : follow root make links p e cs = .ok (.entry q d)) : ∀ target, d ≠ .link target := by
  induction follow_eq_entry.mp led with
  | found hd => exact descend_unlinked he start hd
  | @linked links p place p' e e' target cs rest hd turn way ih =>
    have valid := descend_valid make cs he
    rw [hd] at valid
    obtain ⟨es, _, above, _⟩ := valid
    obtain ⟨ds, rfl⟩ := turn.dir above
    exact ih turn.at?_eq (fun _ _ => Entry.noConfusion) (follow_eq_entry.mpr way)

end Follow

variable {t after : Tree} {path : String}

theorem locate_make {found : Found} (led : t.locate path true = .ok found) :
    t.locate path = .ok found := by
  obtain ⟨clean, nonempty⟩ := clean_of_locate led
  obtain ⟨e, he, follows⟩ := follow_of_locate led
  rw [locate_eq clean nonempty, he]
  exact follow_make follows

/-- In a tree with a directory at its root no path leads to a link. -/
theorem locate_unlinked (rooted : t.root.isDir) {make : Bool} {place : List String} {d : Entry}
    (led : t.locate path make = .ok (.entry place d)) : ∀ target, d ≠ .link target := by
  obtain ⟨_, nonempty⟩ := clean_of_locate led
  obtain ⟨e, he, follows⟩ := follow_of_locate led
  refine follow_unlinked he (fun none target => ?_) follows
  rintro rfl
  -- Without steps it is the path of the root.
  by_cases absolute : isAbsolute path
  · rw [start, if_pos absolute] at he
    rw [Option.some.inj he] at rooted
    cases rooted
  · exact components_ne_nil (by simpa using absolute) nonempty none

/-- The tree before and after a file has been given its content, at whose place there was a file or
nothing. -/
structure Filled (t after : Tree) (place : List String) (content : ByteArray) : Prop where
  before : ∀ n, t.node? place = some n → ∃ old, n = .file old
  there : after.node? place = some (.file content)
  others : ∀ q, q ≠ place → after.node? q = t.node? q
  cwd : after.cwd = t.cwd

namespace Filled
variable {place : List String} {content : ByteArray} (h : Filled t after place content)
include h

theorem sameFrame : SameFrame t.root after.root := by
  intro q
  change (t.node? q).bind Entry.Node.leading? = (after.node? q).bind Entry.Node.leading?
  by_cases here : q = place
  · rw [here, h.there]
    cases hn : t.node? place with
    | none => rfl
    | some n =>
      obtain ⟨old, rfl⟩ := h.before n hn
      rfl
  · rw [h.others q here]

theorem locate_eq (target : t.target? path = some place) :
    after.locate path = .ok (.entry place (.file content)) := by
  obtain ⟨e, he, hnode⟩ := Option.map_eq_some_iff.mp h.there
  cases e with
  | dir es => cases hnode
  | link target => cases hnode
  | file c =>
    cases hnode
    exact locate_of_target? ((target?_sameFrame h.sameFrame h.cwd path).trans target) he

end Filled

theorem filled_put {place : List String} {n : String} {es : Entries} {content : ByteArray}
    (parent : t.root.at? place = some (.dir es))
    (leaf : ∀ d, (Entry.dir es).child? n = some d → d.isFile) :
    Filled t (t.put (place ++ [n]) (.file content)) (place ++ [n]) content := by
  have node := node?_put_file parent leaf content
  exact ⟨fun m hm => node?_leaf parent leaf hm, by rw [node, if_pos rfl],
    fun q other => by rw [node, if_neg other], rfl⟩

/-- A write that succeeds gives the file at the place of its path the new content. -/
theorem writeFile_place (rooted : t.root.isDir) {content : ByteArray}
    (h : t.writeFile path content = .ok after) :
    ∃ place, t.target? path = some place ∧ Filled t after place content := by
  obtain ⟨found, led, h⟩ := bind_eq_ok.mp h
  have target : t.target? path = found.target? := by
    rw [target?, locate_make led]
    rfl
  rw [target]
  cases found with
  | missing place n rest =>
    cases rest with
    | cons c rest => cases h
    | nil =>
      cases h
      obtain ⟨e, he, follows⟩ := follow_of_locate led
      obtain ⟨es, parent, absent⟩ := dir_of_follow_missing he follows
      refine ⟨place ++ [n], rfl, filled_put parent fun d hd => ?_⟩
      rw [absent] at hd
      cases hd
  | entry place d =>
    have there := at?_of_locate led
    cases d with
    | dir es => cases h
    | link other => exact absurd rfl (locate_unlinked rooted led other)
    | file old =>
      cases h
      rcases List.eq_nil_or_concat place with rfl | ⟨above, n, rfl⟩
      · rw [Option.some.inj there] at rooted
        cases rooted
      · rw [List.concat_eq_append] at there ⊢
        obtain ⟨es, parent⟩ := Entry.dir_of_at?_append there
        refine ⟨above ++ [n], rfl, filled_put parent fun d hd => ?_⟩
        rw [Entry.at?_concat parent, hd] at there
        rw [Option.some.inj there]
        rfl

end Tree
end Questionnaire.Files
