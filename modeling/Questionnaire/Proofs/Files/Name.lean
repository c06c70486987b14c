import Questionnaire.Files.Path

/-!
Names behind a path. The steps of a path with a name behind it are the steps of the path and then
that name, whether a slash stands between the two already or not.
-/
namespace Questionnaire.Files

/-- A text that stands for one step of a path. -/
structure IsName (name : String) : Prop where
  nonempty : name ≠ ""
  notHere : name ≠ "."
  notUp : name ≠ ".."
  single : '/' ∉ name.toList

/-- The steps of a path without a slash at its end. -/
def steps (path : String) : List Component :=
  ((splitPath path.toList).filter (!·.isEmpty)).map fun cs => Component.ofText (String.ofList cs)

theorem splitPath_ne_nil (cs : List Char) : splitPath cs ≠ [] := by
  cases cs with
  | nil => simp [splitPath]
  | cons c cs =>
    rw [splitPath]
    split
    · simp
    · split <;> simp

theorem splitPath_slash (cs ds : List Char) :
    splitPath (cs ++ '/' :: ds) = splitPath cs ++ splitPath ds := by
  induction cs with
  | nil => simp [splitPath]
  | cons c cs ih =>
    rw [List.cons_append, splitPath, splitPath, ih]
    split
    · rfl
    · cases h : splitPath cs with
      | nil => exact absurd h (splitPath_ne_nil cs)
      | cons part parts => rfl

theorem splitPath_single {cs : List Char} (h : '/' ∉ cs) : splitPath cs = [cs] := by
  induction cs with
  | nil => rfl
  | cons c cs ih =>
    have hc : c ≠ '/' := by
      rintro rfl
      exact h List.mem_cons_self
    rw [splitPath, if_neg hc, ih fun hm => h (List.mem_cons_of_mem _ hm)]

theorem components_eq (path : String) :
    components path = steps path ∨ components path = steps path ++ [.slash] := by
  rw [components]
  split
  · exact Or.inr rfl
  · exact Or.inl rfl

namespace IsName
variable {name : String}

theorem relative (h : IsName name) : isAbsolute name = false := by
  rw [isAbsolute]
  cases hcs : name.toList with
  | nil => rfl
  | cons c cs =>
    have hc : c ≠ '/' := by
      rintro rfl
      exact h.single (hcs ▸ List.mem_cons_self)
    simp [hc]

theorem steps_eq (h : IsName name) : steps name = [.name name] := by
  have filled : name.toList.isEmpty = false := by simpa using h.nonempty
  have component : Component.ofText name = .name name := by
    rw [Component.ofText, if_neg h.notHere, if_neg h.notUp]
  rw [steps, splitPath_single h.single]
  simp [filled, component]

theorem components_eq (h : IsName name) : components name = [.name name] := by
  have filled : name.toList ≠ [] := by simpa using h.nonempty
  have last : name.toList.getLast filled ≠ '/' := fun slash =>
    h.single (slash ▸ List.getLast_mem filled)
  have unslashed : endsInSlash name = false := by
    simp [endsInSlash, List.getLast?_eq_some_getLast filled, last]
  rw [components, unslashed]
  exact h.steps_eq

theorem joinPath_empty (h : IsName name) : joinPath "" name = name := by
  rw [joinPath, h.relative]
  rfl

end IsName

section Join
variable {root name : String}

theorem toList_joinPath (hname : IsName name) (hroot : root ≠ "") :
    ∃ cs, (joinPath root name).toList = cs ++ '/' :: name.toList ∧
      (root.toList = cs ∨ root.toList = cs ++ ['/']) := by
  have nonempty : root.isEmpty = false := by simpa using hroot
  rw [joinPath, hname.relative, nonempty]
  by_cases hslash : endsInSlash root
  · obtain ⟨cs, hcs⟩ := List.getLast?_eq_some_iff.mp (by simpa [endsInSlash] using hslash)
    exact ⟨cs, by simp [hslash, hcs], Or.inr hcs⟩
  · exact ⟨root.toList, by simp [hslash], Or.inl rfl⟩

theorem steps_joinPath (hname : IsName name) (hroot : root ≠ "") :
    steps (joinPath root name) = steps root ++ [.name name] := by
  obtain ⟨cs, joined, hcs⟩ := toList_joinPath hname hroot
  have filled : name.toList.isEmpty = false := by simpa using hname.nonempty
  have component : Component.ofText name = .name name := by
    rw [Component.ofText, if_neg hname.notHere, if_neg hname.notUp]
  have before : steps root =
      ((splitPath cs).filter (!·.isEmpty)).map fun cs => Component.ofText (String.ofList cs) := by
    rcases hcs with h | h
    · rw [steps, h]
    · rw [steps, h, splitPath_slash]
      simp [splitPath]
  rw [before, steps, joined, splitPath_slash, splitPath_single hname.single]
  simp [filled, component]

theorem components_joinPath (hname : IsName name) (hroot : root ≠ "") :
    components (joinPath root name) = steps root ++ [.name name] := by
  obtain ⟨cs, joined, _⟩ := toList_joinPath hname hroot
  have unslashed : endsInSlash (joinPath root name) = false := by
    rw [endsInSlash, joined]
    have filled : name.toList ≠ [] := by simpa using hname.nonempty
    have last : name.toList.getLast filled ≠ '/' := fun h =>
      hname.single (h ▸ List.getLast_mem filled)
    simp [List.getLast?_cons, List.getLast?_eq_some_getLast filled, last]
  rw [components, unslashed]
  exact steps_joinPath hname hroot

theorem isAbsolute_joinPath (hname : IsName name) (hroot : root ≠ "") :
    isAbsolute (joinPath root name) = isAbsolute root := by
  obtain ⟨cs, joined, hcs⟩ := toList_joinPath hname hroot
  have filled : root.toList ≠ [] := by simpa using hroot
  rw [isAbsolute, isAbsolute, joined]
  rcases hcs with h | h
  · rw [h] at filled ⊢
    cases cs with
    | nil => exact absurd rfl filled
    | cons c cs => rfl
  · rw [h]
    simp

theorem nul_mem_joinPath (hname : IsName name) (hroot : root ≠ "") :
    '\x00' ∈ (joinPath root name).toList ↔ '\x00' ∈ root.toList ∨ '\x00' ∈ name.toList := by
  obtain ⟨cs, joined, hcs⟩ := toList_joinPath hname hroot
  rw [joined]
  rcases hcs with h | h <;> simp [h]

end Join
end Questionnaire.Files
