import Questionnaire.Proofs.Files.Output

/-!
Trees of which only the files differ. What a write below a root comes to depends on the directory it
goes to and the name of the file, but not on the other files and their contents: `refusal?` is all
that can be wrong with it, and it is the same in all trees with the same directories and links. So
two such trees (`Twin`) answer a write alike, and stay twins.
-/
namespace Questionnaire.Files
open Entry (SameFrame)

namespace Tree

section Below
variable {t : Tree} {root name : String} {place : List String}

theorem refusal?_sameFrame {s : Tree} (same : SameFrame t.root s.root) :
    s.refusal? place name = t.refusal? place name := by
  have agree : (s.node? (place ++ [name])).any Entry.Node.isDir =
      (t.node? (place ++ [name])).any Entry.Node.isDir := by
    rw [Bool.eq_iff_iff, Entry.any_isDir, Entry.any_isDir]
    exact node?_eq_dir_sameFrame same _
  rw [refusal?, refusal?, agree]

/-- What is written in a directory becomes a file, and was no directory and no link. -/
theorem sameFrame_put (leads : t.outputPlace? root = some place) (unlinked : t.Unlinked root)
    (accepted : t.refusal? place name = none) (c : ByteArray) :
    SameFrame t.root (t.put (place ++ [name]) (.file c)).root :=
  (frame_put leads unlinked (refusal?_eq_none.mp accepted).2.2 c).1

end Below

/-- The same directories and links, and no difference at all where nothing can be written. -/
structure Twin (root : String) (t s : Tree) : Prop where
  frame : SameFrame t.root s.root
  cwd : s.cwd = t.cwd
  idle : t.outputPlace? root = none → s = t

namespace Twin
variable {root : String} {t s u : Tree}

theorem refl : Twin root t t := ⟨fun _ => rfl, rfl, fun _ => rfl⟩

theorem outputPlace? (h : Twin root t s) : s.outputPlace? root = t.outputPlace? root :=
  outputPlace?_sameFrame h.frame h.cwd root

theorem unlinked (h : Twin root t s) (free : t.Unlinked root) : s.Unlinked root :=
  unlinked_sameFrame h.frame h.cwd free

theorem symm (h : Twin root t s) : Twin root s t := by
  refine ⟨h.frame.symm, h.cwd.symm, fun idle => ?_⟩
  rw [h.outputPlace?] at idle
  exact (h.idle idle).symm

theorem trans (first : Twin root t s) (second : Twin root s u) : Twin root t u := by
  refine ⟨first.frame.trans second.frame, second.cwd.trans first.cwd, fun idle => ?_⟩
  rw [← first.outputPlace?] at idle
  rw [second.idle idle]
  rw [first.outputPlace?] at idle
  exact first.idle idle

theorem put {name : String} {place : List String} (free : t.Unlinked root)
    (leads : t.outputPlace? root = some place) (accepted : t.refusal? place name = none)
    (c : ByteArray) : Twin root t (t.put (place ++ [name]) (.file c)) := by
  refine ⟨sameFrame_put leads free accepted c, rfl, fun idle => ?_⟩
  rw [leads] at idle
  cases idle

end Twin
end Tree
end Questionnaire.Files
