import Questionnaire.Yaml.Value

/-!
The characters of the text of a number: digits, a sign, a point, and the letters of an exponent and
of the three words for what is not finite. There is always one that is no point (`HasMark`), so no number
reads like a step of a path to the same directory or to the one above.
-/
namespace Questionnaire

def isNumeric (c : Char) : Bool := c.isDigit || ['-', '.', 'e', 'i', 'n', 'f', 'a'].contains c

/-- All characters are those of numbers. -/
def Numeric (cs : List Char) : Prop := ∀ c ∈ cs, isNumeric c

instance (cs : List Char) : Decidable (Numeric cs) :=
  decidable_of_iff (cs.all isNumeric) List.all_eq_true

namespace Numeric
variable {cs ds : List Char}

theorem append (hcs : Numeric cs) (hds : Numeric ds) : Numeric (cs ++ ds) := by
  intro c hc
  rcases List.mem_append.mp hc with h | h
  · exact hcs c h
  · exact hds c h

theorem sublist (hds : Numeric ds) (h : cs.Sublist ds) : Numeric cs :=
  fun c hc => hds c (h.subset hc)

theorem toDigits (n : Nat) : Numeric (Nat.toDigits 10 n) := by
  intro c hc
  have digit : c.isDigit := Nat.isDigit_of_mem_toDigits (by decide) (by decide) hc
  simp [isNumeric, digit]

theorem zeros (n : Nat) : Numeric (List.replicate n '0') := by
  intro c hc
  rw [List.eq_of_mem_replicate hc]
  decide

theorem nat (n : Nat) : Numeric n.repr.toList := by
  rw [Nat.toList_repr]
  exact toDigits n

theorem int (n : Int) : Numeric (toString n).toList := by
  rw [Int.toString_eq_repr, Int.repr_eq_if]
  split
  · exact nat n.toNat
  · rw [String.toList_append]
    exact append (by decide) (nat (-n).toNat)

end Numeric

theorem Scientific.numeric_text (s : Scientific) : Numeric s.text.toList := by
  have taken : ∀ n, Numeric ((Nat.toDigits 10 s.digits).take n) := fun n =>
    (Numeric.toDigits s.digits).sublist (List.take_sublist n _)
  have front : ∀ n k, Numeric (((Nat.toDigits 10 s.digits).take n).take k) := fun n k =>
    (taken n).sublist (List.take_sublist k _)
  have rest : ∀ n k, Numeric (((Nat.toDigits 10 s.digits).take n).drop k) := fun n k =>
    (taken n).sublist (List.drop_sublist k _)
  simp only [text]
  split
  · simp only [String.toList_append, String.toList_ofList]
    exact Numeric.append (by decide) (Numeric.append (Numeric.zeros _) (taken _))
  · split
    · split
      · simp only [String.toList_append, String.toList_ofList]
        exact Numeric.append (Numeric.append (taken _) (Numeric.zeros _)) (by decide)
      · simp only [String.toList_append, String.toList_ofList]
        exact Numeric.append (Numeric.append (front _ _) (by decide)) (rest _ _)
    · simp only [String.toList_append, String.toList_ofList]
      refine Numeric.append (Numeric.append (Numeric.append (front _ _) ?_) (by decide))
        (Numeric.int _)
      split
      · decide
      · simp only [String.toList_append, String.toList_ofList]
        exact Numeric.append (by decide) (rest _ _)

theorem Binary64.numeric_text (x : Binary64) : Numeric x.text.toList := by
  cases x with
  | nan => decide
  | infinite negative => cases negative <;> decide
  | finite negative m e canonical =>
    rw [text, String.toList_append]
    refine Numeric.append ?_ ?_
    · cases negative <;> decide
    · split
      · decide
      · exact Scientific.numeric_text _

theorem Yaml.Number.numeric_text (n : Yaml.Number) : Numeric n.text.toList := by
  cases n with
  | int n => exact Numeric.int n
  | float x => exact x.numeric_text

/-- Some character is not a point. -/
def HasMark (cs : List Char) : Prop := ∃ c ∈ cs, c ≠ '.'

namespace HasMark
variable {cs ds : List Char}

theorem left (h : HasMark cs) (ds : List Char) : HasMark (cs ++ ds) := by
  obtain ⟨c, hc, mark⟩ := h
  exact ⟨c, List.mem_append_left ds hc, mark⟩

theorem right (cs : List Char) (h : HasMark ds) : HasMark (cs ++ ds) := by
  obtain ⟨c, hc, mark⟩ := h
  exact ⟨c, List.mem_append_right cs hc, mark⟩

theorem of_digits {n : Nat} (nonempty : cs ≠ []) (digits : cs ⊆ Nat.toDigits 10 n) :
    HasMark cs := by
  obtain ⟨c, rest, rfl⟩ := List.exists_cons_of_ne_nil nonempty
  have digit : c.isDigit :=
    Nat.isDigit_of_mem_toDigits (by decide) (by decide) (digits List.mem_cons_self)
  refine ⟨c, List.mem_cons_self, ?_⟩
  rintro rfl
  exact absurd digit (by decide)

theorem ne_points (h : HasMark cs) (n : Nat) : cs ≠ List.replicate n '.' := by
  rintro rfl
  obtain ⟨c, hc, mark⟩ := h
  exact mark (List.eq_of_mem_replicate hc)

theorem int (n : Int) : HasMark (toString n).toList := by
  have nat (k : Nat) : HasMark k.repr.toList := by
    rw [Nat.toList_repr]
    exact of_digits Nat.toDigits_ne_nil (List.Subset.refl _)
  rw [Int.toString_eq_repr, Int.repr_eq_if]
  split
  · exact nat n.toNat
  · rw [String.toList_append]
    exact right _ (nat (-n).toNat)

end HasMark

theorem Scientific.hasMark_text (s : Scientific) : HasMark s.text.toList := by
  have zero : HasMark "0.".toList := ⟨'0', by decide, by decide⟩
  have exponent : HasMark "e".toList := ⟨'e', by decide, by decide⟩
  simp only [text]
  split
  · rw [String.toList_append]
    exact zero.left _
  · split
    · rename_i positive
      split
      · rw [String.toList_append]
        exact HasMark.right _ ⟨'0', by decide, by decide⟩
      · -- There are digits before the point.
        rename_i more
        simp only [String.toList_append, String.toList_ofList]
        refine (HasMark.left (HasMark.of_digits (n := s.digits) ?_ ?_) _).left _
        · rw [ne_eq, List.take_eq_nil_iff]
          rintro (none | none)
          · omega
          · rw [none] at more
            exact more (Nat.zero_le _)
        · exact fun c hc => List.mem_of_mem_take (List.mem_of_mem_take hc)
    · simp only [String.toList_append]
      exact (HasMark.right _ exponent).left _

theorem Binary64.hasMark_text (x : Binary64) : HasMark x.text.toList := by
  cases x with
  | nan => exact ⟨'n', by decide, by decide⟩
  | infinite negative => exact ⟨'i', by cases negative <;> decide, by decide⟩
  | finite negative m e canonical =>
    rw [text, String.toList_append]
    refine HasMark.right _ ?_
    split
    · exact ⟨'0', by decide, by decide⟩
    · exact Scientific.hasMark_text _

theorem Yaml.Number.hasMark_text (n : Yaml.Number) : HasMark n.text.toList := by
  cases n with
  | int n => exact HasMark.int n
  | float x => exact x.hasMark_text

end Questionnaire
