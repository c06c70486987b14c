/-! Results of programs that may fail, one by one and in lists. -/
namespace Questionnaire
variable {ε ε' α β : Type}

theorem bind_eq_ok {x : Except ε α} {f : α → Except ε β} {b : β} :
    x >>= f = .ok b ↔ ∃ a, x = .ok a ∧ f a = .ok b := by
  cases x with
  | error e =>
    constructor
    · intro h
      cases h
    · rintro ⟨a, h, _⟩
      cases h
  | ok a =>
    constructor
    · intro h
      exact ⟨a, rfl, h⟩
    · rintro ⟨a', h, hb⟩
      cases h
      exact hb

theorem bind_eq_error {x : Except ε α} {f : α → Except ε β} {e : ε} :
    x >>= f = .error e ↔ x = .error e ∨ ∃ a, x = .ok a ∧ f a = .error e := by
  cases x with
  | error e' =>
    constructor
    · intro h
      cases h
      exact .inl rfl
    · rintro (h | ⟨_, h, _⟩)
      · cases h
        rfl
      · cases h
  | ok a =>
    constructor
    · intro h
      exact .inr ⟨a, rfl, h⟩
    · rintro (h | ⟨a', h, he⟩)
      · cases h
      · cases h
        exact he

theorem mapError_eq_ok {x : Except ε α} {g : ε → ε'} {a : α} :
    x.mapError g = .ok a ↔ x = .ok a := by
  cases x with
  | error e =>
    constructor
    · intro h
      cases h
    · intro h
      cases h
  | ok b =>
    constructor
    · intro h
      cases h
      rfl
    · intro h
      cases h
      rfl

theorem eq_ok_of_toOption {r : Except ε α} {a : α} (h : r.toOption = some a) : r = .ok a := by
  cases r with
  | ok b => exact congrArg Except.ok (Option.some.inj h)
  | error e => cases h

theorem filterMap_toOption_length (rs : List (Except ε α)) :
    (rs.filterMap Except.toOption).length = rs.countP (·.isOk) := by
  induction rs with
  | nil => rfl
  | cons r rs ih =>
    cases r with
    | ok a => simpa [Except.toOption, Except.isOk, Except.toBool] using ih
    | error e => simpa [List.filterMap_cons, Except.toOption, Except.isOk, Except.toBool] using ih

theorem countP_isOk_add (rs : List (Except ε α)) :
    rs.countP (·.isOk) + rs.countP (!·.isOk) = rs.length := by
  rw [List.length_eq_countP_add_countP (p := (·.isOk)) (l := rs)]
  simp

end Questionnaire
