import Questionnaire.Yaml.Value

/-!
Lists of entries under the operations of a mapping. What an operation does to the order and the
number of entries is told by their keys, so it does not matter what stands at them (`Keywise`), and
the two ways to take an entry away differ only in the entries behind it (`swapErase_append`). To take
away or put in a string leaves all other keys with what is at them (`find?_erase_str`,
`find?_insert_str`). A search through any list is told by what it passes and what it finds (`Finds`).
-/
namespace Questionnaire.Yaml

theorem same_str {s : String} {v : Value} : (Value.str s).same v ↔ v = .str s := by
  cases v with
  | str t => simp only [Value.same, beq_iff_eq, Value.str.injEq]; exact eq_comm
  | _ => simp [Value.same]

theorem str_same {s : String} {v : Value} : v.same (.str s) ↔ v = .str s := by
  cases v <;> simp [Value.same]

/-- The last one first, then the others in their order. -/
def lastFirst {γ : Type} (l : List γ) : List γ :=
  match l.getLast? with
  | some last => last :: l.dropLast
  | none => []

theorem lastFirst_concat {γ : Type} (l : List γ) (last : γ) :
    lastFirst (l ++ [last]) = last :: l := by
  rw [lastFirst, List.getLast?_concat, List.dropLast_concat]

theorem lastFirst_perm {γ : Type} (l : List γ) : (lastFirst l).Perm l := by
  rcases List.eq_nil_or_concat l with rfl | ⟨rest, last, rfl⟩
  · exact .nil
  · rw [List.concat_eq_append, lastFirst_concat]
    exact (List.perm_append_singleton last rest).symm

theorem map_lastFirst {γ δ : Type} (f : γ → δ) (l : List γ) :
    (lastFirst l).map f = lastFirst (l.map f) := by
  rcases List.eq_nil_or_concat l with rfl | ⟨rest, last, rfl⟩
  · rfl
  · rw [List.concat_eq_append, lastFirst_concat, List.map_append, List.map_singleton,
      lastFirst_concat, List.map_cons]

/-- Going through a list, one finds what is looked for and has passed all that stands before it. -/
def Finds {γ : Type} (passed found : γ → Prop) (l : List γ) : Prop :=
  ∃ before x behind, l = before ++ x :: behind ∧ (∀ b ∈ before, passed b) ∧ found x

section Finds
variable {γ : Type} {passed found : γ → Prop} {x : γ} {l m : List γ}

theorem finds_nil : ¬ Finds passed found [] := by
  rintro ⟨before, x, behind, split, _⟩
  exact List.append_ne_nil_of_right_ne_nil before (List.cons_ne_nil x behind) split.symm

theorem finds_cons : Finds passed found (x :: l) ↔ found x ∨ passed x ∧ Finds passed found l := by
  constructor
  · rintro ⟨before, y, behind, split, earlier, there⟩
    cases before with
    | nil =>
      obtain ⟨rfl, rfl⟩ := List.cons.inj split
      exact .inl there
    | cons first before =>
      obtain ⟨rfl, rest⟩ := List.cons.inj split
      rw [List.forall_mem_cons] at earlier
      exact .inr ⟨earlier.1, before, y, behind, rest, earlier.2, there⟩
  · rintro (there | ⟨first, before, y, behind, rfl, earlier, there⟩)
    · refine ⟨[], x, l, rfl, ?_, there⟩
      intro b hb
      cases hb
    · exact ⟨x :: before, y, behind, rfl, List.forall_mem_cons.mpr ⟨first, earlier⟩, there⟩

theorem finds_append : Finds passed found (l ++ m) ↔
    Finds passed found l ∨ (∀ a ∈ l, passed a) ∧ Finds passed found m := by
  induction l with
  | nil => simp [finds_nil]
  | cons x l ih =>
    rw [List.cons_append, finds_cons, finds_cons, ih, List.forall_mem_cons, and_or_left,
      ← or_assoc, and_assoc]

theorem Finds.exists_mem (h : Finds passed found l) : ∃ x ∈ l, found x := by
  obtain ⟨before, x, behind, rfl, _, there⟩ := h
  exact ⟨x, List.mem_append_cons_self, there⟩

end Finds

namespace Mapping
variable {α β : Type} {key : Value}

/-- No entry has the key of an earlier one. -/
def Distinct (es : List (Value × α)) : Prop := es.Pairwise fun e f => f.1.same e.1 = false

theorem distinct_iff_keys {es : List (Value × α)} :
    Distinct es ↔ (es.map Prod.fst).Pairwise fun k l => l.same k = false := by
  rw [Distinct, List.pairwise_map]

/-- A change of what stands at the keys. -/
def rekeep (h : Value × α → β) (e : Value × α) : Value × β := (e.1, h e)

theorem contains_map (h : Value × α → β) (es : List (Value × α)) :
    contains key (es.map (rekeep h)) = contains key es := by
  simp only [contains, List.any_map]
  rfl

theorem contains_str {s : String} {es : List (Value × α)} :
    contains (.str s) es ↔ .str s ∈ es.map Prod.fst := by
  simp only [contains, List.any_eq_true, same_str, List.mem_map]

theorem find?_eq_none {es : List (Value × α)} :
    find? key es = none ↔ contains key es = false := by
  simp [find?, contains]

theorem find?_cons (k : Value) (e : Value × α) (es : List (Value × α)) :
    find? k (e :: es) = if k.same e.1 then some e.2 else find? k es := by
  rw [find?, List.find?_cons]
  cases k.same e.1 <;> rfl

theorem contains_eq_isSome (k : Value) (es : List (Value × α)) :
    contains k es = (find? k es).isSome := by
  cases found : find? k es with
  | none => exact find?_eq_none.mp found
  | some v =>
    rw [Option.isSome_some, ← Bool.not_eq_false, ← find?_eq_none, found]
    exact Option.some_ne_none v

theorem contains_cons (k : Value) (e : Value × α) (es : List (Value × α)) :
    contains k (e :: es) = (k.same e.1 || contains k es) := rfl

theorem contains_append (es fs : List (Value × α)) :
    contains key (es ++ fs) = (contains key es || contains key fs) := List.any_append

theorem find?_append_cons {before behind : List (Value × α)} {e : Value × α}
    (absent : contains key before = false) (found : key.same e.1) :
    find? key (before ++ e :: behind) = some e.2 := by
  induction before with
  | nil => rw [List.nil_append, find?_cons, if_pos found]
  | cons f before ih =>
    rw [contains_cons, Bool.or_eq_false_iff] at absent
    rw [List.cons_append, find?_cons, absent.1]
    exact ih absent.2

theorem Distinct.find?_of_mem {es : List (Value × α)} (distinct : Distinct es) {e : Value × α}
    (he : e ∈ es) (reflexive : e.1.same e.1) : find? e.1 es = some e.2 := by
  obtain ⟨before, behind, rfl⟩ := List.append_of_mem he
  obtain ⟨_, _, apart⟩ := List.pairwise_append.mp distinct
  refine find?_append_cons (List.any_eq_false.mpr fun x hx => ?_) reflexive
  simp [apart x hx e List.mem_cons_self]

theorem Distinct.concat {es : List (Value × α)} {e : Value × α} (distinct : Distinct es)
    (absent : contains e.1 es = false) : Distinct (es ++ [e]) := by
  refine List.pairwise_append.mpr ⟨distinct, List.pairwise_singleton _ _, fun f hf g hg => ?_⟩
  obtain rfl := List.mem_singleton.mp hg
  simpa using List.any_eq_false.mp absent f hf

theorem insert_absent {es : List (Value × α)} {v : α} (absent : contains key es = false) :
    insert key v es = es ++ [(key, v)] := by
  induction es with
  | nil => rfl
  | cons e es ih =>
    rw [contains_cons, Bool.or_eq_false_iff] at absent
    rw [insert, absent.1, ih absent.2]
    rfl

/-- To put in what is there already changes nothing. -/
theorem insert_present {es : List (Value × α)} {v : α} (found : find? key es = some v) :
    insert key v es = es := by
  induction es with
  | nil => cases found
  | cons e es ih =>
    rw [find?_cons] at found
    rw [insert]
    split at found
    · rename_i same
      obtain rfl := Option.some.inj found
      rw [if_pos same]
    · rename_i apart
      rw [if_neg apart, ih found]

theorem mem_insert {es : List (Value × α)} {v : α} {e : Value × α} (he : e ∈ insert key v es) :
    e.2 = v ∨ e ∈ es := by
  induction es with
  | nil =>
    obtain rfl := List.mem_singleton.mp he
    exact Or.inl rfl
  | cons f es ih =>
    rw [insert] at he
    split at he <;> rcases List.mem_cons.mp he with rfl | he
    · exact Or.inl rfl
    · exact Or.inr (List.mem_cons_of_mem f he)
    · exact Or.inr List.mem_cons_self
    · exact (ih he).imp_right (List.mem_cons_of_mem f)

section Erase
variable {before behind : List (Value × α)} {e : Value × α}

theorem erase_append (others : ∀ x ∈ before, key.same x.1 = false) (found : key.same e.1) :
    erase key (before ++ e :: behind) = before ++ behind := by
  have none_before : ∀ x ∈ before, ¬ key.same x.1 = true := by simpa using others
  rw [erase, List.eraseP_append_right _ none_before, List.eraseP_cons, found, cond_true]

theorem swapErase_append (others : ∀ x ∈ before, key.same x.1 = false) (found : key.same e.1) :
    swapErase key (before ++ e :: behind) = before ++ lastFirst behind := by
  have index : indexOf? key (before ++ e :: behind) = some before.length := by
    have none_before : before.findIdx? (fun x => key.same x.1) = none := by
      simpa [List.findIdx?_eq_none_iff] using others
    rw [indexOf?, List.findIdx?_append, none_before, List.findIdx?_cons, if_pos found]
    simp
  rcases List.eq_nil_or_concat behind with rfl | ⟨rest, last, rfl⟩
  · rw [swapErase, index]
    simp [lastFirst]
  · rw [swapErase, index, List.concat_eq_append]
    have final : (before ++ e :: (rest ++ [last])).getLast? = some last := by
      rw [← List.cons_append, ← List.append_assoc, List.getLast?_concat]
    have moved : (before ++ e :: (rest ++ [last])).set before.length last =
        (before ++ last :: rest) ++ [last] := by
      simp
    simp only [final, moved, lastFirst_concat, List.dropLast_concat]

theorem swapErase_absent {es : List (Value × α)} (absent : contains key es = false) :
    swapErase key es = es := by
  have index : indexOf? key es = none := by
    simpa [indexOf?, contains, List.findIdx?_eq_none_iff] using absent
  rw [swapErase, index]

end Erase

section Map
variable (h : Value × α → β)

theorem swapErase_map (es : List (Value × α)) :
    swapErase key (es.map (rekeep h)) = (swapErase key es).map (rekeep h) := by
  have index : indexOf? key (es.map (rekeep h)) = indexOf? key es := by
    simp only [indexOf?, List.findIdx?_map]
    rfl
  rw [swapErase, swapErase, index, List.getLast?_map]
  cases indexOf? key es with
  | none => rfl
  | some i =>
    cases es.getLast? with
    | none => rfl
    | some last =>
      simp only [Option.map_some, List.map_set, List.map_dropLast]

theorem addAbsent_map (es more : List (Value × α)) :
    addAbsent (es.map (rekeep h)) (more.map (rekeep h)) = (addAbsent es more).map (rekeep h) := by
  induction more generalizing es with
  | nil => rfl
  | cons e more ih =>
    simp only [addAbsent, List.map_cons, List.foldl_cons] at ih ⊢
    rw [contains_map, rekeep]
    by_cases present : contains e.1 es
    · rw [if_pos present, if_pos present]
      exact ih es
    · rw [if_neg present, if_neg present, ← ih (es ++ [e])]
      simp [rekeep]

end Map

theorem addAbsent_cons (es : List (Value × α)) (f : Value × α) (more : List (Value × α)) :
    addAbsent es (f :: more) = addAbsent (if contains f.1 es then es else es ++ [f]) more := rfl

/-- What is added goes behind what is there and has other keys. -/
theorem addAbsent_eq_append (es more : List (Value × α)) :
    ∃ added, addAbsent es more = es ++ added ∧
      ∀ e ∈ added, e ∈ more ∧ contains e.1 es = false := by
  induction more generalizing es with
  | nil => exact ⟨[], (List.append_nil es).symm, fun e he => absurd he List.not_mem_nil⟩
  | cons f more ih =>
    by_cases present : contains f.1 es
    · obtain ⟨added, eq, fresh⟩ := ih es
      rw [addAbsent_cons, if_pos present]
      exact ⟨added, eq, fun e he => ⟨List.mem_cons_of_mem f (fresh e he).1, (fresh e he).2⟩⟩
    · obtain ⟨added, eq, fresh⟩ := ih (es ++ [f])
      rw [addAbsent_cons, if_neg present]
      refine ⟨f :: added, by rw [eq, List.append_assoc, List.singleton_append], fun e he => ?_⟩
      rcases List.mem_cons.mp he with rfl | he
      · exact ⟨List.mem_cons_self, by simpa using present⟩
      · obtain ⟨hmore, absent⟩ := fresh e he
        rw [contains_append, Bool.or_eq_false_iff] at absent
        exact ⟨List.mem_cons_of_mem f hmore, absent.1⟩

theorem foldl_addAbsent_eq_append (ss : List (List (Value × α))) (es : List (Value × α)) :
    ∃ added, ss.foldl addAbsent es = es ++ added ∧
      ∀ e ∈ added, (∃ s ∈ ss, e ∈ s) ∧ contains e.1 es = false := by
  induction ss generalizing es with
  | nil => exact ⟨[], (List.append_nil es).symm, fun e he => absurd he List.not_mem_nil⟩
  | cons s ss ih =>
    obtain ⟨first, hfirst, freshFirst⟩ := addAbsent_eq_append es s
    obtain ⟨rest, hrest, freshRest⟩ := ih (addAbsent es s)
    refine ⟨first ++ rest, ?_, fun e he => ?_⟩
    · rw [List.foldl_cons, hrest, hfirst, List.append_assoc]
    · rcases List.mem_append.mp he with he | he
      · exact ⟨⟨s, List.mem_cons_self, (freshFirst e he).1⟩, (freshFirst e he).2⟩
      · obtain ⟨⟨t, ht, het⟩, absent⟩ := freshRest e he
        rw [hfirst, contains_append, Bool.or_eq_false_iff] at absent
        exact ⟨⟨t, List.mem_cons_of_mem s ht, het⟩, absent.1⟩

/-- A key that is added or merged in is there afterwards. -/
theorem contains_addAbsent {es more : List (Value × α)} {e : Value × α} (he : e ∈ more)
    (reflexive : e.1.same e.1) : contains e.1 (addAbsent es more) := by
  induction more generalizing es with
  | nil => cases he
  | cons f more ih =>
    rcases List.mem_cons.mp he with rfl | he
    · obtain ⟨added, eq, _⟩ :=
        addAbsent_eq_append (if contains e.1 es then es else es ++ [e]) more
      rw [addAbsent_cons, eq, contains_append, Bool.or_eq_true]
      left
      split
      · assumption
      · simp [contains, reflexive]
    · exact ih he

theorem contains_foldl_addAbsent {ss : List (List (Value × α))} {es s : List (Value × α)}
    (hs : s ∈ ss) {e : Value × α} (he : e ∈ s) (reflexive : e.1.same e.1) :
    contains e.1 (ss.foldl addAbsent es) := by
  induction ss generalizing es with
  | nil => cases hs
  | cons t ss ih =>
    rcases List.mem_cons.mp hs with rfl | hs
    · obtain ⟨added, eq, _⟩ := foldl_addAbsent_eq_append ss (addAbsent es s)
      rw [List.foldl_cons, eq, contains_append, contains_addAbsent he reflexive, Bool.true_or]
    · exact ih hs

theorem distinct_addAbsent {es more : List (Value × α)} (distinct : Distinct es) :
    Distinct (addAbsent es more) := by
  induction more generalizing es with
  | nil => exact distinct
  | cons f more ih =>
    rw [addAbsent_cons]
    refine ih ?_
    split
    · exact distinct
    · rename_i absent
      exact distinct.concat (by simpa using absent)

theorem distinct_foldl_addAbsent {ss : List (List (Value × α))} {es : List (Value × α)}
    (distinct : Distinct es) : Distinct (ss.foldl addAbsent es) := by
  induction ss generalizing es with
  | nil => exact distinct
  | cons s ss ih => exact ih (distinct_addAbsent distinct)

section EraseStr
variable {s : String} {es : List (Value × α)}

theorem Distinct.once (distinct : Distinct es) :
    es.Pairwise fun e f => e.1 = .str s → f.1 ≠ .str s := by
  refine distinct.imp fun {e f} different first second => ?_
  rw [first, second] at different
  exact absurd different (by simp [Value.same])

/-- A string that is a key only once is taken away for good. -/
theorem erase_str_eq_filter (once : es.Pairwise fun e f => e.1 = .str s → f.1 ≠ .str s) :
    erase (.str s) es = es.filter fun e => !(Value.str s).same e.1 := by
  induction once with
  | nil => rfl
  | @cons e es others _ ih =>
    rw [erase, List.eraseP_cons, List.filter_cons]
    cases same : (Value.str s).same e.1 with
    | true =>
      have kept : ∀ f ∈ es, (!(Value.str s).same f.1) = true := by
        intro f hf
        rw [Bool.not_eq_true', Bool.eq_false_iff]
        exact fun again => others f hf (same_str.mp same) (same_str.mp again)
      rw [List.filter_eq_self.mpr kept]
      rfl
    | false =>
      rw [erase] at ih
      simp [ih]

theorem keys_erase_str (once : es.Pairwise fun e f => e.1 = .str s → f.1 ≠ .str s) :
    (erase (.str s) es).map Prod.fst =
      (es.map Prod.fst).filter (fun k => !(Value.str s).same k) := by
  rw [erase_str_eq_filter once, List.filter_map]
  rfl

theorem not_contains_erase_str (distinct : Distinct es) :
    contains (.str s) (erase (.str s) es) = false := by
  rw [erase_str_eq_filter distinct.once, contains, List.any_eq_false]
  intro e he same
  have kept := (List.mem_filter.mp he).2
  rw [same] at kept
  cases kept

theorem mem_erase_str {e : Value × α} (other : e.1 ≠ .str s) : e ∈ erase (.str s) es ↔ e ∈ es :=
  List.mem_eraseP_of_neg fun same => other (same_str.mp same)

theorem find?_erase_str {k : Value} (other : k ≠ .str s) (es : List (Value × α)) :
    find? k (erase (.str s) es) = find? k es := by
  induction es with
  | nil => rfl
  | cons e es ih =>
    rw [erase, List.eraseP_cons]
    cases same : (Value.str s).same e.1 with
    | true =>
      have apart : k.same e.1 = false := by
        rw [same_str.mp same, Bool.eq_false_iff, ne_eq, str_same]
        exact other
      rw [find?_cons, apart]
      rfl
    | false =>
      rw [cond_false, find?_cons, find?_cons, ← ih]
      rfl

theorem contains_erase_str {k : Value} (other : k ≠ .str s) (es : List (Value × α)) :
    contains k (erase (.str s) es) = contains k es := by
  rw [contains_eq_isSome, contains_eq_isSome, find?_erase_str other]

end EraseStr

section InsertStr
variable {s : String} {k : Value} {v : α}

theorem keys_insert_str (v : α) (es : List (Value × α)) :
    (insert (.str s) v es).map Prod.fst =
      es.map Prod.fst ++ if contains (.str s) es then [] else [.str s] := by
  induction es with
  | nil => rfl
  | cons e es ih =>
    rw [insert, contains_cons]
    cases (Value.str s).same e.1 with
    | true => simp
    | false => simp [ih]

theorem Distinct.insert_str {es : List (Value × α)} (distinct : Distinct es) (v : α) :
    Distinct (insert (.str s) v es) := by
  by_cases present : contains (.str s) es
  · have keys : (insert (.str s) v es).map Prod.fst = es.map Prod.fst := by
      rw [keys_insert_str, if_pos present, List.append_nil]
    rw [distinct_iff_keys, keys, ← distinct_iff_keys]
    exact distinct
  · have absent : contains (.str s) es = false := by simpa using present
    rw [insert_absent absent]
    exact distinct.concat absent

theorem find?_insert_str_self (v : α) (es : List (Value × α)) :
    find? (.str s) (insert (.str s) v es) = some v := by
  induction es with
  | nil => simp [insert, find?, Value.same]
  | cons e es ih =>
    rw [insert]
    split
    · rename_i same
      rw [find?_cons, if_pos same]
    · rename_i apart
      rw [find?_cons, if_neg apart, ih]

theorem find?_insert_str (other : k ≠ .str s) (es : List (Value × α)) :
    find? k (insert (.str s) v es) = find? k es := by
  have apart : k.same (.str s) = false := by
    rw [Bool.eq_false_iff, ne_eq, str_same]
    exact other
  induction es with
  | nil => simp [insert, find?, apart]
  | cons e es ih =>
    rw [insert]
    split
    · rename_i same
      rw [find?_cons, find?_cons, same_str.mp same, apart]
      rfl
    · rw [find?_cons, find?_cons, ih]

theorem contains_insert_str (other : k ≠ .str s) (es : List (Value × α)) :
    contains k (insert (.str s) v es) = contains k es := by
  rw [contains_eq_isSome, contains_eq_isSome, find?_insert_str other]

theorem mem_insert_str {e : Value × α} (other : e.1 ≠ .str s) {es : List (Value × α)} :
    e ∈ insert (.str s) v es ↔ e ∈ es := by
  induction es with
  | nil =>
    simp only [insert, List.mem_singleton, List.not_mem_nil, iff_false]
    rintro rfl
    exact other rfl
  | cons f es ih =>
    rw [insert]
    split
    · rename_i same
      -- Neither the entry that is overwritten nor the new one has the key of `e`.
      have old : e ≠ f := by
        rintro rfl
        exact other (same_str.mp same)
      have new : e ≠ (f.1, v) := by
        rintro rfl
        exact other (same_str.mp same)
      rw [List.mem_cons, List.mem_cons, or_iff_right old, or_iff_right new]
    · rw [List.mem_cons, List.mem_cons, ih]

/-- A string that is no key yet can be one at any place. -/
theorem Distinct.put_str {before behind : List (Value × α)} (distinct : Distinct (before ++ behind))
    (absent : contains (.str s) (before ++ behind) = false) :
    Distinct (before ++ (.str s, v) :: behind) := by
  have other : ∀ e ∈ before ++ behind, (Value.str s).same e.1 = false := fun e he => by
    simpa using List.any_eq_false.mp absent e he
  obtain ⟨first, last, apart⟩ := List.pairwise_append.mp distinct
  refine List.pairwise_append.mpr ⟨first, List.pairwise_cons.mpr ⟨fun e he => ?_, last⟩, ?_⟩
  · have late := other e (List.mem_append_right before he)
    rw [Bool.eq_false_iff, ne_eq, str_same]
    rintro same
    rw [same] at late
    exact absurd late (by simp [Value.same])
  · intro e he f hf
    rcases List.mem_cons.mp hf with rfl | hf
    · exact other e (List.mem_append_left behind he)
    · exact apart e he f hf

end InsertStr

end Mapping
end Questionnaire.Yaml
