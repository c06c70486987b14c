import Questionnaire.Proofs.Files.Node

/-!
Entries that are put into a directory one after another. An entry that is put under a name takes the
place of what has stood there (`alter_const_same`), and under different names the order is of no
consequence once one of them is in the directory (`alter_const_comm`): only a new name moves the end
of the listing. So a list of entries leaves the same listing when all of it is put once more
(`putAll_putAll`), for directories as for whole trees (`Tree.putAll_putAll`).
-/
namespace Questionnaire.Files

namespace Entries

/-- Puts entries under their names, one after another. -/
def putAll (ws : List (String × Entry)) (es : Entries) : Entries :=
  ws.foldl (fun es w => alter w.1 (fun _ => some w.2) es) es

theorem alter_const_same (name : String) (d e : Entry) (es : Entries) :
    alter name (fun _ => some e) (alter name (fun _ => some d) es) =
      alter name (fun _ => some e) es := by
  induction es with
  | nil => simp [alter]
  | cons head es ih =>
    by_cases here : head.1 = name
    · simp [alter, here]
    · simp [alter, here, ih]

theorem alter_const_comm {x y : String} (apart : x ≠ y) (d e : Entry) {es : Entries}
    (present : ((Entry.dir es).child? x).isSome) :
    alter y (fun _ => some e) (alter x (fun _ => some d) es) =
      alter x (fun _ => some d) (alter y (fun _ => some e) es) := by
  induction es with
  | nil => cases present
  | cons head es ih =>
    by_cases first : head.1 = x
    · have other : head.1 ≠ y := fun second => apart (first.symm.trans second)
      simp [alter, first, apart]
    · by_cases second : head.1 = y
      · simp [alter, second, Ne.symm apart]
      · have rest : ((Entry.dir es).child? x).isSome := by
          simpa [Entry.child?, first] using present
        simp [alter, first, second, ih rest]

theorem isSome_child?_alter {x : String} {es : Entries} (present : ((Entry.dir es).child? x).isSome)
    (y : String) (e : Entry) : ((Entry.dir (alter y (fun _ => some e) es)).child? x).isSome := by
  by_cases same : x = y
  · rw [same, child?_alter_const]
    rfl
  · rw [child?_alter_of_ne same]
    exact present

theorem isSome_child?_putAll {x : String} {es : Entries}
    (present : ((Entry.dir es).child? x).isSome) (ws : List (String × Entry)) :
    ((Entry.dir (putAll ws es)).child? x).isSome := by
  induction ws generalizing es with
  | nil => exact present
  | cons w ws ih => exact ih (isSome_child?_alter present w.1 w.2)

/-- What is put under a name in the directory is lost if the name comes later. -/
theorem putAll_alter_of_mem {x : String} {ws : List (String × Entry)} (later : x ∈ ws.map Prod.fst)
    (d : Entry) {es : Entries} (present : ((Entry.dir es).child? x).isSome) :
    putAll ws (alter x (fun _ => some d) es) = putAll ws es := by
  induction ws generalizing es with
  | nil => cases later
  | cons w ws ih =>
    simp only [putAll, List.foldl_cons] at ih ⊢
    by_cases here : x = w.1
    · rw [here, alter_const_same]
    · have rest : x ∈ ws.map Prod.fst := by
        rcases List.mem_cons.mp later with first | rest
        · exact absurd first here
        · exact rest
      rw [alter_const_comm here d w.2 present]
      exact ih rest (isSome_child?_alter present w.1 w.2)

/-- It stays, if the name does not come again. -/
theorem putAll_alter_of_not_mem {x : String} {ws : List (String × Entry)}
    (never : x ∉ ws.map Prod.fst) (d : Entry) {es : Entries}
    (present : ((Entry.dir es).child? x).isSome) :
    putAll ws (alter x (fun _ => some d) es) = alter x (fun _ => some d) (putAll ws es) := by
  induction ws generalizing es with
  | nil => rfl
  | cons w ws ih =>
    simp only [putAll, List.foldl_cons] at ih ⊢
    rw [List.map_cons, List.mem_cons, not_or] at never
    rw [alter_const_comm never.1 d w.2 present]
    exact ih never.2 (isSome_child?_alter present w.1 w.2)

/-- The same entries once more change nothing. -/
theorem putAll_putAll (ws : List (String × Entry)) (es : Entries) :
    putAll ws (putAll ws es) = putAll ws es := by
  induction ws generalizing es with
  | nil => rfl
  | cons w ws ih =>
    let s := alter w.1 (fun _ => some w.2) es
    have present : ((Entry.dir s).child? w.1).isSome := by rw [child?_alter_const]; rfl
    change putAll ws (alter w.1 (fun _ => some w.2) (putAll ws s)) = putAll ws s
    by_cases again : w.1 ∈ ws.map Prod.fst
    · rw [putAll_alter_of_mem again w.2 (isSome_child?_putAll present ws), ih]
    · have kept : alter w.1 (fun _ => some w.2) s = s := alter_const_same w.1 w.2 w.2 es
      rw [← putAll_alter_of_not_mem again w.2 present, kept, ih]

theorem alter_map_map (name : String) (f g : Entry → Entry) (es : Entries) :
    alter name (·.map g) (alter name (·.map f) es) = alter name (·.map (g ∘ f)) es := by
  induction es with
  | nil => rfl
  | cons head es ih =>
    by_cases here : head.1 = name
    · simp [alter, here]
    · simp [alter, here, ih]

theorem alter_map_id (name : String) (es : Entries) : alter name (·.map id) es = es := by
  induction es with
  | nil => rfl
  | cons head es ih =>
    by_cases here : head.1 = name
    · simp [alter, ← here]
    · simpa [alter, here] using ih

end Entries

namespace Entry

/-- Changes the listing of a directory. -/
def onDir (f : Entries → Entries) : Entry → Entry
  | .dir es => .dir (f es)
  | e => e

theorem onDir_comp (f g : Entries → Entries) : onDir g ∘ onDir f = onDir (g ∘ f) := by
  funext e
  cases e <;> rfl

theorem onDir_id (e : Entry) : onDir id e = e := by
  cases e <;> rfl

theorem alter_map_cons (f : Entry → Entry) (n : String) (p : List String) (es : Entries) :
    alter (·.map f) (n :: p) (.dir es) = .dir (Entries.alter n (·.map (alter (·.map f) p)) es) := by
  cases p with
  | nil => rfl
  | cons m p => rfl

theorem alter_map_id (p : List String) (e : Entry) : alter (·.map id) p e = e := by
  induction p generalizing e with
  | nil => rfl
  | cons n p ih =>
    cases e with
    | dir es =>
      have below : alter (·.map id) p = id := funext ih
      rw [alter_map_cons, below, Entries.alter_map_id]
    | file c => cases p <;> rfl
    | link t => cases p <;> rfl

theorem alter_map_map (f g : Entry → Entry) (p : List String) (e : Entry) :
    alter (·.map g) p (alter (·.map f) p e) = alter (·.map (g ∘ f)) p e := by
  induction p generalizing e with
  | nil => rfl
  | cons n p ih =>
    cases e with
    | dir es =>
      have both : alter (·.map g) p ∘ alter (·.map f) p = alter (·.map (g ∘ f)) p := funext ih
      rw [alter_map_cons, alter_map_cons, alter_map_cons, Entries.alter_map_map, both]
    | file c => cases p <;> rfl
    | link t => cases p <;> rfl

/-- What is put at a place changes the listing of the directory above it. -/
theorem alter_concat (f : Option Entry → Option Entry) (n : String) (p : List String) (e : Entry) :
    alter f (p ++ [n]) e = alter (·.map (onDir (Entries.alter n f))) p e := by
  induction p generalizing e with
  | nil => cases e <;> rfl
  | cons m p ih =>
    cases e with
    | dir es =>
      have below : alter f (p ++ [n]) = alter (·.map (onDir (Entries.alter n f))) p := funext ih
      rw [List.cons_append, alter_cons (by simp), alter_map_cons, below]
    | file c => cases p <;> rfl
    | link t => cases p <;> rfl

/-- Nothing happens away from the place that is changed. -/
theorem at?_alter_of_apart {f : Option Entry → Option Entry} {p q : List String}
    (notAbove : ¬ q <+: p) (notBelow : ¬ p <+: q) (e : Entry) : (alter f p e).at? q = e.at? q := by
  induction p generalizing q e with
  | nil => exact absurd List.nil_prefix notBelow
  | cons n p ih =>
    cases q with
    | nil => exact absurd List.nil_prefix notAbove
    | cons m q =>
      cases e with
      | file c => cases p <;> rfl
      | link t => cases p <;> rfl
      | dir es =>
        by_cases same : m = n
        · subst same
          rw [List.cons_prefix_cons, and_iff_right rfl] at notAbove notBelow
          have deeper : p ≠ [] := by
            rintro rfl
            exact notBelow List.nil_prefix
          rw [alter_cons deeper, at?, child?_alter_map, at?]
          cases (Entry.dir es).child? m with
          | none => rfl
          | some d => exact ih notAbove notBelow d
        · cases p with
          | nil => simp only [alter, at?, Entries.child?_alter_of_ne same]
          | cons k p => simp only [alter, at?, Entries.child?_alter_of_ne same]

end Entry

namespace Tree

/-- Puts entries into a directory, one after another. -/
def putAll (place : List String) (ws : List (String × Entry)) (t : Tree) : Tree :=
  ws.foldl (fun t w => t.put (place ++ [w.1]) w.2) t

theorem putAll_eq (place : List String) (ws : List (String × Entry)) (t : Tree) :
    t.putAll place ws =
      { t with root := t.root.alter (·.map (Entry.onDir (Entries.putAll ws))) place } := by
  induction ws generalizing t with
  | nil =>
    have idle : Entry.onDir (Entries.putAll []) = id := funext Entry.onDir_id
    rw [idle, Entry.alter_map_id]
    rfl
  | cons w ws ih =>
    have first : Entries.putAll (w :: ws) =
        Entries.putAll ws ∘ Entries.alter w.1 fun _ => some w.2 := rfl
    change (t.put (place ++ [w.1]) w.2).putAll place ws = _
    rw [ih, first, put, Entry.alter_concat, Entry.alter_map_map, Entry.onDir_comp]

theorem putAll_putAll (place : List String) (ws : List (String × Entry)) (t : Tree) :
    (t.putAll place ws).putAll place ws = t.putAll place ws := by
  have twice : Entries.putAll ws ∘ Entries.putAll ws = Entries.putAll ws :=
    funext (Entries.putAll_putAll ws)
  simp only [putAll_eq, Entry.alter_map_map, Entry.onDir_comp, twice]

end Tree
end Questionnaire.Files
