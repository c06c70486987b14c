import Questionnaire.Files.Tree

/-!
What a tree holds at a place. A node is an entry without what is below it; the nodes at all places
say what a tree holds, up to the order of its listings. Giving one file a new content changes the
node of one place (`node?_put_file`).
-/
namespace Questionnaire.Files

/-- An entry without what is below it. -/
inductive Entry.Node
  | file (content : ByteArray)
  | link (target : String)
  | dir

namespace Entry

def node : Entry → Node
  | .file content => .file content
  | .link target => .link target
  | .dir _ => .dir

/-- The node at the end of names, links not being followed. -/
def node? (e : Entry) (names : List String) : Option Node := (e.at? names).map node

theorem at?_append (e : Entry) (p q : List String) :
    e.at? (p ++ q) = (e.at? p).bind (Entry.at? q) := by
  induction p generalizing e with
  | nil => rfl
  | cons n p ih =>
    simp only [List.cons_append, at?]
    cases e.child? n with
    | none => rfl
    | some d => exact ih d

theorem at?_concat {e d : Entry} {p : List String} (h : e.at? p = some d) (n : String) :
    e.at? (p ++ [n]) = d.child? n := by
  rw [at?_append, h]
  change (d.child? n).bind some = d.child? n
  cases d.child? n <;> rfl

theorem eq_dir_of_child? {e d : Entry} {n : String} (h : e.child? n = some d) :
    ∃ es, e = .dir es := by
  cases e with
  | dir es => exact ⟨es, rfl⟩
  | file c => cases h
  | link t => cases h

theorem dir_of_at?_append {e d : Entry} {p : List String} {n : String} {q : List String}
    (h : e.at? (p ++ n :: q) = some d) : ∃ es, e.at? p = some (.dir es) := by
  rw [at?_append, Option.bind_eq_some_iff] at h
  obtain ⟨parent, hp, hq⟩ := h
  obtain ⟨child, hc, _⟩ := Option.bind_eq_some_iff.mp hq
  obtain ⟨es, rfl⟩ := eq_dir_of_child? hc
  exact ⟨es, hp⟩

theorem dir_root {e : Entry} {p : List String} {es : Entries} (h : e.at? p = some (.dir es)) :
    ∃ rs, e = .dir rs := by
  cases p with
  | nil => exact ⟨es, Option.some.inj h⟩
  | cons n p =>
    obtain ⟨rs, hrs⟩ := dir_of_at?_append (p := []) h
    exact ⟨rs, Option.some.inj hrs⟩

/-- The directory above a directory; that above the root is the root itself. -/
theorem dir_dropLast {e : Entry} {p : List String} {es : Entries}
    (h : e.at? p = some (.dir es)) : ∃ ds, e.at? p.dropLast = some (.dir ds) := by
  rcases List.eq_nil_or_concat p with rfl | ⟨q, n, rfl⟩
  · exact ⟨es, h⟩
  · rw [List.concat_eq_append] at h ⊢
    rw [List.dropLast_concat]
    exact dir_of_at?_append h

@[simp]
theorem at?_file_cons (c : ByteArray) (n : String) (q : List String) :
    (Entry.file c).at? (n :: q) = none := rfl

/-- Entries that differ below one name at most. -/
theorem child?_alter_map (name : String) (f : Entry → Entry) (es : Entries) :
    (Entry.dir (Entries.alter name (·.map f) es)).child? name =
      ((Entry.dir es).child? name).map f := by
  induction es with
  | nil => rfl
  | cons head es ih =>
    simp only [child?] at ih
    by_cases h : head.1 = name <;> simp [Entries.alter, child?, h, ih]

theorem alter_cons {names : List String} (h : names ≠ []) (f : Option Entry → Option Entry)
    (n : String) (es : Entries) :
    Entry.alter f (n :: names) (.dir es) =
      .dir (Entries.alter n (fun e? => e?.map (Entry.alter f names)) es) := by
  cases names with
  | nil => exact absurd rfl h
  | cons m names => rfl

theorem node?_file (c : ByteArray) (q : List String) :
    (Entry.file c).node? q = if q = [] then some (.file c) else none := by
  cases q <;> rfl

/-- A file that is put into a directory takes the place of a file or of nothing. -/
theorem node?_alter_file {e : Entry} {p : List String} {es : Entries} {n : String}
    (parent : e.at? p = some (.dir es))
    (leaf : ∀ d, (Entry.dir es).child? n = some d → d.isFile) (c : ByteArray) (q : List String) :
    (Entry.alter (fun _ => some (.file c)) (p ++ [n]) e).node? q =
      if q = p ++ [n] then some (.file c) else e.node? q := by
  induction p generalizing e q with
  | nil =>
    obtain rfl : e = .dir es := Option.some.inj parent
    rw [List.nil_append, Entry.alter]
    cases q with
    | nil => rfl
    | cons m q =>
      by_cases hm : m = n
      · subst hm
        simp only [node?, at?, Entries.child?_alter_const, Option.bind_some]
        rw [← node?, node?_file]
        cases hd : (Entry.dir es).child? m with
        | none => simp
        | some d =>
          cases d with
          | file old => cases q <;> simp
          | link t => cases leaf _ hd
          | dir ds => cases leaf _ hd
      · have hne : m :: q ≠ [n] := by simp [hm]
        rw [if_neg hne]
        simp only [node?, at?, Entries.child?_alter_of_ne hm]
  | cons m p ih =>
    obtain ⟨d, hd, hp⟩ := Option.bind_eq_some_iff.mp parent
    obtain ⟨ds, rfl⟩ := eq_dir_of_child? hd
    rw [List.cons_append, alter_cons (by simp)]
    cases q with
    | nil => rfl
    | cons k q =>
      by_cases hk : k = m
      · subst hk
        have below := ih hp q
        simp only [node?, at?, child?_alter_map, hd, Option.map_some, Option.bind_some,
          List.cons.injEq, true_and] at below ⊢
        exact below
      · have hne : k :: q ≠ m :: (p ++ [n]) := by simp [hk]
        rw [if_neg hne]
        simp only [node?, at?, Entries.child?_alter_of_ne hk]

end Entry

namespace Tree

/-- The node at a place. -/
def node? (t : Tree) (place : List String) : Option Entry.Node := t.root.node? place

theorem node?_concat {t : Tree} {p : List String} {e : Entry} (h : t.root.at? p = some e)
    (n : String) : t.node? (p ++ [n]) = (e.child? n).map Entry.node := by
  rw [node?, Entry.node?, Entry.at?_concat h]

theorem node?_leaf {t : Tree} {p : List String} {e : Entry} {n : String}
    (h : t.root.at? p = some e) (leaf : ∀ d, e.child? n = some d → d.isFile) {m : Entry.Node}
    (hm : t.node? (p ++ [n]) = some m) : ∃ c, m = .file c := by
  rw [node?_concat h] at hm
  obtain ⟨d, hd, rfl⟩ := Option.map_eq_some_iff.mp hm
  cases d with
  | file c => exact ⟨c, rfl⟩
  | link target => cases leaf _ hd
  | dir ds => cases leaf _ hd

theorem node?_put_file {t : Tree} {p : List String} {es : Entries} {n : String}
    (parent : t.root.at? p = some (.dir es))
    (leaf : ∀ d, (Entry.dir es).child? n = some d → d.isFile) (c : ByteArray) (q : List String) :
    (t.put (p ++ [n]) (.file c)).node? q =
      if q = p ++ [n] then some (.file c) else t.node? q :=
  Entry.node?_alter_file parent leaf c q

end Tree
end Questionnaire.Files
