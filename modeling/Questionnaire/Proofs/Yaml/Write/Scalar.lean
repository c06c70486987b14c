import Questionnaire.Proofs.Yaml.Resolve
import Questionnaire.Proofs.Yaml.Token.Scan
import Questionnaire.Yaml.Write

/-!
Scalars as they are written, read back as tokens: at the end of a line, and as short keys, which end
on their line within the bytes that a key may have.
-/
namespace Questionnaire.Yaml
open Yaml.Text (placed)
open Write Token Scan Mark

namespace Write

/-- The style that a look is read as. -/
def Look.style : Look → Style
  | .plain => .plain
  | .singleQuoted => .singleQuoted
  | .doubleQuoted => .doubleQuoted
  | .literal => .literal

/-! Sizes. -/

theorem bytes_toList (s : String) : bytes s.toList = s.utf8ByteSize := by
  have ofList (cs : List Char) : bytes cs = (String.ofList cs).utf8ByteSize := by
    induction cs with
    | nil => rfl
    | cons c cs ih => rw [bytes_cons, ih, String.ofList_cons, String.utf8ByteSize_append,
        String.utf8ByteSize_singleton]
  rw [ofList, String.ofList_toList]

theorem bytes_indented {indent : Nat} {close : Bool} {cs : List Char}
    (unbroken : ∀ c ∈ cs, isLineBreak c = false) :
    bytes (indented indent true close false cs) ≤ 2 * bytes cs := by
  induction cs with
  | nil => simp [indented]
  | cons c cs ih =>
    have rest := ih fun d hd => unbroken d (List.mem_cons_of_mem c hd)
    rw [indented, unbroken c List.mem_cons_self, bytes_cons]
    simp only [Bool.false_eq_true, if_false, List.nil_append, bytes_append, Bool.true_and]
    split
    · simp only [bytes_cons, bytes_nil]
      omega
    · simp only [bytes_cons, bytes_nil]
      omega

theorem bytes_hexText {width n : Nat} (fits : (Nat.toDigits 16 n).length ≤ width) :
    bytes (hexText width n) = width := by
  have digits : ∀ d < 16, (Nat.digitChar d).toUpper.utf8Size = 1 := by decide
  have all : ∀ c ∈ hexText width n, c.utf8Size = 1 := by
    intro c hc
    rcases List.mem_append.mp hc with hc | hc
    · rw [List.eq_of_mem_replicate hc]
      decide
    · obtain ⟨e, he, rfl⟩ := List.mem_map.mp hc
      obtain ⟨k, hk, rfl⟩ := exists_digit_of_mem_toDigits (by decide) he
      exact digits k hk
  have ones (cs : List Char) (all : ∀ c ∈ cs, c.utf8Size = 1) : bytes cs = cs.length := by
    induction cs with
    | nil => rfl
    | cons c cs ih =>
      rw [bytes_cons, all c List.mem_cons_self, ih fun d hd => all d (List.mem_cons_of_mem c hd),
        List.length_cons, Nat.add_comm]
  rw [ones _ all, length_hexText fits]

theorem not_val_le {c : Char} {n : UInt32} (h : n.toNat < c.toNat) : ¬ c.val ≤ n := by
  rw [UInt32.le_iff_toNat_le]
  exact Nat.not_le.mpr h

theorem utf8Size_of_lt {c : Char} (h : 0x7F < c.toNat) : 2 ≤ c.utf8Size := by
  rw [Char.utf8Size, if_neg (not_val_le (by exact h))]
  split
  · exact Nat.le_refl 2
  · split <;> decide

theorem utf8Size_of_wide {c : Char} (h : 0xFFFF < c.toNat) : c.utf8Size = 4 := by
  rw [Char.utf8Size, if_neg (not_val_le (by exact Nat.lt_trans (by decide) h)),
    if_neg (not_val_le (by exact Nat.lt_trans (by decide) h)), if_neg (not_val_le (by exact h))]

/-- An escape takes at most four times the bytes of its character. -/
theorem bytes_escaped (c : Char) : bytes (escaped c) ≤ 4 * c.utf8Size := by
  have size : 1 ≤ c.utf8Size := Char.utf8Size_pos c
  have letter (written : List Char) (h : bytes written ≤ 4) : bytes written ≤ 4 * c.utf8Size := by
    omega
  have fits (width : Nat) (positive : 0 < width) := Nat.length_toDigits_le_iff
    (n := c.toNat) (b := 16) (by decide) positive
  have valid : c.toNat < 16 ^ 8 := by
    have bound := c.valid
    simp only [UInt32.isValidChar, Nat.isValidChar] at bound
    have same : c.toNat = c.val.toNat := rfl
    omega
  rw [escaped]
  split
  · rename_i h
    rcases (Bool.or_eq_true _ _ ▸ h) with h | h
    · rw [beq_iff_eq.mp h]
      decide
    · rw [beq_iff_eq.mp h]
      decide
  · split
    · rw [bytes_cons, bytes_nil]
      omega
    · simp only
      split
      all_goals try exact letter _ (by decide)
      split
      · rename_i small
        rw [bytes_cons, bytes_cons, bytes_hexText ((fits 2 (by decide)).mpr (by omega))]
        exact Nat.le_trans (show _ ≤ 4 by decide) (by omega)
      · split
        · rename_i large wide
          have size := utf8Size_of_lt (c := c) (by omega)
          rw [bytes_cons, bytes_cons, bytes_hexText ((fits 4 (by decide)).mpr (by omega))]
          exact Nat.le_trans (show _ ≤ 8 by decide) (by omega)
        · have size := utf8Size_of_wide (c := c) (by omega)
          rw [bytes_cons, bytes_cons, bytes_hexText ((fits 8 (by decide)).mpr valid), size]
          decide

theorem bytes_flatMap_escaped (cs : List Char) : bytes (cs.flatMap escaped) ≤ 4 * bytes cs := by
  induction cs with
  | nil => simp
  | cons c cs ih =>
    have first := bytes_escaped c
    rw [List.flatMap_cons, bytes_append, bytes_cons]
    omega

/-! Strings. -/

theorem isBreak_indented {indent : Nat} {close : Bool} {cs : List Char}
    (unbroken : ∀ c ∈ cs, isLineBreak c = false) :
    ∀ c ∈ indented indent true close false cs, isBreak c = false := by
  induction cs with
  | nil => simp [indented]
  | cons c cs ih =>
    have first := unbroken c List.mem_cons_self
    have rest := ih fun d hd => unbroken d (List.mem_cons_of_mem c hd)
    rw [indented, first]
    intro d hd
    have cases : d = c ∨ d ∈ indented indent true close false cs := by
      by_cases quote : c = '\''
      · simpa [quote] using hd
      · simpa [quote] using hd
    rcases cases with rfl | hd
    · exact isBreak_eq_false first
    · exact rest d hd

theorem isBreak_escaped (cs : List Char) : ∀ c ∈ cs.flatMap escaped, isBreak c = false := by
  intro d hd
  obtain ⟨c, _, hd⟩ := List.mem_flatMap.mp hd
  rcases escape_or_raw c with special | raw
  · exact special.unbroken d hd
  · rw [raw.written, List.mem_singleton] at hd
    rw [hd]
    exact raw.unbroken

/-- What is known of a string by its look. -/
inductive Looks (s : String) : Look → Prop
  | plain : PlainText s.toList → Looks s .plain
  | singleQuoted : SingleText s.toList → Looks s .singleQuoted
  | doubleQuoted : Looks s .doubleQuoted
  | literal : '\n' ∈ s.toList → LiteralText s.toList → Looks s .literal

theorem looks_ofString (s : String) : Looks s (Look.ofString s) := by
  rw [Look.ofString]
  split
  · rename_i feed
    have feed : '\n' ∈ s.toList := by simpa using feed
    split
    · rename_i allowed
      refine .literal feed ⟨List.ne_nil_of_mem feed, ?_⟩
      simp only [allowsLiteral, Bool.not_eq_true', Bool.or_eq_false_iff] at allowed
      simpa using allowed.2
    · exact .doubleQuoted
  · rename_i feed
    have feed : '\n' ∉ s.toList := by simpa using feed
    split
    · rename_i allowed
      rw [Bool.and_eq_true] at allowed
      refine .plain (plainText_of_allowsPlain ?_ allowed.2)
      intro empty
      obtain rfl : s = "" := String.toList_eq_nil_iff.mp empty
      exact absurd allowed.1 (by decide)
    · split
      · rename_i allowed
        simp only [allowsSingleQuoted, Bool.not_eq_true', Bool.or_eq_false_iff] at allowed
        exact .singleQuoted ⟨by simpa using allowed.2, feed, allowed.1.1, allowed.1.2⟩
      · exact .doubleQuoted

theorem readsQuoted_single {cs : List Char} {indent : Nat} (text : SingleText cs)
    (lines : (∃ c ∈ cs, isLineBreak c) → 0 < indent) :
    ReadsQuoted .singleQuoted '\'' (indented indent true true false cs) cs :=
  fun _ _ _ _ inside other enough => singleQuoted_placed text lines inside other enough

theorem readsQuoted_double (cs : List Char) :
    ReadsQuoted .doubleQuoted '"' (cs.flatMap escaped) cs :=
  fun _ m fuel _ inside other enough => doubleQuoted_placed other cs m fuel inside enough

theorem toList_singleQuoted (indent : Nat) (s : String) :
    (Look.singleQuoted.text indent s).toList =
      '\'' :: (indented indent true true false s.toList ++ ['\'']) := by
  simp [Look.text]

theorem toList_doubleQuoted (indent : Nat) (s : String) :
    (Look.doubleQuoted.text indent s).toList = '"' :: (s.toList.flatMap escaped ++ ['"']) := by
  simp [Look.text]

theorem toList_literal (indent : Nat) (s : String) :
    (Look.literal.text indent s).toList = '|' :: ((blockHints s.toList).toList ++ '\n' ::
      indented indent false false true s.toList) := by
  simp [Look.text]

/-- A string that ends its line. -/
theorem readsLine_string (n : Nat) (s : String) :
    ReadsLine n (((Look.ofString s).text (n + 2) s).toList ++
        if (Look.ofString s).endsLine s then [] else ['\n'])
      [.scalar s (Look.ofString s).style] := by
  have same : String.ofList s.toList = s := String.ofList_toList
  have looks := looks_ofString s
  generalize Look.ofString s = look at looks ⊢
  cases looks with
  | plain text =>
    have reads := readsLine_plain (n := n) text
    rw [same] at reads
    exact reads
  | singleQuoted text =>
    have quoted : ReadsQuoted .singleQuoted _ (indented (n + 2) true true false _) _ :=
      readsQuoted_single text fun _ => Nat.succ_pos (n + 1)
    have reads := readsLine_quoted (n := n) (Or.inl ⟨rfl, rfl⟩) quoted
    rw [same] at reads
    rw [toList_singleQuoted]
    simpa [Look.endsLine, Look.style] using reads
  | doubleQuoted =>
    have reads := readsLine_quoted (n := n) (Or.inr ⟨rfl, rfl⟩) (readsQuoted_double s.toList)
    rw [same] at reads
    rw [toList_doubleQuoted]
    simpa [Look.endsLine, Look.style] using reads
  | literal feed text =>
    have reads := readsLine_literal (n := n) text
    rw [same] at reads
    rw [toList_literal]
    simpa [Look.endsLine, Look.style, lineEnd] using reads

/-- A string that is a short key. -/
theorem readsKey_string (s : String) (unbroken : ∀ c ∈ s.toList, isLineBreak c = false)
    (short : s.utf8ByteSize ≤ maxKey) :
    ReadsKey ((Look.ofString s).text 0 s).toList [.scalar s (Look.ofString s).style] := by
  have same : String.ofList s.toList = s := String.ofList_toList
  have size : bytes s.toList ≤ 128 := by rw [bytes_toList]; exact short
  have looks := looks_ofString s
  generalize Look.ofString s = look at looks ⊢
  cases looks with
  | plain text =>
    have reads := readsKey_plain text (by omega)
    rw [same] at reads
    exact reads
  | singleQuoted text =>
    have noBreak : ¬ ∃ c ∈ s.toList, isLineBreak c := by
      rintro ⟨c, hc, h⟩
      rw [unbroken c hc] at h
      cases h
    have small : bytes (indented 0 true true false s.toList) ≤ _ := bytes_indented unbroken
    have quoted : ReadsQuoted .singleQuoted _ (indented 0 true true false _) _ :=
      readsQuoted_single text fun h => absurd h noBreak
    have reads := readsKey_quoted (Or.inl ⟨rfl, rfl⟩) quoted (isBreak_indented unbroken) (by omega)
    rw [same] at reads
    rw [toList_singleQuoted]
    exact reads
  | doubleQuoted =>
    have small := bytes_flatMap_escaped s.toList
    have reads := readsKey_quoted (Or.inr ⟨rfl, rfl⟩) (readsQuoted_double s.toList)
      (isBreak_escaped s.toList) (by omega)
    rw [same] at reads
    rw [toList_doubleQuoted]
    exact reads
  | literal feed text => exact absurd (unbroken _ feed) (by decide)

/-! What stands on one line. -/

theorem isNumeric_lt {c : Char} (h : isNumeric c) : c.toNat < 0x80 := by
  rw [isNumeric, Bool.or_eq_true] at h
  rcases h with digit | other
  · have below : c.toNat ≤ 57 := ((isDigit_iff c).mp digit).2
    exact Nat.lt_of_le_of_lt below (by decide)
  · have known : ∀ d ∈ ['-', '.', 'e', 'i', 'n', 'f', 'a'], d.toNat < 0x80 := by simp
    exact known c (by simpa using other)

/-- The characters of numbers are letters, digits and the like. -/
theorem isNumeric_plain {c : Char} (h : isNumeric c) :
    isBlankOrEnd c = false ∧ isPrintable c ∧ isOpening c = false ∧ c ≠ ':' ∧ c ≠ '?' := by
  have all : ∀ n < 0x80, isNumeric (Char.ofNat n) → isBlankOrEnd (Char.ofNat n) = false ∧
      isPrintable (Char.ofNat n) ∧ isOpening (Char.ofNat n) = false ∧ Char.ofNat n ≠ ':' ∧
      Char.ofNat n ≠ '?' := by
    decide +kernel
  have known := all c.toNat (isNumeric_lt h)
  rw [Char.ofNat_toNat] at known
  exact known h

theorem plainText_numeric {cs : List Char} (numeric : Numeric cs) (nonempty : cs ≠ [])
    (dash : cs ≠ ['-']) (marker : isMarkerLine cs = false) : PlainText cs := by
  have plain {c : Char} (hc : c ∈ cs) := isNumeric_plain (numeric c hc)
  refine ⟨.word ⟨nonempty, fun c hc => (plain hc).1, fun h => ?_⟩, fun c hc => (plain hc).2.1, ?_,
    marker⟩
  · exact (plain (List.mem_of_getLast? h)).2.2.2.1 rfl
  · obtain ⟨c, rest, rfl⟩ := List.exists_cons_of_ne_nil nonempty
    have first := plain (List.mem_cons_self (a := c) (l := rest))
    refine ⟨c, rest, rfl, first.2.2.1, fun h => ?_⟩
    obtain rfl : c = '-' := (h.resolve_left first.2.2.2.2).resolve_left first.2.2.2.1
    cases rest with
    | nil => exact absurd rfl dash
    | cons d rest => exact (plain (List.mem_cons_of_mem _ List.mem_cons_self)).1

theorem plainText_signed {cs : List Char} (numeric : Numeric cs)
    (digit : ∃ d ds, d.isDigit ∧ (cs = d :: ds ∨ cs = '-' :: d :: ds)) : PlainText cs := by
  obtain ⟨d, ds, digit, rfl | rfl⟩ := digit
  all_goals
    have minus : d ≠ '-' := by
      rintro rfl
      exact absurd digit (by decide)
    have point : d ≠ '.' := by
      rintro rfl
      exact absurd digit (by decide)
    refine plainText_numeric numeric (by simp) (by simp [minus]) ?_
    simp [isMarkerLine, minus, point]

theorem plainText_number (n : Number) : PlainText n.text.toList := by
  have numeric := n.numeric_text
  cases n with
  | int i =>
    refine plainText_signed numeric ?_
    rw [Number.text, toList_int]
    split
    · obtain ⟨d, ds, h, digit, _⟩ := exists_toDigits (-i).toNat
      exact ⟨d, ds, digit, Or.inr (by rw [h])⟩
    · obtain ⟨d, ds, h, digit, _⟩ := exists_toDigits i.toNat
      exact ⟨d, ds, digit, Or.inl h⟩
  | float x =>
    cases x with
    | nan => exact plainText_of_allowsPlain (by decide) (by decide)
    | infinite negative =>
      cases negative <;> exact plainText_of_allowsPlain (by decide) (by decide)
    | finite negative m e canonical =>
      refine plainText_signed numeric ?_
      rw [Number.text, Binary64.text, String.toList_append]
      have digit : ∃ d ds, d.isDigit ∧
          (if m = 0 then "0.0" else (Scientific.shortest m e).text).toList = d :: ds := by
        split
        · exact ⟨'0', ['.', '0'], by decide, rfl⟩
        · rename_i zero
          have rounds := Scientific.shortest_roundsTo (e := e) (Nat.pos_of_ne_zero zero)
          obtain ⟨q, g, _, text, _⟩ :=
            decimalText_text (Scientific.digits_pos (Nat.pos_of_ne_zero zero) rounds)
          obtain ⟨d, ds, first, digit⟩ := text.digit
          exact ⟨d, ds, digit, first⟩
      obtain ⟨d, ds, digit, first⟩ := digit
      rw [first]
      cases negative with
      | true => exact ⟨d, ds, digit, Or.inr rfl⟩
      | false => exact ⟨d, ds, digit, Or.inl rfl⟩

/-- The tokens of a string, and of a value on one line. -/
def lineKinds : Value → List Kind
  | .str s => [.scalar s (Look.ofString s).style]
  | .seq _ => [.flowSequenceStart, .flowSequenceEnd]
  | .map _ => [.flowMappingStart, .flowMappingEnd]
  | v => [.scalar ((inline? v).getD "") .plain]

/-- On one line stand plain scalars and empty collections. -/
theorem inline_cases {v : Value} {text : String} (h : inline? v = some text) :
    (PlainText text.toList ∧ lineKinds v = [.scalar (String.ofList text.toList) .plain]) ∨
      ∃ o c start stop, IsEmpty o c start stop ∧ text.toList = [o, c] ∧
        lineKinds v = [start, stop] := by
  have plain (text : String) : text = String.ofList text.toList := String.ofList_toList.symm
  cases v with
  | null =>
    obtain rfl : "null" = text := Option.some.inj h
    exact .inl ⟨plainText_of_allowsPlain (by decide) (by decide), rfl⟩
  | bool b =>
    cases b with
    | true =>
      obtain rfl : "true" = text := Option.some.inj h
      exact .inl ⟨plainText_of_allowsPlain (by decide) (by decide), rfl⟩
    | false =>
      obtain rfl : "false" = text := Option.some.inj h
      exact .inl ⟨plainText_of_allowsPlain (by decide) (by decide), rfl⟩
  | num n =>
    obtain rfl : n.text = text := Option.some.inj h
    exact .inl ⟨plainText_number n, by rw [← plain]; rfl⟩
  | seq items =>
    cases items with
    | nil =>
      obtain rfl : "[]" = text := Option.some.inj h
      exact .inr ⟨'[', ']', _, _, .inl ⟨rfl, rfl, rfl, rfl⟩, rfl, rfl⟩
    | cons v vs => cases h
  | map entries =>
    cases entries with
    | nil =>
      obtain rfl := Option.some.inj h
      exact .inr ⟨'{', '}', _, _, .inr ⟨rfl, rfl, rfl, rfl⟩, rfl, rfl⟩
    | cons e es => cases h
  | str s => cases h
  | tagged t v => cases h

theorem readsLine_inline {v : Value} {text : String} {n : Nat} (h : inline? v = some text) :
    ReadsLine n (text.toList ++ ['\n']) (lineKinds v) := by
  rcases inline_cases h with ⟨plain, kinds⟩ | ⟨o, c, start, stop, brackets, chars, kinds⟩
  · rw [kinds]
    exact readsLine_plain plain
  · rw [kinds, chars]
    exact readsLine_empty brackets

/-- Short keys start with a character that stands for itself, and are read as the key. -/
theorem readsKey_inline {v : Value} {text : String} (h : inline? v = some text)
    (short : text.utf8ByteSize ≤ maxKey) :
    ReadsKey text.toList (lineKinds v) ∧ ∀ after, Bare (text.toList ++ after) := by
  rcases inline_cases h with ⟨plain, kinds⟩ | ⟨o, c, start, stop, brackets, chars, kinds⟩
  · rw [kinds]
    refine ⟨readsKey_plain plain ?_, plain.bare⟩
    rw [bytes_toList]
    exact Nat.le_trans short (by decide)
  · rw [kinds, chars]
    exact ⟨readsKey_empty brackets, fun after => brackets.bare⟩

theorem bare_string (s : String) (indent : Nat) (after : List Char) :
    Bare (((Look.ofString s).text indent s).toList ++ after) := by
  have looks := looks_ofString s
  generalize Look.ofString s = look at looks ⊢
  cases looks with
  | plain text => exact text.bare after
  | singleQuoted text =>
    rw [toList_singleQuoted]
    exact IsQuote.bare (Or.inl ⟨rfl, rfl⟩)
  | doubleQuoted =>
    rw [toList_doubleQuoted]
    exact IsQuote.bare (Or.inr ⟨rfl, rfl⟩)
  | literal feed text =>
    rw [toList_literal]
    exact .cons ⟨by decide, by decide⟩ (by decide) (by decide)

/-- Short keys are strings and what stands on one line. -/
theorem keyText_cases {k : Value} {text : String} (h : keyText? k = some text)
    (untagged : ∀ t v, k ≠ .tagged t v) :
    (∃ s, k = .str s ∧ text = (Look.ofString s).text 0 s ∧
        (∀ c ∈ s.toList, isLineBreak c = false) ∧ s.utf8ByteSize ≤ maxKey) ∨
      (inline? k = some text ∧ text.utf8ByteSize ≤ maxKey) := by
  have simple : simpleKey? none k = some text := by
    rw [← h]
    cases k with
    | tagged t v => exact absurd rfl (untagged t v)
    | _ => rfl
  by_cases string : ∃ s, k = .str s
  · obtain ⟨s, rfl⟩ := string
    simp only [simpleKey?, Option.map_none, Option.getD_none, Nat.zero_add, String.empty_append]
      at simple
    split at simple
    · cases simple
    · rename_i small
      obtain rfl := Option.some.inj simple
      simp only [Bool.or_eq_true, decide_eq_true_eq, not_or, Nat.not_lt] at small
      refine Or.inl ⟨s, rfl, rfl, fun c hc => ?_, small.2⟩
      exact Bool.eq_false_iff.mpr fun broken => small.1 (List.any_eq_true.mpr ⟨c, hc, broken⟩)
  · rw [simpleKey?] at simple
    · split at simple
      · rename_i written inline
        simp only [Option.map_none, Option.getD_none, Nat.zero_add, String.empty_append] at simple
        obtain ⟨rfl, short⟩ : written = text ∧ written.utf8ByteSize ≤ maxKey := by
          split at simple
          · rename_i _ items
            obtain rfl := Option.some.inj simple
            cases items with
            | nil => exact ⟨rfl, by rw [← Option.some.inj inline]; decide⟩
            | cons v vs => cases inline
          · rename_i _ entries
            obtain rfl := Option.some.inj simple
            cases entries with
            | nil => exact ⟨rfl, by rw [← Option.some.inj inline]; decide⟩
            | cons e es => cases inline
          · split at simple
            · cases simple
            · exact ⟨Option.some.inj simple, by omega⟩
        exact Or.inr ⟨inline, short⟩
      · cases simple
    · exact fun s same => string ⟨s, same⟩

theorem readsKey_keyText {k : Value} {text : String} (h : keyText? k = some text)
    (untagged : ∀ t v, k ≠ .tagged t v) :
    ReadsKey text.toList (lineKinds k) ∧ ∀ after, Bare (text.toList ++ after) := by
  rcases keyText_cases h untagged with ⟨s, rfl, rfl, unbroken, short⟩ | ⟨inline, short⟩
  · exact ⟨readsKey_string s unbroken short, bare_string s 0⟩
  · exact readsKey_inline inline short

/-! Characters. -/

/-- All characters can be written as they are. -/
def Printable (cs : List Char) : Prop := ∀ c ∈ cs, isPrintable c

instance (cs : List Char) : Decidable (Printable cs) := List.decidableBAll _ cs

theorem Printable.append {cs ds : List Char} (hcs : Printable cs) (hds : Printable ds) :
    Printable (cs ++ ds) := by
  intro c hc
  rcases List.mem_append.mp hc with hc | hc
  · exact hcs c hc
  · exact hds c hc

theorem Printable.cons {c : Char} {cs : List Char} (hc : isPrintable c) (hcs : Printable cs) :
    Printable (c :: cs) := by
  intro d hd
  rcases List.mem_cons.mp hd with rfl | hd
  · exact hc
  · exact hcs d hd

theorem printable_spaces (n : Nat) : Printable (spaces n) := by
  intro c hc
  rw [mem_spaces hc]
  decide

theorem printable_indented {n : Nat} {quotes close atStart : Bool} {cs : List Char}
    (printable : Printable cs) : Printable (indented n quotes close atStart cs) := by
  have blanks (b : Bool) : Printable (if b then List.replicate n ' ' else []) := by
    cases b with
    | true => exact printable_spaces n
    | false => exact fun c hc => absurd hc (by simp)
  induction cs generalizing atStart with
  | nil => exact blanks (atStart && close)
  | cons c cs ih =>
    have first := printable c List.mem_cons_self
    have rest (b : Bool) : Printable (indented n quotes close b cs) :=
      ih fun d hd => printable d (List.mem_cons_of_mem c hd)
    rw [indented]
    split
    · exact .cons first (rest true)
    · refine .append (.append (blanks atStart) ?_) (rest false)
      split
      · exact .cons first (.cons first (by decide))
      · exact .cons first (by decide)

theorem printable_escaped (c : Char) : Printable (escaped c) := by
  have hex (width n : Nat) : Printable (hexText width n) := by
    intro d hd
    rcases List.mem_append.mp hd with hd | hd
    · rw [List.eq_of_mem_replicate hd]
      decide
    · obtain ⟨e, he, rfl⟩ := List.mem_map.mp hd
      obtain ⟨k, hk, rfl⟩ := exists_digit_of_mem_toDigits (by decide) he
      have digits : ∀ d < 16, isPrintable (Nat.digitChar d).toUpper := by decide
      exact digits k hk
  have pair (e : Char) (cs : List Char) (he : isPrintable e) (hcs : Printable cs) :
      Printable ('\\' :: e :: cs) := .cons (by decide) (.cons he hcs)
  rw [escaped]
  split
  · rename_i h
    have special : isPrintable c := by
      rw [Bool.or_eq_true, beq_iff_eq, beq_iff_eq] at h
      rcases h with rfl | rfl <;> decide
    exact pair c [] special (by decide)
  · split
    · rename_i raw
      rw [Bool.and_eq_true] at raw
      exact .cons raw.1 (by decide)
    · simp only
      split
      all_goals try exact pair _ [] (by decide) (by decide)
      split
      · exact pair _ _ (by decide) (hex _ _)
      · split
        · exact pair _ _ (by decide) (hex _ _)
        · exact pair _ _ (by decide) (hex _ _)

theorem printable_blockHints (cs : List Char) : Printable (blockHints cs).toList := by
  rw [blockHints, String.toList_append]
  refine .append ?_ ?_
  · split <;> decide
  · split
    · split
      · decide
      · split <;> decide
    · split <;> decide
    · decide

theorem printable_string (n : Nat) (s : String) :
    Printable ((Look.ofString s).text n s).toList := by
  have looks := looks_ofString s
  generalize Look.ofString s = look at looks ⊢
  cases looks with
  | plain text => exact text.printable
  | singleQuoted text =>
    rw [toList_singleQuoted]
    exact .cons (by decide) (.append (printable_indented text.printable) (by decide))
  | doubleQuoted =>
    rw [toList_doubleQuoted]
    refine .cons (by decide) (.append (fun d hd => ?_) (by decide))
    obtain ⟨c, _, hd⟩ := List.mem_flatMap.mp hd
    exact printable_escaped c d hd
  | literal feed text =>
    rw [toList_literal]
    exact .cons (by decide) (.append (printable_blockHints _)
      (.cons (by decide) (printable_indented text.printable)))

theorem printable_inline {v : Value} {text : String} (h : inline? v = some text) :
    Printable text.toList := by
  rcases inline_cases h with ⟨plain, _⟩ | ⟨o, c, start, stop, brackets, chars, _⟩
  · exact plain.printable
  · rw [chars]
    rcases brackets with ⟨rfl, rfl, _⟩ | ⟨rfl, rfl, _⟩ <;> decide

theorem printable_keyText {k : Value} {text : String} (h : keyText? k = some text)
    (untagged : ∀ t v, k ≠ .tagged t v) : Printable text.toList := by
  rcases keyText_cases h untagged with ⟨s, rfl, rfl, _⟩ | ⟨inline, _⟩
  · exact printable_string 0 s
  · exact printable_inline inline

/-- The text ends with a line break. -/
def EndsLine (cs : List Char) : Prop := ∃ front c, cs = front ++ [c] ∧ isBreak c

theorem EndsLine.column {cs : List Char} (ends : EndsLine cs) (m : Mark) (k : Nat) :
    (m.past (cs ++ spaces k)).column = k := by
  obtain ⟨front, c, rfl, broken⟩ := ends
  rw [past_append, column_past_spaces, past_append, past_cons, past_nil,
    column_step_of_break broken, Nat.zero_add]

theorem endsLine_feed (cs : List Char) : EndsLine (cs ++ ['\n']) := ⟨cs, '\n', rfl, by decide⟩

theorem endsLine_indented {n : Nat} {b : Char} (broken : isLineBreak b) (cs : List Char)
    (atStart : Bool) :
    ∃ front, indented n false false atStart (cs ++ [b]) = front ++ [b] := by
  induction cs generalizing atStart with
  | nil => exact ⟨[], by simp [indented, broken]⟩
  | cons c cs ih =>
    rw [List.cons_append, indented]
    split
    · obtain ⟨front, h⟩ := ih true
      exact ⟨c :: front, by rw [h]; rfl⟩
    · obtain ⟨front, h⟩ := ih false
      exact ⟨_, by rw [h, ← List.append_assoc]⟩

/-- A string that is written at the end of its line. -/
def stringLine (n : Nat) (s : String) : List Char :=
  ((Look.ofString s).text n s).toList ++ if (Look.ofString s).endsLine s then [] else ['\n']

theorem endsLine_string (n : Nat) (s : String) : EndsLine (stringLine n s) := by
  rw [stringLine]
  split
  · rename_i ended
    rw [Look.endsLine, Bool.and_eq_true, beq_iff_eq] at ended
    obtain ⟨literal, last⟩ := ended
    have looks := looks_ofString s
    rw [literal] at looks ⊢
    cases looks with
    | literal feed text =>
      obtain ⟨cs, b, chars⟩ : ∃ cs b, s.toList = cs ++ [b] :=
        ⟨_, _, (List.dropLast_concat_getLast text.nonempty).symm⟩
      rw [chars, List.getLast?_concat] at last
      have broken : isLineBreak b := last
      have printable : isPrintable b := text.printable b (by rw [chars]; simp)
      obtain ⟨front, written⟩ := endsLine_indented (n := n) broken cs true
      rw [toList_literal, chars, written]
      refine ⟨'|' :: ((blockHints (cs ++ [b])).toList ++ '\n' :: front), b, by simp,
        isBreak_of_isLineBreak printable broken⟩
  · exact endsLine_feed _

end Write
end Questionnaire.Yaml
