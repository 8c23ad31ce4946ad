import Mathlib.Data.List.TakeWhile
import PropSat.Text.Operator
import PropSat.Text.Token

/-!
Words, and a line cut into tokens from its front. Every word that is cut out of a line is one that could be
written there again, and a word that is followed by a parenthesis, a blank or nothing is cut out whole.
-/

namespace PropSat.Text

/-- Neither a blank nor a parenthesis nor a semicolon. -/
def IsPlain (c : Char) : Prop := isBlank c = false ∧ c ≠ '(' ∧ c ≠ ')' ∧ c ≠ ';'

instance : DecidablePred IsPlain := fun c =>
  inferInstanceAs (Decidable (isBlank c = false ∧ c ≠ '(' ∧ c ≠ ')' ∧ c ≠ ';'))

theorem not_isPlain {c : Char} : ¬IsPlain c ↔ c = '(' ∨ c = ')' ∨ isBlank c = true ∨ c = ';' := by
  unfold IsPlain
  grind

/-- A name that can be written in a text. -/
structure IsWord (s : String) : Prop where
  nonempty : s ≠ ""
  plain : ∀ c ∈ s.toList, IsPlain c

theorem isWord_operator (op : Operator) : IsWord op.word := by
  constructor
  · rcases op with _ | ⟨_ | _ | _ | _⟩ <;> decide
  · rcases op with _ | ⟨_ | _ | _ | _⟩ <;> simp [Operator.word, Connective.word, IsPlain, isBlank]

theorem IsWord.toList_ne_nil {s : String} (word : IsWord s) : s.toList ≠ [] := by
  rw [ne_eq, String.toList_eq_nil_iff]
  exact word.nonempty

theorem IsWord.semicolon_notMem {s : String} (word : IsWord s) : ';' ∉ s.toList := by
  intro here
  obtain ⟨-, -, -, code⟩ := word.plain ';' here
  exact code rfl

theorem IsWord.newline_notMem {s : String} (word : IsWord s) : '\n' ∉ s.toList := by
  intro here
  obtain ⟨dark, -⟩ := word.plain '\n' here
  exact absurd dark (by decide)

/-- Where a word ends: at a parenthesis, at a blank and with the line. -/
def Parted (rest : List Char) : Prop := ∀ c ∈ rest.head?, c = '(' ∨ c = ')' ∨ isBlank c = true

theorem scan_opening (rest : List Char) : scan ('(' :: rest) = .opening :: scan rest := by
  simp [scan, scanChar, flush]

theorem scan_closing (rest : List Char) : scan (')' :: rest) = .closing :: scan rest := by
  simp [scan, scanChar, flush]

theorem scanChar_blank {c : Char} (blank : isBlank c = true) (rest : List Char × List Token) :
    scanChar c rest = ([], flush rest.1 rest.2) := by
  have noOpening : c ≠ '(' := by rintro rfl; revert blank; decide
  have noClosing : c ≠ ')' := by rintro rfl; revert blank; decide
  rw [scanChar, if_neg noOpening, if_neg noClosing, if_pos blank]

theorem scan_blank {c : Char} (blank : isBlank c = true) (rest : List Char) :
    scan (c :: rest) = scan rest := by
  rw [scan, List.foldr_cons, scanChar_blank blank]
  rfl

theorem scanChar_plain {c : Char} (plain : IsPlain c) (rest : List Char × List Token) :
    scanChar c rest = (c :: rest.1, rest.2) := by
  obtain ⟨dark, noOpening, noClosing, -⟩ := plain
  simp [scanChar, dark, noOpening, noClosing]

theorem foldr_scanChar_plain {letters : List Char} (plain : ∀ c ∈ letters, IsPlain c)
    (rest : List Char × List Token) :
    letters.foldr scanChar rest = (letters ++ rest.1, rest.2) := by
  induction letters with
  | nil => rfl
  | cons c letters ih =>
    obtain ⟨first, plain⟩ := List.forall_mem_cons.1 plain
    rw [List.foldr_cons, ih plain, scanChar_plain first]
    rfl

theorem Parted.foldr_scanChar {rest : List Char} (parted : Parted rest) :
    rest.foldr scanChar ([], []) = ([], scan rest) := by
  cases rest with
  | nil => rfl
  | cons c rest =>
    rcases parted c rfl with rfl | rfl | blank
    · rw [scan_opening]
      rfl
    · rw [scan_closing]
      rfl
    · rw [List.foldr_cons, scanChar_blank blank, scan_blank blank]
      rfl

theorem scan_word {name : String} (word : IsWord name) {rest : List Char} (parted : Parted rest) :
    scan (name.toList ++ rest) = .word name :: scan rest := by
  rw [scan, List.foldr_append, parted.foldr_scanChar, foldr_scanChar_plain word.plain]
  simp [flush, word.toList_ne_nil]

/-- A token that can be written in a text, as every token read from one is. -/
def Token.Writable : Token → Prop
  | .opening | .closing => True
  | .word name => IsWord name

theorem isWord_ofList {letters : List Char} (full : letters ≠ []) (plain : ∀ c ∈ letters, IsPlain c) :
    IsWord (String.ofList letters) := by
  constructor
  · rwa [ne_eq, ← String.toList_eq_nil_iff, String.toList_ofList]
  · rwa [String.toList_ofList]

/-- The letters begun with are plain, and the tokens behind them can be written. -/
def Clean (rest : List Char × List Token) : Prop :=
  (∀ c ∈ rest.1, IsPlain c) ∧ ∀ t ∈ rest.2, t.Writable

theorem Clean.flush {rest : List Char × List Token} (clean : Clean rest) :
    ∀ t ∈ Text.flush rest.1 rest.2, t.Writable := by
  unfold Text.flush
  split
  case isTrue => exact clean.2
  case isFalse full =>
    rw [List.isEmpty_iff] at full
    exact List.forall_mem_cons.2 ⟨isWord_ofList full clean.1, clean.2⟩

theorem Clean.scanChar {rest : List Char × List Token} (clean : Clean rest) {c : Char} (code : c ≠ ';') :
    Clean (Text.scanChar c rest) := by
  have none_left : ∀ c ∈ ([] : List Char), IsPlain c := fun c member => absurd member List.not_mem_nil
  unfold Text.scanChar
  split_ifs with opens closes blank
  · exact ⟨none_left, List.forall_mem_cons.2 ⟨trivial, clean.flush⟩⟩
  · exact ⟨none_left, List.forall_mem_cons.2 ⟨trivial, clean.flush⟩⟩
  · exact ⟨none_left, clean.flush⟩
  · have plain : IsPlain c := ⟨Bool.not_eq_true _ ▸ blank, opens, closes, code⟩
    exact ⟨List.forall_mem_cons.2 ⟨plain, clean.1⟩, clean.2⟩

theorem clean_foldr {chars : List Char} (code : ';' ∉ chars) :
    Clean (chars.foldr Text.scanChar ([], [])) := by
  induction chars with
  | nil => simp [Clean]
  | cons c chars ih =>
    rw [List.mem_cons, not_or] at code
    exact (ih code.2).scanChar (Ne.symm code.1)

theorem writable_tokens (line : String) : ∀ t ∈ tokens line, t.Writable := by
  apply (clean_foldr _).flush
  intro member
  simpa using List.mem_takeWhile_imp member

/-- Without a semicolon all of a line counts. -/
theorem tokens_eq_scan {line : String} (code : ';' ∉ line.toList) : tokens line = scan line.toList := by
  rw [tokens, Text.code, List.takeWhile_eq_self_iff.2]
  intro c here
  rw [bne_iff_ne]
  rintro rfl
  exact code here

end PropSat.Text
