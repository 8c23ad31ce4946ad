import Mathlib.Data.List.Perm.Subperm
import PropSat.Proofs.NameTable
import PropSat.Proofs.Text.Input
import PropSat.Proofs.Text.Parse

/-!
How many names can be read from so many bytes. A word has a letter at least, and between two words of a line, as
between two lines, stands a character at least; so a formula read from a file has at most half as many variables
as the file has bytes (`two_mul_length_vars_le`).
-/

namespace PropSat.Text

/-- The words among the tokens. -/
def wordsOf (ts : List Token) : List String :=
  ts.filterMap fun
    | .word name => some name
    | _ => none

@[simp] theorem wordsOf_append (ts us : List Token) : wordsOf (ts ++ us) = wordsOf ts ++ wordsOf us :=
  List.filterMap_append

theorem mem_wordsOf {ts : List Token} {name : String} (member : .word name ∈ ts) : name ∈ wordsOf ts :=
  List.mem_filterMap.2 ⟨_, member, rfl⟩

theorem wordsOf_word (name : String) (ts : List Token) :
    wordsOf (.word name :: ts) = name :: wordsOf ts := rfl

section
variable {rest : List Char × List Token} {size : Nat}

/-- So many characters have this many words at most: those complete each have a separator too, and where one has
been begun there is a letter more. -/
structure Sparse (rest : List Char × List Token) (size : Nat) : Prop where
  complete : 2 * (wordsOf rest.2).length ≤ size
  begun : rest.1 ≠ [] → 2 * (wordsOf rest.2).length < size

theorem Sparse.flush (sparse : Sparse rest size) : 2 * (wordsOf (Text.flush rest.1 rest.2)).length ≤ size + 1 := by
  have complete := sparse.complete
  unfold Text.flush
  split
  case isTrue => omega
  case isFalse full =>
    rw [List.isEmpty_iff] at full
    have begun := sparse.begun full
    rw [wordsOf_word, List.length_cons]
    omega

theorem Sparse.scanChar (sparse : Sparse rest size) (c : Char) : Sparse (Text.scanChar c rest) (size + 1) := by
  unfold Text.scanChar
  split_ifs with opens closes blank
  · exact ⟨sparse.flush, fun begun => absurd rfl begun⟩
  · exact ⟨sparse.flush, fun begun => absurd rfl begun⟩
  · exact ⟨sparse.flush, fun begun => absurd rfl begun⟩
  · exact ⟨Nat.le_succ_of_le sparse.complete, fun _ => Nat.lt_succ_of_le sparse.complete⟩

theorem sparse_foldr (chars : List Char) : Sparse (chars.foldr Text.scanChar ([], [])) chars.length := by
  induction chars with
  | nil => exact ⟨Nat.le_refl 0, fun begun => absurd rfl begun⟩
  | cons c chars ih => exact ih.scanChar c

theorem length_wordsOf_scan (chars : List Char) : 2 * (wordsOf (scan chars)).length ≤ chars.length + 1 :=
  (sparse_foldr chars).flush

end

theorem length_wordsOf_tokens (line : String) : 2 * (wordsOf (tokens line)).length ≤ line.toList.length + 1 := by
  have words := length_wordsOf_scan (code line.toList)
  have shorter : (code line.toList).length ≤ line.toList.length := (List.takeWhile_sublist _).length_le
  rw [tokens]
  omega

theorem length_le_flatMap {α β : Type} {parts : α → List β} (full : ∀ x, parts x ≠ []) (xs : List α) :
    xs.length ≤ (xs.flatMap parts).length := by
  induction xs with
  | nil => exact Nat.le_refl 0
  | cons x xs ih =>
    have first := List.length_pos_of_ne_nil (full x)
    rw [List.flatMap_cons, List.length_append, List.length_cons]
    omega

namespace Input

/-- A line that can be decoded is not shorter in bytes than in characters. -/
theorem length_le_of_decodeLine {piece : List UInt8} {line : String} (decoded : decodeLine piece = .ok line) :
    line.toList.length ≤ piece.length := by
  rw [← toUTF8_of_decodeLine decoded, toList_toUTF8]
  exact length_le_flatMap (fun c => String.utf8EncodeChar_ne_nil) _

/-- The bytes again, with the line feed that ends the last piece. -/
theorem flatMap_pieces (bytes : List UInt8) : (pieces bytes).flatMap (· ++ [10]) = bytes ++ [10] := by
  induction bytes with
  | nil => rfl
  | cons b bytes ih =>
    change (cutByte b (pieces bytes)).flatMap (· ++ [10]) = _
    cases before : pieces bytes with
    | nil => simp [before] at ih
    | cons piece rest =>
      rw [before, List.flatMap_cons] at ih
      rw [cutByte, List.cons_append, ← ih]
      split
      case isTrue feed => rw [feed]; rfl
      case isFalse => rfl

/-- All pieces are lines but for an empty one at the end. -/
theorem lines_eq_map (bytes : ByteArray) :
    ∃ front back, pieces bytes.data.toList = front ++ back ∧ (ofBytes bytes).lines = front.map decodeLine := by
  simp only [lines, ofBytes]
  generalize pieces bytes.data.toList = all
  rcases all.eq_nil_or_concat' with rfl | ⟨front, last, rfl⟩
  · exact ⟨[], [], rfl, rfl⟩
  · simp only [List.dropLast_concat, List.getLast?_concat]
    cases last with
    | nil => exact ⟨front, [[]], by simp, rfl⟩
    | cons b bs => exact ⟨front ++ [b :: bs], [], by simp, by simp⟩

end Input

theorem length_wordsOf_lines {pieces : List (List UInt8)} {texts : List String}
    (decoded : pieces.map Input.decodeLine = texts.map .ok) :
    2 * (wordsOf (texts.flatMap tokens)).length ≤ (pieces.flatMap (· ++ [10])).length := by
  induction texts generalizing pieces with
  | nil => exact Nat.zero_le _
  | cons text texts ih =>
    obtain ⟨piece, rest, rfl, first, others⟩ := List.map_eq_cons_iff.1 decoded
    have here := length_wordsOf_tokens text
    have bytes := Input.length_le_of_decodeLine first
    have later := ih others
    simp only [List.flatMap_cons, wordsOf_append, List.length_append, List.length_singleton]
    omega

/-- A formula read from a file has at most half as many variables as the file has bytes, and the line feed that may
be missing at its end. -/
theorem two_mul_length_vars_le {bytes : ByteArray} {f : Formula} (read : parse (.ofBytes bytes) = .ok f) :
    2 * f.vars.length ≤ bytes.size + 1 := by
  obtain ⟨texts, lines, derived⟩ := parse_eq_ok.1 read
  obtain ⟨front, back, cut, complete⟩ := Input.lines_eq_map bytes
  have among : f.vars.length ≤ (wordsOf (texts.flatMap tokens)).length := by
    apply (List.subperm_of_subset f.vars_nodup _).length_le
    intro name own
    exact mem_wordsOf (derived.word_mem (Formula.mem_vars.1 own))
  have words := length_wordsOf_lines (complete.symm.trans lines)
  have total := congrArg List.length (Input.flatMap_pieces bytes.data.toList)
  rw [cut, List.flatMap_append, List.length_append, List.length_append, List.length_singleton] at total
  have size : bytes.data.toList.length = bytes.size := Array.length_toList
  omega

end PropSat.Text
