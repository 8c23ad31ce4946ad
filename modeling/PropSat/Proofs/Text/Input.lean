import Mathlib.Tactic.SplitIfs
import PropSat.Text.Input

/-!
Lines of text. Only a line feed has the byte of a line feed in its encoding, so that a text
without one is one line and is decoded to itself.
-/

namespace PropSat.Text

/-- What is left behind the first cut is shorter. -/
theorem length_lt_of_cut {α : Type} {whole front rest : List α} {x : α} (cut : whole = front ++ x :: rest) :
    rest.length < whole.length := by
  rw [cut, List.length_append, List.length_cons]
  omega

theorem toList_toUTF8 (s : String) :
    s.toUTF8.data.toList = s.toList.flatMap String.utf8EncodeChar := by
  rw [String.toUTF8_eq_toByteArray, ← String.utf8Encode_toList, List.utf8Encode,
    List.toList_data_toByteArray]

theorem eq_newline_of_mem_utf8EncodeChar {c : Char}
    (member : (10 : UInt8) ∈ String.utf8EncodeChar c) : c = '\n' := by
  have value : c.val.toNat = 10 := by
    -- All bytes of a character of several bytes are at least 128.
    unfold String.utf8EncodeChar at member
    dsimp only at member
    split_ifs at member
    all_goals
      simp only [List.mem_cons, List.not_mem_nil, or_false, ← UInt8.toNat_inj, UInt8.toNat_ofNat',
        UInt8.reduceToNat] at member
      omega
  exact Char.ext (UInt32.toNat_inj.1 value)

theorem newline_notMem_toUTF8 {s : String} (unbroken : '\n' ∉ s.toList) :
    (10 : UInt8) ∉ s.toUTF8.data.toList := by
  rw [toList_toUTF8, List.mem_flatMap]
  rintro ⟨c, here, member⟩
  exact unbroken (eq_newline_of_mem_utf8EncodeChar member ▸ here)

theorem toUTF8_ne_nil {s : String} (full : s ≠ "") : s.toUTF8.data.toList ≠ [] := by
  rw [toList_toUTF8, ne_eq, List.flatMap_eq_nil_iff]
  intro empty
  apply full
  rw [← String.toList_eq_nil_iff, List.eq_nil_iff_forall_not_mem]
  exact fun c here => String.utf8EncodeChar_ne_nil (empty c here)

namespace Input

theorem decodeLine_toUTF8 (s : String) : decodeLine s.toUTF8.data.toList = .ok s := by
  have back : String.fromUTF8? ⟨s.toUTF8.data.toList.toArray⟩ = some s := dif_pos s.isValidUTF8
  rw [decodeLine, back]

theorem toUTF8_of_decodeLine {piece : List UInt8} {line : String} (decoded : decodeLine piece = .ok line) :
    line.toUTF8.data.toList = piece := by
  unfold decodeLine String.fromUTF8? at decoded
  split at decoded
  case h_2 => cases decoded
  case h_1 text valid =>
    cases decoded
    split at valid
    case isFalse => cases valid
    case isTrue => cases valid; rfl

theorem decodeLine_eq_ok {piece : List UInt8} {line : String} :
    decodeLine piece = .ok line ↔ line.toUTF8.data.toList = piece := by
  constructor
  · exact toUTF8_of_decodeLine
  · rintro rfl
    exact decodeLine_toUTF8 line

theorem decodeLine_eq_error {piece : List UInt8} {cause : ReadError} :
    decodeLine piece = .error cause ↔ cause = .notUtf8 ∧ ∀ line : String, line.toUTF8.data.toList ≠ piece := by
  cases decoded : decodeLine piece with
  | ok line =>
    refine iff_of_false nofun ?_
    rintro ⟨-, noLine⟩
    exact noLine line (toUTF8_of_decodeLine decoded)
  | error other =>
    have known : other = .notUtf8 := by
      unfold decodeLine at decoded
      split at decoded <;> cases decoded
      rfl
    rw [known, Except.error.injEq, eq_comm, and_iff_left]
    intro line same
    rw [decodeLine_eq_ok.2 same] at decoded
    cases decoded

theorem foldr_cutByte {bytes : List UInt8} (unbroken : (10 : UInt8) ∉ bytes) (piece : List UInt8)
    (pieces : List (List UInt8)) :
    bytes.foldr cutByte (piece :: pieces) = (bytes ++ piece) :: pieces := by
  induction bytes with
  | nil => rfl
  | cons b bytes ih =>
    rw [List.mem_cons, not_or] at unbroken
    rw [List.foldr_cons, ih unbroken.2, cutByte, if_neg (Ne.symm unbroken.1)]
    rfl

theorem pieces_unbroken {bytes : List UInt8} (unbroken : (10 : UInt8) ∉ bytes) : pieces bytes = [bytes] := by
  rw [pieces, foldr_cutByte unbroken, List.append_nil]

theorem lines_ofBytes {bytes : ByteArray} (full : bytes.data.toList ≠ [])
    (unbroken : (10 : UInt8) ∉ bytes.data.toList) :
    (ofBytes bytes).lines = [decodeLine bytes.data.toList] := by
  obtain ⟨b, bs, begins⟩ := List.exists_cons_of_ne_nil full
  simp only [lines, ofBytes, pieces_unbroken unbroken, List.dropLast_singleton, List.getLast?_singleton]
  rw [begins]
  rfl

/-- Where reading fails within the first line, nothing was read. -/
theorem lines_failed {input : Input} (unbroken : (10 : UInt8) ∉ input.bytes.data.toList) {message : String}
    (failed : input.failure = some message) : input.lines = [.error (.failed message)] := by
  simp only [lines, pieces_unbroken unbroken, List.dropLast_singleton, failed]
  rfl

theorem lines_ofString {s : String} (full : s ≠ "") (unbroken : '\n' ∉ s.toList) :
    (ofString s).lines = [.ok s] := by
  rw [ofString, lines_ofBytes (toUTF8_ne_nil full) (newline_notMem_toUTF8 unbroken),
    decodeLine_toUTF8]

theorem cutByte_ne_nil (b : UInt8) (pieces : List (List UInt8)) : cutByte b pieces ≠ [] := by
  unfold cutByte
  split
  case h_1 => exact List.cons_ne_nil _ _
  case h_2 => split_ifs <;> exact List.cons_ne_nil _ _

theorem pieces_ne_nil (bytes : List UInt8) : pieces bytes ≠ [] := by
  cases bytes with
  | nil => exact List.cons_ne_nil _ _
  | cons b bytes => exact cutByte_ne_nil b (pieces bytes)

theorem pieces_newline {bytes : List UInt8} (unbroken : (10 : UInt8) ∉ bytes) (rest : List UInt8) :
    pieces (bytes ++ 10 :: rest) = bytes :: pieces rest := by
  obtain ⟨piece, more, cut⟩ := List.exists_cons_of_ne_nil (pieces_ne_nil rest)
  have begun : pieces (10 :: rest) = [] :: pieces rest := by
    change cutByte 10 (pieces rest) = [] :: pieces rest
    rw [cut, cutByte, if_pos rfl]
  rw [pieces, List.foldr_append]
  change bytes.foldr cutByte (pieces (10 :: rest)) = bytes :: pieces rest
  rw [begun, foldr_cutByte unbroken, List.append_nil]

/-- What stands in front of the first line feed is the first line, whatever comes behind it. -/
theorem lines_cons {input : Input} {first rest : List UInt8} (unbroken : (10 : UInt8) ∉ first)
    (cut : input.bytes.data.toList = first ++ 10 :: rest) :
    input.lines = decodeLine first :: lines ⟨⟨rest.toArray⟩, input.failure⟩ := by
  obtain ⟨piece, more, begun⟩ := List.exists_cons_of_ne_nil (pieces_ne_nil rest)
  simp only [lines]
  rw [cut, pieces_newline unbroken, begun]
  simp only [List.dropLast_cons_cons, List.map_cons, List.getLast?_cons_cons]
  cases input.failure with
  | some message => rfl
  | none => split <;> rfl

/-- A text with a line feed behind it is the same line. -/
theorem lines_ofString_newline {s : String} (unbroken : '\n' ∉ s.toList) :
    (ofString (s ++ "\n")).lines = [.ok s] := by
  have bytes : (s ++ "\n").toUTF8.data.toList = s.toUTF8.data.toList ++ [10] := by
    rw [toList_toUTF8, toList_toUTF8, String.toList_append, List.flatMap_append]
    rfl
  rw [lines_cons (newline_notMem_toUTF8 unbroken) bytes, decodeLine_toUTF8]
  rfl

end Input

end PropSat.Text
