import PropSat.Proofs.Text.Input
import PropSat.Proofs.Text.Parse

/-!
Which error is reported. The lines of an input are handled one after the other, and the first of them that is not
UTF-8 or has a token that is refused settles the answer: neither what follows nor a failure of the reader can
change it. If there is none, a reader that fails is reported, whatever the lines before it would have come to
(`parse_first_failure`).
-/

namespace PropSat.Text

/-- Of the tokens that are handed to the parser one by one, some token is refused for this mistake. -/
inductive Refused : Parser → List Token → Mistake → Prop where
  | here {p : Parser} {t : Token} {ts : List Token} {mistake : Mistake} :
    p.push t = .error mistake → Refused p (t :: ts) mistake
  | later {p q : Parser} {t : Token} {ts : List Token} {mistake : Mistake} :
    p.push t = .ok q → Refused q ts mistake → Refused p (t :: ts) mistake

/-- The bytes of a line. -/
def encoded (line : String) : List UInt8 := line.toUTF8.data.toList

/-- Of the lines that are handled one after the other, some line is the first to fail, with this error: it is not
UTF-8, or the parser as the lines before left it refuses one of its tokens. -/
inductive Fails : Parser → List (List UInt8) → ParseError → Prop where
  | notUtf8 {p : Parser} {bytes : List UInt8} {later : List (List UInt8)} :
    (∀ line, encoded line ≠ bytes) → Fails p (bytes :: later) (.read .notUtf8)
  | refused {p : Parser} {line : String} {later : List (List UInt8)} {mistake : Mistake} :
    Refused p (tokens line) mistake → Fails p (encoded line :: later) (.format mistake)
  | later {p q : Parser} {line : String} {later : List (List UInt8)} {error : ParseError} :
    p.pushAll (tokens line) = .ok q → Fails q later error → Fails p (encoded line :: later) error

/-- Nothing, or whole lines with a line feed behind each of them. -/
def EndsLine (bytes : ByteArray) : Prop := ∀ b ∈ bytes.data.toList.getLast?, b = 10

section
variable {p : Parser} {ts : List Token} {mistake : Mistake} {lines : List (List UInt8)} {error : ParseError}

theorem Refused.pushAll (refused : Refused p ts mistake) : p.pushAll ts = .error mistake := by
  induction refused with
  | here same =>
    rw [Parser.pushAll_cons, same]
    rfl
  | later taken _ ih =>
    rw [Parser.pushAll_cons, taken]
    exact ih

theorem refused_of_pushAll (stopped : p.pushAll ts = .error mistake) : Refused p ts mistake := by
  induction ts generalizing p with
  | nil => cases stopped
  | cons t ts ih =>
    rw [Parser.pushAll_cons] at stopped
    cases pushed : p.push t with
    | error first =>
      rw [pushed] at stopped
      cases stopped
      exact .here pushed
    | ok q =>
      rw [pushed] at stopped
      exact .later pushed (ih stopped)

/-- What the lines of some whole lines come to, each decoded on its own. -/
def handled (p : Parser) (lines : List (List UInt8)) : Except ParseError Parser :=
  (lines.map Input.decodeLine).foldlM parseLine p

theorem handled_cons (p : Parser) (bytes : List UInt8) (lines : List (List UInt8)) :
    handled p (bytes :: lines) = parseLine p (Input.decodeLine bytes) >>= fun q => handled q lines := by
  rw [handled, List.map_cons, List.foldlM_cons]
  rfl

theorem parseLine_encoded (p : Parser) (line : String) :
    parseLine p (Input.decodeLine (encoded line)) = ofFormat (p.pushAll (tokens line)) := by
  rw [encoded, Input.decodeLine_toUTF8]
  rfl

theorem Fails.handled (fails : Fails p lines error) : handled p lines = .error error := by
  induction fails with
  | notUtf8 noLine =>
    rw [handled_cons, Input.decodeLine_eq_error.2 ⟨rfl, noLine⟩]
    rfl
  | refused refused =>
    rw [handled_cons, parseLine_encoded, refused.pushAll]
    rfl
  | later taken _ ih =>
    rw [handled_cons, parseLine_encoded, taken]
    exact ih

theorem fails_of_handled (stopped : Text.handled p lines = .error error) : Fails p lines error := by
  induction lines generalizing p with
  | nil => cases stopped
  | cons bytes lines ih =>
    rw [handled_cons] at stopped
    cases decoded : Input.decodeLine bytes with
    | error cause =>
      obtain ⟨rfl, noLine⟩ := Input.decodeLine_eq_error.1 decoded
      rw [decoded] at stopped
      cases stopped
      exact .notUtf8 noLine
    | ok line =>
      obtain rfl : encoded line = bytes := Input.decodeLine_eq_ok.1 decoded
      rw [parseLine_encoded] at stopped
      cases pushed : p.pushAll (tokens line) with
      | error mistake =>
        rw [pushed] at stopped
        cases stopped
        exact .refused (refused_of_pushAll pushed)
      | ok q =>
        rw [pushed] at stopped
        exact .later pushed (ih stopped)

end

/-! Whole lines at the front of an input. -/

section
variable {lines : List (List UInt8)} {front : List UInt8} {input : Input}

/-- The bytes are these lines, each with its line feed. -/
structure CutInto (front : List UInt8) (lines : List (List UInt8)) : Prop where
  whole : front = lines.flatMap (· ++ [10])
  unbroken : ∀ line ∈ lines, (10 : UInt8) ∉ line

theorem CutInto.lines_eq (cut : CutInto front lines) {rest : List UInt8}
    (bytes : input.bytes.data.toList = front ++ rest) :
    input.lines = lines.map Input.decodeLine ++ Input.lines ⟨⟨rest.toArray⟩, input.failure⟩ := by
  obtain ⟨rfl, unbroken⟩ := cut
  induction lines generalizing input with
  | nil =>
    rw [List.map_nil, List.nil_append, ← show input.bytes.data.toList = rest from bytes]
  | cons line lines ih =>
    obtain ⟨first, others⟩ := List.forall_mem_cons.1 unbroken
    have begun : input.bytes.data.toList = line ++ 10 :: (lines.flatMap (· ++ [10]) ++ rest) := by
      rw [bytes]
      simp
    rw [Input.lines_cons first begun, ih others rfl]
    rfl

theorem exists_cutInto {front : List UInt8} (ends : ∀ b ∈ front.getLast?, b = 10) : ∃ lines, CutInto front lines := by
  by_cases empty : front = []
  · exact ⟨[], empty, nofun⟩
  · have feed : (10 : UInt8) ∈ front := by
      have last := List.getLast?_eq_some_getLast empty
      rw [← ends _ last]
      exact List.getLast_mem empty
    obtain ⟨first, rest, cut, unbroken⟩ := List.eq_append_cons_of_mem feed
    have shorter := length_lt_of_cut cut
    have endsToo : ∀ b ∈ rest.getLast?, b = 10 := by
      intro b last
      apply ends
      rw [cut, List.getLast?_append, List.getLast?_cons, Option.mem_def.1 last]
      rfl
    obtain ⟨lines, whole, others⟩ := exists_cutInto endsToo
    refine ⟨first :: lines, ?_, List.forall_mem_cons.2 ⟨unbroken, others⟩⟩
    rw [cut, List.flatMap_cons, ← whole]
    simp
termination_by front.length

end

/-- Bytes that are empty or end in a line feed are whole lines, and the first of them that fails, if one does, is
what is reported, whatever bytes follow and whether or not the reader fails. If none fails, a reader that fails
before the next line feed is reported, with its own message. -/
theorem parse_first_failure {bytes : ByteArray} (ends : EndsLine bytes) :
    (∃ lines, CutInto bytes.data.toList lines) ∧ ∀ lines, CutInto bytes.data.toList lines →
      (∀ error, Fails .start lines error → ∀ rest failure, parse ⟨bytes ++ rest, failure⟩ = .error error) ∧
      ((∀ error, ¬Fails .start lines error) → ∀ part : ByteArray, (10 : UInt8) ∉ part.data.toList → ∀ message,
        parse ⟨bytes ++ part, some message⟩ = .error (.read (.failed message))) := by
  refine ⟨exists_cutInto ends, ?_⟩
  intro lines cut
  have runs : ∀ rest failure, parse ⟨bytes ++ rest, failure⟩ =
      (handled .start lines >>= fun p => (Input.lines ⟨rest, failure⟩).foldlM parseLine p) >>=
        fun p => ofFormat p.finish := by
    intro rest failure
    have front : (⟨bytes ++ rest, failure⟩ : Input).lines =
        lines.map Input.decodeLine ++ Input.lines ⟨rest, failure⟩ := cut.lines_eq ByteArray.toList_data_append
    rw [parse, front, List.foldlM_append]
    rfl
  constructor
  · intro error fails rest failure
    rw [runs, fails.handled]
    rfl
  · intro noneFails part unbroken message
    cases known : handled .start lines with
    | error error => exact absurd (fails_of_handled known) (noneFails error)
    | ok p =>
      rw [runs, known, Input.lines_failed unbroken rfl]
      rfl

/-- An operand too many in the second line, in front of a line that is not UTF-8 and a failing reader; and a list
left open where the reader fails. -/
theorem parse_first_failure_arity :
    EndsLine "(and a\n(not b c)\n".toUTF8 ∧
    CutInto "(and a\n(not b c)\n".toUTF8.data.toList [encoded "(and a", encoded "(not b c)"] ∧
    Fails .start [encoded "(and a", encoded "(not b c)"] (.format (.wrongArity .not 2)) ∧
    parse ⟨"(and a\n(not b c)\n".toUTF8 ++ ⟨#[255, 10]⟩, some "gone"⟩ = .error (.format (.wrongArity .not 2)) ∧
    EndsLine "(and a\n".toUTF8 ∧
    CutInto "(and a\n".toUTF8.data.toList [encoded "(and a"] ∧
    (∀ error, ¬Fails .start [encoded "(and a"] error) ∧
    (10 : UInt8) ∉ "(not b c)".toUTF8.data.toList ∧
    parse ⟨"(and a\n".toUTF8 ++ "(not b c)".toUTF8, some "gone"⟩ = .error (.read (.failed "gone")) := by
  have ends : EndsLine "(and a\n(not b c)\n".toUTF8 := by rintro b ⟨⟩; rfl
  have ends' : EndsLine "(and a\n".toUTF8 := by rintro b ⟨⟩; rfl
  have cut : CutInto "(and a\n(not b c)\n".toUTF8.data.toList [encoded "(and a", encoded "(not b c)"] :=
    ⟨rfl, by decide⟩
  have cut' : CutInto "(and a\n".toUTF8.data.toList [encoded "(and a"] := ⟨rfl, by decide⟩
  have fails : Fails .start [encoded "(and a", encoded "(not b c)"] (.format (.wrongArity .not 2)) :=
    fails_of_handled rfl
  have noneFails : ∀ error, ¬Fails .start [encoded "(and a"] error := by
    intro error fails
    have stopped := fails.handled
    cases stopped
  have unbroken : (10 : UInt8) ∉ "(not b c)".toUTF8.data.toList := by decide
  obtain ⟨-, settled⟩ := parse_first_failure ends
  obtain ⟨-, settled'⟩ := parse_first_failure ends'
  exact ⟨ends, cut, fails, (settled _ cut).1 _ fails _ _, ends', cut', noneFails, unbroken,
    (settled' _ cut').2 noneFails _ unbroken _⟩

end PropSat.Text
