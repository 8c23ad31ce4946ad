import PropSat.Proofs.Text.Parser
import PropSat.Text.Parse

/-!
A formula is what the lines of an input derive together. It is read from an input just if every line
can be decoded and the tokens of all lines, one line after the other, are tokens of the formula.
-/

namespace PropSat.Text

open Text.Parser

theorem ofFormat_eq_ok {α : Type} {x : Except Mistake α} {a : α} : ofFormat x = .ok a ↔ x = .ok a := by
  cases x with
  | error cause => exact ⟨fun same => (nomatch same), fun same => (nomatch same)⟩
  | ok b =>
    change Except.ok b = Except.ok a ↔ _
    rw [Except.ok.injEq, Except.ok.injEq]

theorem ofFormat_bind {α β : Type} (x : Except Mistake α) (next : α → Except Mistake β) :
    ofFormat (x >>= next) = ofFormat x >>= fun a => ofFormat (next a) := by
  cases x <;> rfl

theorem foldlM_parseLine_map (p : Parser) (texts : List String) :
    (texts.map .ok).foldlM parseLine p = ofFormat (p.pushAll (texts.flatMap tokens)) := by
  induction texts generalizing p with
  | nil => rfl
  | cons text texts ih =>
    rw [List.map_cons, List.foldlM_cons, List.flatMap_cons, pushAll_append, ofFormat_bind, funext ih]
    rfl

/-- Where every line can be decoded, only the tokens count: where the lines begin and end does not. -/
theorem parse_decoded {input : Input} {texts : List String} (decoded : input.lines = texts.map .ok) :
    parse input = ofFormat (start.pushAll (texts.flatMap tokens) >>= finish) := by
  rw [ofFormat_bind, ← foldlM_parseLine_map, ← decoded]
  rfl

theorem parseLine_eq_ok {p q : Parser} {line : Except ReadError String} :
    parseLine p line = .ok q ↔ ∃ text, line = .ok text ∧ p.pushAll (tokens text) = .ok q := by
  cases line with
  | error cause =>
    constructor
    · exact fun run => nomatch run
    · rintro ⟨text, undecoded, -⟩
      cases undecoded
  | ok text =>
    change ofFormat (p.pushAll (tokens text)) = .ok q ↔ _
    rw [ofFormat_eq_ok]
    simp

theorem foldlM_parseLine_eq_ok {p q : Parser} {lines : List (Except ReadError String)} :
    lines.foldlM parseLine p = .ok q ↔
      ∃ texts : List String, lines = texts.map .ok ∧ p.pushAll (texts.flatMap tokens) = .ok q := by
  induction lines generalizing p with
  | nil =>
    constructor
    · intro same
      cases same
      exact ⟨[], rfl, rfl⟩
    · rintro ⟨texts, decoded, pushed⟩
      obtain rfl := List.map_eq_nil_iff.1 decoded.symm
      cases pushed
      rfl
  | cons line lines ih =>
    rw [List.foldlM_cons, bind_eq_ok]
    constructor
    · rintro ⟨next, one, more⟩
      obtain ⟨text, rfl, first⟩ := parseLine_eq_ok.1 one
      obtain ⟨texts, rfl, rest⟩ := ih.1 more
      refine ⟨text :: texts, rfl, ?_⟩
      rw [List.flatMap_cons, pushAll_append, first]
      exact rest
    · rintro ⟨texts, decoded, pushed⟩
      obtain ⟨text, texts, rfl, rfl, rfl⟩ := List.map_eq_cons_iff.1 decoded.symm
      rw [List.flatMap_cons, pushAll_append, bind_eq_ok] at pushed
      obtain ⟨next, first, rest⟩ := pushed
      exact ⟨next, parseLine_eq_ok.2 ⟨text, rfl, first⟩, ih.2 ⟨texts, rfl, rest⟩⟩

theorem parse_eq_ok {input : Input} {f : Formula} :
    parse input = .ok f ↔
      ∃ texts : List String, input.lines = texts.map .ok ∧ Derives (texts.flatMap tokens) f := by
  simp only [← pushAll_finish_eq_ok]
  unfold parse
  rw [bind_eq_ok]
  constructor
  · rintro ⟨p, pushed, finished⟩
    obtain ⟨texts, decoded, pushed⟩ := foldlM_parseLine_eq_ok.1 pushed
    exact ⟨texts, decoded, bind_eq_ok.2 ⟨p, pushed, ofFormat_eq_ok.1 finished⟩⟩
  · rintro ⟨texts, decoded, both⟩
    obtain ⟨p, pushed, finished⟩ := bind_eq_ok.1 both
    exact ⟨p, foldlM_parseLine_eq_ok.2 ⟨texts, decoded, pushed⟩, ofFormat_eq_ok.2 finished⟩

end PropSat.Text
