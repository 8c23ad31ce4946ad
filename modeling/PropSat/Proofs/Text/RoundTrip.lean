import PropSat.Proofs.NameTable
import PropSat.Proofs.Text.Input
import PropSat.Proofs.Text.Parse
import PropSat.Proofs.Text.Token

/-!
Printing and reading back. The text of a formula whose names are words is one line without comment, and it
is cut into the tokens of the formula. A name that is no word never comes back, since nothing but words is
ever read.
-/

namespace PropSat.Text

theorem parted_blank (rest : List Char) : Parted (' ' :: rest) := by
  rintro c ⟨⟩
  exact .inr (.inr rfl)

theorem parted_closing (rest : List Char) : Parted (')' :: rest) := by
  rintro c ⟨⟩
  exact .inr (.inl rfl)

/-- The characters are part of one line, without comment, and are cut into just these tokens wherever the
last of them is parted from what follows. -/
structure Spells (chars : List Char) (ts : List Token) : Prop where
  scanned : ∀ rest, Parted rest → scan (chars ++ rest) = ts ++ scan rest
  code : ';' ∉ chars
  unbroken : '\n' ∉ chars

namespace Spells

variable {chars more : List Char} {ts us : List Token} {name : String}

theorem word (known : IsWord name) : Spells name.toList [.word name] where
  scanned _ parted := scan_word known parted
  code := known.semicolon_notMem
  unbroken := known.newline_notMem

theorem append (first : Spells chars ts) (second : Spells more us) :
    Spells (chars ++ ' ' :: more) (ts ++ us) where
  scanned rest parted := by
    calc scan (chars ++ ' ' :: more ++ rest)
        = scan (chars ++ ' ' :: (more ++ rest)) := by rw [List.append_assoc, List.cons_append]
      _ = ts ++ scan (more ++ rest) := by
        rw [first.scanned _ (parted_blank _), scan_blank rfl]
      _ = ts ++ us ++ scan rest := by rw [second.scanned _ parted, List.append_assoc]
  code := by simp [first.code, second.code]
  unbroken := by simp [first.unbroken, second.unbroken]

theorem enclosed (known : IsWord name) (inner : Spells chars ts) :
    Spells ('(' :: (name.toList ++ ' ' :: (chars ++ [')']))) (Text.enclosed name ts) where
  scanned rest _ := by
    calc scan ('(' :: (name.toList ++ ' ' :: (chars ++ [')'])) ++ rest)
        = scan ('(' :: (name.toList ++ ' ' :: (chars ++ ')' :: rest))) := by simp
      _ = .opening :: .word name :: scan (chars ++ ')' :: rest) := by
        rw [scan_opening, scan_word known (parted_blank _), scan_blank rfl]
      _ = .opening :: .word name :: (ts ++ .closing :: scan rest) := by
        rw [inner.scanned _ (parted_closing _), scan_closing]
      _ = Text.enclosed name ts ++ scan rest := by simp [Text.enclosed]
  code := by simp [inner.code, known.semicolon_notMem]
  unbroken := by simp [inner.unbroken, known.newline_notMem]

theorem scan_eq (spells : Spells chars ts) : scan chars = ts := by
  have alone := spells.scanned [] (by simp [Parted])
  rw [List.append_nil] at alone
  rw [alone]
  exact List.append_nil ts

end Spells

end PropSat.Text

namespace PropSat.Formula

open Text

theorem toList_text_not (arg : Formula) :
    (not arg).text.toList = '(' :: ("not".toList ++ ' ' :: (arg.text.toList ++ [')'])) := by
  simp

theorem toList_text_binary (op : Connective) (left right : Formula) :
    (binary op left right).text.toList =
      '(' :: (op.word.toList ++ ' ' :: (left.text.toList ++ ' ' :: right.text.toList ++ [')'])) := by
  simp

theorem spells_text {f : Formula} (words : ∀ name ∈ f.names, IsWord name) :
    Spells f.text.toList f.tokens := by
  induction f with
  | var name =>
    rw [text_var]
    exact .word (words name (List.mem_singleton.2 rfl))
  | not arg ih =>
    rw [toList_text_not]
    exact .enclosed (isWord_operator .not) (ih words)
  | binary op left right ihl ihr =>
    obtain ⟨leftWords, rightWords⟩ := List.forall_mem_append.1 words
    rw [toList_text_binary]
    exact .enclosed (isWord_operator (.binary op)) ((ihl leftWords).append (ihr rightWords))

theorem tokens_ne_nil (f : Formula) : f.tokens ≠ [] := by
  cases f <;> exact List.cons_ne_nil _ _

theorem text_ne_empty {f : Formula} (words : ∀ name ∈ f.names, IsWord name) : f.text ≠ "" := by
  intro empty
  apply f.tokens_ne_nil
  rw [← (spells_text words).scan_eq, empty]
  rfl

theorem parse_text {f : Formula} (words : ∀ name ∈ f.names, IsWord name) {input : Input}
    (line : input.lines = [.ok f.text]) : parse input = .ok f := by
  have spells := spells_text words
  rw [parse_eq_ok]
  refine ⟨[f.text], line, ?_⟩
  rw [List.flatMap_singleton, tokens_eq_scan spells.code, spells.scan_eq]
  exact f.derives_tokens

theorem parseString_text {f : Formula} (words : ∀ name ∈ f.names, IsWord name) :
    parseString f.text = .ok f :=
  parse_text words (Input.lines_ofString (text_ne_empty words) (spells_text words).unbroken)

theorem parseString_text_newline {f : Formula} (words : ∀ name ∈ f.names, IsWord name) :
    parseString (f.text ++ "\n") = .ok f :=
  parse_text words (Input.lines_ofString_newline (spells_text words).unbroken)

/-- Whatever is read has no name that could not be written. -/
theorem isWord_of_parse {input : Input} {f : Formula} (parsed : parse input = .ok f) :
    ∀ name ∈ f.names, IsWord name := by
  intro name here
  obtain ⟨texts, -, derived⟩ := parse_eq_ok.1 parsed
  obtain ⟨text, -, member⟩ := List.mem_flatMap.1 (derived.word_mem here)
  exact writable_tokens text _ member

/-- A printed formula is read back as itself just if all its names are words, which the operators' words are
too. A formula that was read from somewhere always is. -/
theorem parseString_text_iff (f : Formula) :
    (parseString f.text = .ok f ↔ ∀ name ∈ f.vars, IsWord name) ∧
      (∀ op : Operator, IsWord op.word) ∧
      ∀ input : Input, parse input = .ok f → parseString f.text = .ok f := by
  simp only [mem_vars]
  refine ⟨⟨isWord_of_parse, parseString_text⟩, isWord_operator, ?_⟩
  intro input parsed
  exact parseString_text (isWord_of_parse parsed)

/-- A formula over operators' words, read from two lines of which the first has a comment. -/
theorem parseString_text_iff_operator_words :
    parse (.ofString "(and if ; (\n(not\tor))") = .ok (.and (.var "if") (.not (.var "or"))) ∧
      parseString (Formula.and (.var "if") (.not (.var "or"))).text =
        .ok (.and (.var "if") (.not (.var "or"))) := by
  obtain ⟨-, -, again⟩ := parseString_text_iff (.and (.var "if") (.not (.var "or")))
  have parsed : parse (.ofString "(and if ; (\n(not\tor))") =
      .ok (.and (.var "if") (.not (.var "or"))) := rfl
  exact ⟨parsed, again _ parsed⟩

end PropSat.Formula
