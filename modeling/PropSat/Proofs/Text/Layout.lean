import PropSat.Proofs.Text.Input
import PropSat.Proofs.Text.Parse
import PropSat.Proofs.Text.Token

/-!
The many ways to lay out tokens as a text. Between two tokens may stand any white space, line feeds and comments up
to the end of their lines; between two words something of the kind has to. However the tokens are laid out, the text
is read as these tokens and no others, and every text is a layout of just one sequence of tokens
(`parseString_layout`).
-/

namespace PropSat.Text

/-- White space, with line feeds and whole comments in it. -/
inductive Gap : List Char → Prop where
  | nil : Gap []
  | blank {c : Char} {rest : List Char} : isBlank c = true → Gap rest → Gap (c :: rest)
  | comment {remark rest : List Char} : '\n' ∉ remark → Gap rest → Gap (';' :: (remark ++ '\n' :: rest))

/-- What may stand behind all tokens, where a comment may end with the text. -/
inductive Rest : List Char → Prop where
  | gap {gap : List Char} : Gap gap → Rest gap
  | comment {gap remark : List Char} : Gap gap → '\n' ∉ remark → Rest (gap ++ ';' :: remark)

def Token.chars : Token → List Char
  | .opening => ['(']
  | .closing => [')']
  | .word name => name.toList

/-- A word with a word behind it. -/
def Token.Touches (t : Token) (ts : List Token) : Prop :=
  ∃ name next, t = .word name ∧ ts.head? = some (.word next)

/-- A text that begins with its first token, each token with the gap behind it. -/
inductive Follow : List Token → List Char → Prop where
  | nil {text : List Char} : Rest text → Follow [] text
  | cons {t : Token} {ts : List Token} {gap text : List Char} : t.Writable → Gap gap →
    (t.Touches ts → gap ≠ []) → Follow ts text → Follow (t :: ts) (t.chars ++ (gap ++ text))

/-- The text shows these tokens and nothing else. -/
def Layout (ts : List Token) (text : List Char) : Prop :=
  ∃ gap body, text = gap ++ body ∧ Gap gap ∧ Follow ts body

/-! A text of several lines, from its front. -/

def allTokens (text : List Char) : List Token :=
  (text.splitOn '\n').flatMap fun line => scan (code line)

/-- No letter that would belong to a word in front. -/
def Apart (text : List Char) : Prop := ∀ c ∈ text.head?, ¬IsPlain c

section
variable {first front text : List Char} {ts : List Token}

theorem allTokens_line (unbroken : '\n' ∉ first) (rest : List Char) :
    allTokens (first ++ '\n' :: rest) = scan (code first) ++ allTokens rest := by
  have cut : (first ++ '\n' :: rest).splitOn '\n' = first.splitOn '\n' ++ rest.splitOn '\n' :=
    List.splitOnP_append_cons first rest (beq_self_eq_true '\n')
  rw [allTokens, cut, List.splitOn_eq_singleton unbroken, List.flatMap_append, List.flatMap_singleton]
  rfl

theorem allTokens_last (unbroken : '\n' ∉ text) : allTokens text = scan (code text) := by
  rw [allTokens, List.splitOn_eq_singleton unbroken, List.flatMap_singleton]

/-- What is put in front of a text goes to its first line. -/
theorem exists_line (text : List Char) :
    ∃ line later, (∀ c ∈ line.head?, c ∈ text.head?) ∧
      ∀ front, '\n' ∉ front → allTokens (front ++ text) = scan (code (front ++ line)) ++ later := by
  by_cases feed : '\n' ∈ text
  · obtain ⟨line, rest, rfl, unbroken⟩ := List.eq_append_cons_of_mem feed
    refine ⟨line, allTokens rest, ?_, ?_⟩
    · intro c here
      rw [List.head?_append, Option.mem_def.1 here]
      rfl
    · intro front whole
      have both : '\n' ∉ front ++ line := by simp [whole, unbroken]
      rw [← List.append_assoc, allTokens_line both]
  · refine ⟨text, [], fun c here => here, ?_⟩
    intro front whole
    have both : '\n' ∉ front ++ text := by simp [whole, feed]
    rw [allTokens_last both, List.append_nil]

/-- What is cut out of a line in front of whatever else is in it is cut out of the whole text. -/
theorem allTokens_append (front : List Char) (ts : List Token) (unbroken : '\n' ∉ front)
    (cut : ∀ line : List Char, (∀ c ∈ line.head?, c ∈ text.head?) →
      scan (code (front ++ line)) = ts ++ scan (code line)) :
    allTokens (front ++ text) = ts ++ allTokens text := by
  obtain ⟨line, later, begins, goes⟩ := exists_line text
  have alone : allTokens text = scan (code line) ++ later := goes [] List.not_mem_nil
  rw [goes front unbroken, cut line begins, alone, List.append_assoc]

theorem code_cons {c : Char} (talks : c ≠ ';') (line : List Char) : code (c :: line) = c :: code line :=
  List.takeWhile_cons_of_pos (bne_iff_ne.2 talks)

theorem allTokens_opening (text : List Char) : allTokens ('(' :: text) = .opening :: allTokens text := by
  apply allTokens_append ['('] [.opening] (by decide)
  intro line _
  rw [List.singleton_append, code_cons (by decide), scan_opening]
  rfl

theorem allTokens_closing (text : List Char) : allTokens (')' :: text) = .closing :: allTokens text := by
  apply allTokens_append [')'] [.closing] (by decide)
  intro line _
  rw [List.singleton_append, code_cons (by decide), scan_closing]
  rfl

theorem allTokens_blank {c : Char} (blank : isBlank c = true) (text : List Char) :
    allTokens (c :: text) = allTokens text := by
  by_cases feed : c = '\n'
  · subst feed
    exact allTokens_line List.not_mem_nil text
  · apply allTokens_append [c] [] (by simpa using Ne.symm feed)
    intro line _
    have talks : c ≠ ';' := by rintro rfl; revert blank; decide
    rw [List.singleton_append, code_cons talks, scan_blank blank]
    rfl

theorem allTokens_comment {remark : List Char} (unbroken : '\n' ∉ remark) (text : List Char) :
    allTokens (';' :: (remark ++ '\n' :: text)) = allTokens text := by
  have whole : '\n' ∉ ';' :: remark := by simpa using unbroken
  rw [← List.cons_append, allTokens_line whole]
  rfl

theorem allTokens_lastComment {remark : List Char} (unbroken : '\n' ∉ remark) :
    allTokens (';' :: remark) = [] := by
  have whole : '\n' ∉ ';' :: remark := by simpa using unbroken
  rw [allTokens_last whole]
  rfl

theorem Apart.parted_code (apart : Apart text) : Parted (code text) := by
  cases text with
  | nil => rintro c ⟨⟩
  | cons c text =>
    by_cases talks : c = ';'
    · subst talks
      rintro c ⟨⟩
    · rw [code_cons talks]
      rintro d ⟨⟩
      rcases not_isPlain.1 (apart c rfl) with opens | closes | blank | remark
      · exact .inl opens
      · exact .inr (.inl closes)
      · exact .inr (.inr blank)
      · exact absurd remark talks

theorem code_append (talks : ';' ∉ front) (line : List Char) : code (front ++ line) = front ++ code line := by
  induction front with
  | nil => rfl
  | cons c front ih =>
    rw [List.mem_cons, not_or] at talks
    rw [List.cons_append, code_cons (Ne.symm talks.1), ih talks.2]
    rfl

theorem allTokens_word {name : String} (known : IsWord name) (apart : Apart text) :
    allTokens (name.toList ++ text) = .word name :: allTokens text := by
  apply allTokens_append name.toList [.word name] known.newline_notMem
  intro line begins
  have parted : Parted (code line) := Apart.parted_code fun c here => apart c (begins c here)
  rw [code_append known.semicolon_notMem, scan_word known parted]
  rfl

end

/-! From a layout to its tokens. -/

theorem isBlank_unplain {c : Char} (blank : isBlank c = true) : ¬IsPlain c :=
  not_isPlain.2 (.inr (.inr (.inl blank)))

section
variable {gap text : List Char} {t : Token} {ts : List Token}

theorem Gap.allTokens (skipped : Gap gap) (text : List Char) : allTokens (gap ++ text) = allTokens text := by
  induction skipped with
  | nil => rfl
  | blank white _ ih => rw [List.cons_append, allTokens_blank white, ih]
  | comment unbroken _ ih =>
    rw [List.cons_append, List.append_assoc, List.cons_append, allTokens_comment unbroken, ih]

theorem Rest.allTokens (rest : Rest text) : allTokens text = [] := by
  cases rest with
  | gap skipped =>
    have nothingLeft := skipped.allTokens []
    rwa [List.append_nil] at nothingLeft
  | comment skipped unbroken => rw [skipped.allTokens, allTokens_lastComment unbroken]

theorem Gap.apart (skipped : Gap gap) (more : gap = [] → Apart text) : Apart (gap ++ text) := by
  cases skipped with
  | nil => exact more rfl
  | blank white _ =>
    rintro c ⟨⟩
    exact isBlank_unplain white
  | comment _ _ =>
    rintro c ⟨⟩
    decide

theorem Rest.apart (rest : Rest text) : Apart text := by
  cases rest with
  | gap skipped =>
    rw [← List.append_nil text]
    apply skipped.apart
    rintro - c ⟨⟩
  | comment skipped _ =>
    apply skipped.apart
    rintro - c ⟨⟩
    decide

/-- Only a word begins with a letter that could belong to a word. -/
theorem Follow.apart (follow : Follow ts text) (noWord : ∀ name, ts.head? ≠ some (.word name)) : Apart text := by
  cases follow with
  | nil rest => exact rest.apart
  | @cons t ts gap text _ _ _ _ =>
    cases t with
    | word name => exact absurd rfl (noWord name)
    | opening | closing =>
      rintro c ⟨⟩
      decide

theorem Follow.allTokens (follow : Follow ts text) : allTokens text = ts := by
  induction follow with
  | nil rest => exact rest.allTokens
  | @cons t ts gap text writable skipped apart follow ih =>
    have behind : Text.allTokens (gap ++ text) = ts := by rw [skipped.allTokens, ih]
    cases t with
    | opening => rw [← behind]; exact allTokens_opening _
    | closing => rw [← behind]; exact allTokens_closing _
    | word name =>
      have ends : Apart (gap ++ text) := by
        apply skipped.apart
        intro together
        apply follow.apart
        intro next another
        exact apart ⟨name, next, rfl, another⟩ together
      rw [← behind]
      exact allTokens_word writable ends

theorem Layout.allTokens (layout : Layout ts text) : allTokens text = ts := by
  obtain ⟨gap, body, rfl, skipped, follow⟩ := layout
  rw [skipped.allTokens, follow.allTokens]

end

/-! From a text to a layout that it is. -/

section
variable {text : List Char} {ts : List Token}

theorem Layout.blank {c : Char} (white : isBlank c = true) (layout : Layout ts text) : Layout ts (c :: text) := by
  obtain ⟨gap, body, rfl, skipped, follow⟩ := layout
  exact ⟨c :: gap, body, rfl, .blank white skipped, follow⟩

theorem Layout.comment {remark : List Char} (unbroken : '\n' ∉ remark) (layout : Layout ts text) :
    Layout ts (';' :: (remark ++ '\n' :: text)) := by
  obtain ⟨gap, body, rfl, skipped, follow⟩ := layout
  refine ⟨';' :: (remark ++ '\n' :: gap), body, ?_, .comment unbroken skipped, follow⟩
  rw [List.cons_append, List.append_assoc, List.cons_append]

theorem Layout.lastComment {remark : List Char} (unbroken : '\n' ∉ remark) : Layout [] (';' :: remark) :=
  ⟨[], ';' :: remark, rfl, .nil, .nil (.comment .nil unbroken)⟩

/-- A token goes in front of whatever does not run into it. -/
theorem Layout.token {t : Token} (writable : t.Writable) (apart : ∀ name, t = .word name → Apart text)
    (layout : Layout ts text) : Layout (t :: ts) (t.chars ++ text) := by
  obtain ⟨gap, body, rfl, skipped, follow⟩ := layout
  refine ⟨[], t.chars ++ (gap ++ body), rfl, .nil, .cons writable skipped ?_ follow⟩
  rintro ⟨name, next, rfl, another⟩ rfl
  -- the next word would begin right behind this one
  cases follow with
  | nil rest => cases another
  | cons known _ _ _ =>
    cases another
    obtain ⟨c, letters, begins⟩ := List.exists_cons_of_ne_nil (IsWord.toList_ne_nil known)
    have plain : IsPlain c := known.plain c (begins ▸ List.mem_cons_self)
    apply apart name rfl c _ plain
    rw [Token.chars, begins]
    rfl

/-- The letters of a word up to where it ends. -/
theorem exists_word {c : Char} (plain : IsPlain c) (rest : List Char) :
    ∃ letters later, c :: rest = letters ++ later ∧ letters ≠ [] ∧ (∀ d ∈ letters, IsPlain d) ∧ Apart later := by
  refine ⟨(c :: rest).takeWhile (IsPlain ·), (c :: rest).dropWhile (IsPlain ·),
    List.takeWhile_append_dropWhile.symm, ?_, ?_, ?_⟩
  · simp [plain]
  · intro d member
    have letter := List.mem_takeWhile_imp member
    exact of_decide_eq_true letter
  · intro d begins
    have stops := List.head?_dropWhile_not (fun d => decide (IsPlain d)) (c :: rest)
    rw [Option.mem_def.1 begins] at stops
    exact of_decide_eq_false stops

theorem exists_layout (text : List Char) : ∃ ts, Layout ts text := by
  cases text with
  | nil => exact ⟨[], [], [], rfl, .nil, .nil (.gap .nil)⟩
  | cons c rest =>
    by_cases plain : IsPlain c
    case pos =>
      obtain ⟨letters, later, cut, full, plains, apart⟩ := exists_word plain rest
      have shorter : later.length < rest.length + 1 := by
        have total := congrArg List.length cut
        have someLetter := List.length_pos_iff.2 full
        rw [List.length_cons, List.length_append] at total
        omega
      obtain ⟨ts, layout⟩ := exists_layout later
      have word := layout.token (t := .word (String.ofList letters)) (isWord_ofList full plains) fun _ _ => apart
      rw [Token.chars, String.toList_ofList, ← cut] at word
      exact ⟨_, word⟩
    case neg =>
      rcases not_isPlain.1 plain with rfl | rfl | white | rfl
      · obtain ⟨ts, layout⟩ := exists_layout rest
        exact ⟨.opening :: ts, layout.token trivial nofun⟩
      · obtain ⟨ts, layout⟩ := exists_layout rest
        exact ⟨.closing :: ts, layout.token trivial nofun⟩
      · obtain ⟨ts, layout⟩ := exists_layout rest
        exact ⟨ts, layout.blank white⟩
      · by_cases feed : '\n' ∈ rest
        · obtain ⟨remark, later, cut, unbroken⟩ := List.eq_append_cons_of_mem feed
          have shorter := length_lt_of_cut cut
          obtain ⟨ts, layout⟩ := exists_layout later
          rw [cut]
          exact ⟨ts, layout.comment unbroken⟩
        · exact ⟨[], .lastComment feed⟩
termination_by text.length
decreasing_by all_goals simp only [List.length_cons]; omega

theorem layout_iff : Layout ts text ↔ allTokens text = ts := by
  constructor
  · exact Layout.allTokens
  · rintro rfl
    obtain ⟨ts, layout⟩ := exists_layout text
    rwa [layout.allTokens]

end

/-! The lines of a text. -/

theorem bytes_ofString (text : List Char) :
    (Input.ofString (String.ofList text)).bytes.data.toList = text.flatMap String.utf8EncodeChar := by
  rw [Input.ofString, Input.ofBytes, toList_toUTF8, String.toList_ofList]

/-- All lines of a text can be decoded, and they have its tokens. -/
theorem lines_allTokens (text : List Char) :
    ∃ texts : List String, (Input.ofString (String.ofList text)).lines = texts.map .ok ∧
      texts.flatMap tokens = allTokens text := by
  by_cases feed : '\n' ∈ text
  case pos =>
    obtain ⟨first, rest, cut, unbroken⟩ := List.eq_append_cons_of_mem feed
    have shorter := length_lt_of_cut cut
    obtain ⟨texts, decoded, all⟩ := lines_allTokens rest
    refine ⟨String.ofList first :: texts, ?_, ?_⟩
    · have bytes : (Input.ofString (String.ofList text)).bytes.data.toList =
          (String.ofList first).toUTF8.data.toList ++ 10 :: (String.ofList rest).toUTF8.data.toList := by
        rw [bytes_ofString, cut, List.flatMap_append, List.flatMap_cons, toList_toUTF8, toList_toUTF8,
          String.toList_ofList, String.toList_ofList]
        rfl
      have whole : '\n' ∉ (String.ofList first).toList := by rwa [String.toList_ofList]
      rw [Input.lines_cons (newline_notMem_toUTF8 whole) bytes, Input.decodeLine_toUTF8, List.map_cons, ← decoded]
      rfl
    · rw [cut, allTokens_line unbroken, List.flatMap_cons, all, tokens, String.toList_ofList]
  case neg =>
    by_cases empty : text = []
    · subst empty
      exact ⟨[], rfl, rfl⟩
    · have full : String.ofList text ≠ "" := by
        rwa [ne_eq, ← String.toList_eq_nil_iff, String.toList_ofList]
      have whole : '\n' ∉ (String.ofList text).toList := by rwa [String.toList_ofList]
      refine ⟨[String.ofList text], Input.lines_ofString full whole, ?_⟩
      rw [List.flatMap_singleton, tokens, String.toList_ofList, allTokens_last feed]
termination_by text.length

theorem parseString_eq (s : String) :
    parseString s = ofFormat (Parser.start.pushAll (allTokens s.toList) >>= Parser.finish) := by
  obtain ⟨texts, decoded, all⟩ := lines_allTokens s.toList
  rw [String.ofList_toList] at decoded
  rw [parseString, parse_decoded decoded, all]

/-- However tokens are laid out as a text, the text is read as if they were handed to the parser one by one; and
there is no text but shows some tokens, and no other tokens too. -/
theorem parseString_layout (s : String) :
    (∀ ts, Layout ts s.toList → parseString s = ofFormat (Parser.start.pushAll ts >>= Parser.finish)) ∧
      ∃! ts, Layout ts s.toList := by
  constructor
  · intro ts layout
    rw [parseString_eq, layout.allTokens]
  · refine ⟨allTokens s.toList, layout_iff.2 rfl, ?_⟩
    intro ts layout
    exact layout.allTokens.symm

/-- Comments, one that a word runs into and one that the text ends in, and white space of several kinds. -/
theorem parseString_layout_comments :
    Layout [.opening, .word "and", .word "a", .word "b", .opening, .word "not", .word "c", .closing, .closing]
        "; (a\n(and\u00a0a;x)(\r\nb\t;;\n (not\n c)) ; end".toList ∧
      parseString "; (a\n(and\u00a0a;x)(\r\nb\t;;\n (not\n c)) ; end" =
        ofFormat (Parser.start.pushAll [.opening, .word "and", .word "a", .word "b", .opening, .word "not",
          .word "c", .closing, .closing] >>= Parser.finish) := by
  obtain ⟨read, -⟩ := parseString_layout "; (a\n(and\u00a0a;x)(\r\nb\t;;\n (not\n c)) ; end"
  have layout : Layout [.opening, .word "and", .word "a", .word "b", .opening, .word "not", .word "c", .closing,
      .closing] "; (a\n(and\u00a0a;x)(\r\nb\t;;\n (not\n c)) ; end".toList := layout_iff.2 rfl
  exact ⟨layout, read _ layout⟩

end PropSat.Text
