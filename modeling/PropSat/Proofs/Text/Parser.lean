import PropSat.Fault
import PropSat.Proofs.Text.Grammar

/-!
The parser takes in just the token sequences of the grammar. In the one direction, what it holds after some
tokens says how they came about: each list still open began with a parenthesis and its word, and its
operands were derived one after the other (`Reached`). In the other, the tokens of a formula do to a parser
that waits for an operand what the formula itself would do.
-/

namespace PropSat.Text

theorem Operator.word_of_ofWord? {word : String} {op : Operator} (known : ofWord? word = some op) :
    word = op.word := by
  unfold ofWord? at known
  split at known <;> cases known <;> rfl

theorem OpenList.close_eq_ok {op : Operator} {operands : List Formula} {f : Formula} :
    (⟨some op, operands⟩ : OpenList).close = .ok f ↔ op.build? operands.reverse = some f := by
  simp only [close]
  cases op.build? operands.reverse <;> simp

namespace Parser

theorem pushAll_cons (p : Parser) (t : Token) (ts : List Token) :
    p.pushAll (t :: ts) = p.push t >>= fun p => p.pushAll ts :=
  List.foldlM_cons

theorem pushAll_append (p : Parser) (ts us : List Token) :
    p.pushAll (ts ++ us) = p.pushAll ts >>= fun p => p.pushAll us :=
  List.foldlM_append

theorem pushAll_single (p : Parser) (t : Token) : p.pushAll [t] = p.push t :=
  (p.pushAll_cons t []).trans (bind_pure _)

section
variable (outer : List OpenList) (result : Option Formula)

theorem push_operator (op : Operator) :
    push ⟨⟨none, []⟩ :: outer, result⟩ (.word op.word) = .ok ⟨⟨some op, []⟩ :: outer, result⟩ := by
  simp [push]

theorem push_closing (list : OpenList) :
    push ⟨list :: outer, result⟩ .closing = list.close >>= emit ⟨outer, result⟩ := rfl

end

/-- The next formula becomes an operand, or the result. -/
inductive Awaits : Parser → Prop where
  | result : Awaits start
  | operand (op : Operator) (operands : List Formula) (outer : List OpenList) (result : Option Formula) :
    Awaits ⟨⟨some op, operands⟩ :: outer, result⟩

namespace Awaits

variable {p : Parser}

theorem push_word (awaits : p.Awaits) (name : String) : p.push (.word name) = p.emit (.var name) := by
  cases awaits <;> rfl

theorem push_opening (awaits : p.Awaits) :
    p.push .opening = .ok ⟨⟨none, []⟩ :: p.openLists, p.result⟩ := by
  cases awaits <;> rfl

/-- A list that takes up its operands comes down to the formula made of them. -/
theorem pushAll_enclosed (awaits : p.Awaits) (op : Operator) {ts : List Token} {args : List Formula}
    {f : Formula}
    (inner : ∀ operands, pushAll ⟨⟨some op, operands⟩ :: p.openLists, p.result⟩ ts =
      .ok ⟨⟨some op, args.reverse ++ operands⟩ :: p.openLists, p.result⟩)
    (built : op.build? args = some f) : p.pushAll (enclosed op.word ts) = p.emit f := by
  have closed : (⟨some op, args.reverse⟩ : OpenList).close = .ok f := by
    rwa [OpenList.close_eq_ok, List.reverse_reverse]
  calc p.pushAll (enclosed op.word ts)
      = pushAll ⟨⟨none, []⟩ :: p.openLists, p.result⟩ (.word op.word :: (ts ++ [.closing])) := by
        rw [enclosed, pushAll_cons, awaits.push_opening]
        rfl
    _ = pushAll ⟨⟨some op, []⟩ :: p.openLists, p.result⟩ (ts ++ [.closing]) := by
        rw [pushAll_cons, push_operator]
        rfl
    _ = push ⟨⟨some op, args.reverse⟩ :: p.openLists, p.result⟩ .closing := by
        rw [pushAll_append, inner, List.append_nil, ← pushAll_single]
        rfl
    _ = p.emit f := by
        rw [push_closing, closed]
        rfl

end Awaits

end Parser

open Text.Parser

mutual

theorem Derives.pushAll {ts : List Token} {f : Formula} {p : Parser} (derived : Derives ts f)
    (awaits : p.Awaits) : p.pushAll ts = p.emit f := by
  match derived with
  | .atom name => rw [pushAll_single, awaits.push_word]
  | .not inner => exact awaits.pushAll_enclosed .not (inner.pushAll .not _ _) rfl
  | .and inner => exact awaits.pushAll_enclosed (.binary .and) (inner.pushAll _ _ _) rfl
  | .or inner => exact awaits.pushAll_enclosed (.binary .or) (inner.pushAll _ _ _) rfl
  | .implies inner => exact awaits.pushAll_enclosed (.binary .implies) (inner.pushAll _ _ _) rfl
  | .iff inner => exact awaits.pushAll_enclosed (.binary .iff) (inner.pushAll _ _ _) rfl

theorem DerivesAll.pushAll {ts : List Token} {fs : List Formula} (derived : DerivesAll ts fs)
    (op : Operator) (outer : List OpenList) (result : Option Formula) (operands : List Formula) :
    Parser.pushAll ⟨⟨some op, operands⟩ :: outer, result⟩ ts =
      .ok ⟨⟨some op, fs.reverse ++ operands⟩ :: outer, result⟩ := by
  match derived with
  | .nil => rfl
  | .cons first rest =>
    rw [pushAll_append, first.pushAll (.operand op operands outer result), List.reverse_cons,
      List.append_assoc]
    exact rest.pushAll op outer result _

end

/-- The tokens that led to the lists still open, innermost first, each with its operator. -/
inductive Pending : List Token → List OpenList → Prop where
  | nil : Pending [] []
  | cons {before ts : List Token} {outer : List OpenList} {op : Operator} {operands : List Formula} :
    Pending before outer → DerivesAll ts operands.reverse →
      Pending (before ++ .opening :: .word op.word :: ts) (⟨some op, operands⟩ :: outer)

/-- The tokens that led to a parser. -/
inductive Reached : List Token → Parser → Prop where
  | awaiting {ts : List Token} {lists : List OpenList} : Pending ts lists → Reached ts ⟨lists, none⟩
  | opened {ts : List Token} {lists : List OpenList} :
    Pending ts lists → Reached (ts ++ [.opening]) ⟨⟨none, []⟩ :: lists, none⟩
  | complete {ts : List Token} {f : Formula} : Derives ts f → Reached ts ⟨[], some f⟩

namespace Pending

variable {before ts : List Token} {lists : List OpenList} {p : Parser}

theorem awaits (pending : Pending ts lists) : Awaits ⟨lists, none⟩ := by
  cases pending with
  | nil => exact .result
  | cons pending inner => exact .operand _ _ _ _

theorem emit {f : Formula} (pending : Pending before lists) (derived : Derives ts f)
    (emitted : Parser.emit ⟨lists, none⟩ f = .ok p) : Reached (before ++ ts) p := by
  cases pending with
  | nil =>
    cases emitted
    exact .complete derived
  | cons pending inner =>
    cases emitted
    have more := inner.concat derived
    rw [← List.reverse_cons] at more
    rw [List.append_assoc, List.cons_append, List.cons_append]
    exact .awaiting (.cons pending more)

theorem close (pending : Pending ts lists) (closed : Parser.push ⟨lists, none⟩ .closing = .ok p) :
    Reached (ts ++ [.closing]) p := by
  cases pending with
  | nil => cases closed
  | cons pending inner =>
    rw [push_closing, bind_eq_ok] at closed
    obtain ⟨f, closed, emitted⟩ := closed
    rw [List.append_assoc]
    exact pending.emit (.list inner (OpenList.close_eq_ok.1 closed)) emitted

end Pending

namespace Reached

variable {ts us : List Token} {t : Token} {p p' : Parser}

theorem push (reached : Reached ts p) (pushed : p.push t = .ok p') : Reached (ts ++ [t]) p' := by
  cases reached with
  | complete derived => cases t <;> cases pushed
  | @opened ts lists pending =>
    cases t with
    | opening | closing => cases pushed
    | word text =>
      cases known : Operator.ofWord? text with
      | none => simp [Parser.push, known] at pushed
      | some op =>
        obtain rfl := Operator.word_of_ofWord? known
        rw [push_operator] at pushed
        cases pushed
        rw [List.append_assoc]
        exact .awaiting (.cons pending .nil)
  | awaiting pending =>
    cases t with
    | opening =>
      rw [pending.awaits.push_opening] at pushed
      cases pushed
      exact .opened pending
    | closing => exact pending.close pushed
    | word text =>
      rw [pending.awaits.push_word] at pushed
      exact pending.emit (.atom text) pushed

theorem pushAll (reached : Reached ts p) (pushed : p.pushAll us = .ok p') : Reached (ts ++ us) p' := by
  induction us generalizing ts p with
  | nil =>
    cases pushed
    rwa [List.append_nil]
  | cons t us ih =>
    rw [pushAll_cons, bind_eq_ok] at pushed
    obtain ⟨next, one, pushed⟩ := pushed
    rw [← List.singleton_append, ← List.append_assoc]
    exact ih (reached.push one) pushed

theorem finish {f : Formula} (reached : Reached ts p) (finished : p.finish = .ok f) : Derives ts f := by
  cases reached with
  | awaiting pending => cases pending <;> cases finished
  | opened pending => cases finished
  | complete derived =>
    cases finished
    exact derived

end Reached

/-- Whoever pushes all tokens and then finishes has the formula that they derive, if they derive one. -/
theorem Parser.pushAll_finish_eq_ok {ts : List Token} {f : Formula} :
    start.pushAll ts >>= finish = .ok f ↔ Derives ts f := by
  rw [bind_eq_ok]
  constructor
  · rintro ⟨p, pushed, finished⟩
    exact ((Reached.awaiting .nil).pushAll pushed).finish finished
  · intro derived
    exact ⟨⟨[], some f⟩, derived.pushAll .result, rfl⟩

/-- The parser comes to a formula just where the grammar derives it from all the tokens, and the grammar
derives no other formula from them. -/
theorem Parser.accepts_grammar (ts : List Token) :
    (∀ f, start.pushAll ts >>= finish = .ok f ↔ Derives ts f) ∧
      ∀ f g, Derives ts f → Derives ts g → f = g := by
  refine ⟨fun f => pushAll_finish_eq_ok, ?_⟩
  intro f g first second
  have same : Except.ok f = (Except.ok g : Except Mistake Formula) :=
    (pushAll_finish_eq_ok.2 first).symm.trans (pushAll_finish_eq_ok.2 second)
  exact Except.ok.inj same

/-- The operators' words are names wherever they do not follow an opening parenthesis. -/
theorem Parser.accepts_grammar_operator_words :
    Derives [.opening, .word "and", .word "not", .opening, .word "if", .word "iff", .word "or", .closing,
        .word "and", .closing]
      (.and (.and (.var "not") (.implies (.var "iff") (.var "or"))) (.var "and")) ∧
    ∀ g, Derives [.opening, .word "and", .word "not", .opening, .word "if", .word "iff", .word "or",
        .closing, .word "and", .closing] g →
      g = .and (.and (.var "not") (.implies (.var "iff") (.var "or"))) (.var "and") := by
  obtain ⟨accepted, unique⟩ := accepts_grammar
    [.opening, .word "and", .word "not", .opening, .word "if", .word "iff", .word "or", .closing,
      .word "and", .closing]
  have derived := (accepted (.and (.and (.var "not") (.implies (.var "iff") (.var "or"))) (.var "and"))).1 rfl
  exact ⟨derived, fun g other => unique _ _ other derived⟩

end PropSat.Text
