import PropSat.Text.Parse

/-!
Reading with nothing taken for granted. The number of operands is judged when a list is closed, and only
after that are those of `and` and `or` joined; here there is no result if none is left to join. There always
is one, so reading an input comes to the formula or the error that it comes to otherwise (`parse?_eq`).
-/

namespace PropSat.Text

/-- What an operator makes of its operands, first judging their number. -/
def Operator.close? (op : Operator) (operands : List Formula) : Option (Except Mistake Formula) :=
  match op, operands with
  | .not, [arg] => some (.ok (.not arg))
  | .binary .implies, [left, right] => some (.ok (.implies left right))
  | .binary .iff, [left, right] => some (.ok (.iff left right))
  | .binary .and, operands =>
    if operands.length < 2 then some (.error (.wrongArity op operands.length))
    else (Connective.and.joinAll? operands).map .ok
  | .binary .or, operands =>
    if operands.length < 2 then some (.error (.wrongArity op operands.length))
    else (Connective.or.joinAll? operands).map .ok
  | _, _ => some (.error (.wrongArity op operands.length))

def OpenList.close? (list : OpenList) : Option (Except Mistake Formula) :=
  match list.operator with
  | none => some (.error .emptyList)
  | some op => op.close? list.operands.reverse

namespace Parser

def push? (p : Parser) (token : Token) : ExceptT Mistake Option Parser :=
  match token, p.openLists with
  | .closing, list :: outer => do
    let f ← ExceptT.mk list.close?
    ExceptT.mk (some (emit ⟨outer, p.result⟩ f))
  | _, _ => ExceptT.mk (some (p.push token))

end Parser

def parseLine? (p : Parser) (line : Except ReadError String) : ExceptT ParseError Option Parser := do
  let line ← ExceptT.mk (some (ofRead line))
  ExceptT.mk (((tokens line).foldlM Parser.push? p).run.map ofFormat)

/-- The formula an input holds or the error in it, if reading comes to an end at all. -/
def parse? (input : Input) : ExceptT ParseError Option Formula := do
  let p ← input.lines.foldlM parseLine? Parser.start
  ExceptT.mk (some (ofFormat p.finish))

theorem Operator.close?_eq (op : Operator) (operands : List Formula) :
    op.close? operands = some (match op.build? operands with
      | some f => .ok f
      | none => .error (.wrongArity op operands.length)) := by
  rcases op with _ | op
  · rcases operands with _ | ⟨first, _ | ⟨second, rest⟩⟩ <;> rfl
  · cases op with
    | and | or =>
      rcases operands with _ | ⟨first, _ | ⟨second, rest⟩⟩
      · rfl
      · rfl
      · simp [close?, build?, Connective.joinAll?]
    | implies | iff =>
      rcases operands with _ | ⟨first, _ | ⟨second, _ | ⟨third, rest⟩⟩⟩ <;> rfl

theorem OpenList.close?_eq (list : OpenList) : list.close? = some list.close := by
  unfold close? close
  cases list.operator with
  | none => rfl
  | some op =>
    have closed := Operator.close?_eq op list.operands.reverse
    rw [List.length_reverse] at closed
    exact closed

section
variable {ε α σ : Type}

theorem mk_some_bind (x : Except ε α) (next : α → Except ε σ) :
    (ExceptT.mk (some x) >>= fun a => ExceptT.mk (some (next a)) : ExceptT ε Option σ) =
      ExceptT.mk (some (x >>= next)) := by
  cases x <;> rfl

/-- Where no step ever lacks a result, neither does the whole. -/
theorem foldlM_some {step? : σ → α → ExceptT ε Option σ} {step : σ → α → Except ε σ}
    (each : ∀ s x, step? s x = ExceptT.mk (some (step s x))) (s : σ) (xs : List α) :
    xs.foldlM step? s = ExceptT.mk (some (xs.foldlM step s)) := by
  induction xs generalizing s with
  | nil => rfl
  | cons x xs ih =>
    rw [List.foldlM_cons, List.foldlM_cons, each, funext ih, mk_some_bind]

end

theorem Parser.push?_eq (p : Parser) (token : Token) : p.push? token = ExceptT.mk (some (p.push token)) := by
  unfold push?
  split
  case h_1 list outer opened =>
    rw [OpenList.close?_eq, mk_some_bind, push]
    simp only [opened]
  case h_2 => rfl

theorem parseLine?_eq (p : Parser) (line : Except ReadError String) :
    parseLine? p line = ExceptT.mk (some (parseLine p line)) := by
  simp only [parseLine?, foldlM_some Parser.push?_eq]
  exact mk_some_bind _ _

theorem parse?_eq (input : Input) : parse? input = ExceptT.mk (some (parse input)) := by
  rw [parse?, foldlM_some parseLine?_eq, mk_some_bind]
  rfl

end PropSat.Text
