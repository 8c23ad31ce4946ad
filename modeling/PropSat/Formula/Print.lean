import PropSat.Formula.Basic

/-!
The text of a formula: `name`, `(not x)`, `(and x y)`, `(or x y)`, `(if x y)`, `(iff x y)`. Always
binary, one blank between operands.
-/

namespace PropSat

def Connective.word : Connective → String
  | .and => "and"
  | .or => "or"
  | .implies => "if"
  | .iff => "iff"

namespace Formula

inductive Piece where
  | formula (f : Formula)
  | text (s : String)

def Piece.weight : Piece → Nat
  | .formula f => 4 * f.size
  | .text _ => 1

def Piece.total : List Piece → Nat
  | [] => 0
  | piece :: pending => piece.weight + total pending

/-- Writes the pieces in order after what is already written. -/
def writeAll : List Piece → String → String
  | [], out => out
  | .text s :: pending, out => writeAll pending (out ++ s)
  | .formula (.var name) :: pending, out => writeAll pending (out ++ name)
  | .formula (.not arg) :: pending, out =>
    writeAll (.formula arg :: .text ")" :: pending) (out ++ "(not ")
  | .formula (.binary op left right) :: pending, out =>
    writeAll (.formula left :: .text " " :: .formula right :: .text ")" :: pending)
      (out ++ "(" ++ op.word ++ " ")
termination_by pending => Piece.total pending
decreasing_by all_goals simp only [Piece.total, Piece.weight, size]; omega

def text (f : Formula) : String := writeAll [.formula f] ""

instance : ToString Formula := ⟨text⟩

theorem writeAll_after (start : String) (pending : List Piece) (out : String) :
    writeAll pending (start ++ out) = start ++ writeAll pending out := by
  fun_induction writeAll pending out <;> simp_all [writeAll, String.append_assoc]

theorem writeAll_append (first second : List Piece) (out : String) :
    writeAll (first ++ second) out = writeAll second (writeAll first out) := by
  fun_induction writeAll first out <;> simp_all [writeAll]

theorem writeAll_formula (f : Formula) (pending : List Piece) (out : String) :
    writeAll (.formula f :: pending) out = writeAll pending (out ++ f.text) := by
  rw [← List.singleton_append, writeAll_append, text, ← writeAll_after, String.append_empty]

@[simp] theorem text_var (name : String) : (var name).text = name := by
  simp [text, writeAll]

@[simp] theorem text_not (arg : Formula) : (not arg).text = "(not " ++ arg.text ++ ")" := by
  rw [text, writeAll, writeAll_formula]
  simp [writeAll]

@[simp] theorem text_binary (op : Connective) (left right : Formula) :
    (binary op left right).text =
      "(" ++ op.word ++ " " ++ left.text ++ " " ++ right.text ++ ")" := by
  rw [text, writeAll, writeAll_formula, writeAll, writeAll_formula]
  simp [writeAll]

end Formula

end PropSat
