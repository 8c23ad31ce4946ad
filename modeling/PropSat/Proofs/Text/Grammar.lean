import PropSat.Proofs.Formula.Spines
import PropSat.Text.Parser

/-!
The grammar of token sequences. A word alone is a name, whatever the word; after an opening parenthesis
stands one of five words, which says how many formulas may follow up to the closing one. `and` and `or`
take two or more and join them to the left.
-/

namespace PropSat.Text

/-- A list with the word in front. -/
def enclosed (word : String) (ts : List Token) : List Token :=
  .opening :: .word word :: (ts ++ [.closing])

mutual

/-- The tokens are those of the formula. -/
inductive Derives : List Token → Formula → Prop where
  | atom (name : String) : Derives [.word name] (.var name)
  | not {ts : List Token} {f : Formula} :
    DerivesAll ts [f] → Derives (enclosed "not" ts) (.not f)
  | and {ts : List Token} {f g : Formula} {fs : List Formula} :
    DerivesAll ts (f :: g :: fs) → Derives (enclosed "and" ts) ((g :: fs).foldl .and f)
  | or {ts : List Token} {f g : Formula} {fs : List Formula} :
    DerivesAll ts (f :: g :: fs) → Derives (enclosed "or" ts) ((g :: fs).foldl .or f)
  | implies {ts : List Token} {f g : Formula} :
    DerivesAll ts [f, g] → Derives (enclosed "if" ts) (.implies f g)
  | iff {ts : List Token} {f g : Formula} :
    DerivesAll ts [f, g] → Derives (enclosed "iff" ts) (.iff f g)

/-- The tokens are those of the formulas, one formula after the other. -/
inductive DerivesAll : List Token → List Formula → Prop where
  | nil : DerivesAll [] []
  | cons {ts us : List Token} {f : Formula} {fs : List Formula} :
    Derives ts f → DerivesAll us fs → DerivesAll (ts ++ us) (f :: fs)

end

theorem DerivesAll.single {ts : List Token} {f : Formula} (derived : Derives ts f) :
    DerivesAll ts [f] := by
  have alone := DerivesAll.cons derived .nil
  rwa [List.append_nil] at alone

theorem DerivesAll.concat {ts us : List Token} {f : Formula} {fs : List Formula}
    (before : DerivesAll ts fs) (derived : Derives us f) : DerivesAll (ts ++ us) (fs ++ [f]) := by
  match before with
  | .nil => exact .single derived
  | .cons first rest =>
    rw [List.append_assoc]
    exact .cons first (rest.concat derived)

/-- What an operator makes of its operands is what the grammar says of its word. -/
theorem Derives.list {ts : List Token} {op : Operator} {f : Formula} {args : List Formula}
    (inner : DerivesAll ts args) (built : op.build? args = some f) :
    Derives (enclosed op.word ts) f := by
  unfold Operator.build? at built
  split at built
  case h_1 => cases built; exact .not inner
  case h_2 => cases built; exact .and inner
  case h_3 => cases built; exact .or inner
  case h_4 => cases built; exact .implies inner
  case h_5 => cases built; exact .iff inner
  case h_6 => cases built

theorem subset_enclosed (word : String) (ts : List Token) : ts ⊆ enclosed word ts := by
  intro t member
  simp [enclosed, member]

mutual

/-- A formula has no name but those that stand as words among its tokens. -/
theorem Derives.word_mem {ts : List Token} {f : Formula} (derived : Derives ts f) {name : String}
    (here : name ∈ f.names) : .word name ∈ ts := by
  match derived with
  | .atom _ =>
    rw [Formula.names, List.mem_singleton] at here
    exact here ▸ List.mem_singleton.2 rfl
  | .not inner =>
    apply subset_enclosed
    exact inner.word_mem (by simpa [Formula.names] using here)
  | .and inner =>
    apply subset_enclosed
    rw [Formula.names_joinAll (Connective.joinAll?_cons .and _ _)] at here
    exact inner.word_mem here
  | .or inner =>
    apply subset_enclosed
    rw [Formula.names_joinAll (Connective.joinAll?_cons .or _ _)] at here
    exact inner.word_mem here
  | .implies inner | .iff inner =>
    apply subset_enclosed
    exact inner.word_mem (by simpa [Formula.names] using here)

theorem DerivesAll.word_mem {ts : List Token} {fs : List Formula} (derived : DerivesAll ts fs)
    {name : String} (here : name ∈ fs.flatMap Formula.names) : .word name ∈ ts := by
  match derived with
  | .nil => cases here
  | .cons first rest =>
    rw [List.flatMap_cons, List.mem_append] at here
    rw [List.mem_append]
    exact here.imp first.word_mem rest.word_mem

end

end PropSat.Text

namespace PropSat.Formula

open Text

/-- The tokens a formula is printed with. -/
def tokens : Formula → List Token
  | .var name => [.word name]
  | .not arg => enclosed "not" arg.tokens
  | .binary op left right => enclosed op.word (left.tokens ++ right.tokens)

theorem derives_tokens (f : Formula) : Derives f.tokens f := by
  induction f with
  | var name => exact .atom name
  | not arg ih => exact .not (.single ih)
  | binary op left right ihl ihr =>
    have operands : DerivesAll (left.tokens ++ right.tokens) [left, right] := .cons ihl (.single ihr)
    cases op with
    | and => exact .and operands
    | or => exact .or operands
    | implies => exact .implies operands
    | iff => exact .iff operands

end PropSat.Formula
