import PropSat.Proofs.NormalForm.FixedPoint
import PropSat.Proofs.Problem.Clique.Encoding
import PropSat.Proofs.Problem.Coloring
import PropSat.Proofs.Problem.Sudoku.Encoding
import PropSat.Proofs.Text.RoundTrip

/-!
The formulas of all problems are canonical: in conjunctive form, with words for names. So they pass for such,
are left as they are when converted, can be printed and read back, and are solved without an error. It makes
no difference how small, how large or how odd the graph, the clique or the grid is (`posed_all`).
-/

namespace PropSat

namespace Text

/-- The digits of a number may stand in a name. -/
theorem isPlain_of_mem_toString {n : Nat} : ∀ c ∈ (toString n).toList, IsPlain c := by
  intro c member
  have digit := isDigit_of_mem_toString member
  simp only [Char.isDigit, Bool.and_eq_true, decide_eq_true_eq, ge_iff_le, UInt32.le_iff_toNat_le] at digit
  obtain ⟨low, high⟩ := digit
  change 48 ≤ c.toNat at low
  change c.toNat ≤ 57 at high
  refine ⟨?_, ?_, ?_, ?_⟩
  · rw [Bool.eq_false_iff]
    intro blank
    simp only [isBlank, Bool.or_eq_true, Bool.and_eq_true, decide_eq_true_eq, beq_iff_eq] at blank
    omega
  all_goals
    rintro rfl
    revert low high
    decide

/-- A name that begins like this and has only such characters is a word. -/
theorem isWord_of_toList {s : String} {first : Char} {rest : List Char} (chars : s.toList = first :: rest)
    (plain : ∀ c ∈ first :: rest, IsPlain c) : IsWord s := by
  rw [← String.ofList_toList (s := s), chars]
  exact isWord_ofList (List.cons_ne_nil _ _) plain

end Text

open Formula Text

/-- In conjunctive form, and fit to be written down. -/
structure Formula.Canonical (f : Formula) : Prop where
  conjunctive : Conjunctive f
  words : ∀ name ∈ f.names, IsWord name

namespace Problem

/-- What may be relied on when a problem is posed. -/
structure Posed {Solution : Type} (p : Problem Solution) : Prop where
  isCnf : p.formula.isCnf = true
  toCnf_eq : p.formula.toCnf = p.formula
  reads_back : parseString p.formula.text = .ok p.formula
  first_answered : ∃ solution, p.firstSolution = .ok solution
  all_answered : ∃ solutions, p.allSolutions = .ok solutions

theorem posed {Solution : Type} {p : Problem Solution} (canonical : p.formula.Canonical) : p.Posed := by
  obtain ⟨models, all, first, -⟩ := solutions_ok canonical.conjunctive
  exact {
    isCnf := isCnf_iff.2 canonical.conjunctive
    toCnf_eq := canonical.conjunctive.toCnf_eq
    reads_back := parseString_text canonical.words
    first_answered := ⟨_, first⟩
    all_answered := ⟨_, all⟩ }

section
variable {names : List String} {clauses : List Formula}

theorem isWord_reserved : IsWord reserved := ⟨by decide, by simp [reserved, IsPlain, isBlank]⟩

theorem canonical_var {name : String} (word : IsWord name) : Canonical (.var name) where
  conjunctive := conjunctive_var name
  words := by simpa [Formula.names] using word

theorem canonical_notBoth {a b : String} (first : IsWord a) (second : IsWord b) : Canonical (notBoth a b) where
  conjunctive := conjunctive_notBoth a b
  words := by simp [notBoth, Formula.names, first, second]

theorem canonical_exactlyOne (words : ∀ name ∈ names, IsWord name) :
    ∀ c ∈ exactlyOne names, Canonical c := by
  intro c member
  refine ⟨conjunctive_exactlyOne names c member, ?_⟩
  intro name own
  by_cases nothing : names = []
  · subst nothing
    exact mem_names_exactlyOne_nil member name own ▸ isWord_reserved
  · exact words name (mem_names_exactlyOne nothing member name own)

theorem canonical_allOf (all : ∀ c ∈ clauses, Canonical c) : Canonical (allOf clauses) where
  conjunctive := conjunctive_allOf fun c member => (all c member).conjunctive
  words := by
    intro name member
    rcases mem_names_allOf member with rfl | ⟨c, inside, own⟩
    · exact isWord_reserved
    · exact (all c inside).words name own

theorem Choice.canonical_formula {α : Type} {c : Choice α} (words : ∀ place x, IsWord (c.name place x))
    {others : List Formula} (all : ∀ f ∈ others, Canonical f) : Canonical (c.formula others) := by
  apply canonical_allOf
  rw [List.forall_mem_append]
  refine ⟨?_, all⟩
  intro f member
  obtain ⟨place, -, own⟩ := List.mem_flatMap.1 member
  refine canonical_exactlyOne ?_ f own
  intro name inside
  obtain ⟨x, -, rfl⟩ := List.mem_map.1 inside
  exact words place x

end

end Problem

open Problem

theorem Clique.canonical_formula {α : Type} [BEq α] [Hashable α] (size : Nat) (g : Graph α) :
    (Clique.formula size g).Canonical := by
  have words : ∀ i r, IsWord (placeName i r) := by
    intro i r
    apply isWord_of_toList (toList_placeName i r)
    simp only [List.forall_mem_cons, List.forall_mem_append]
    exact ⟨by decide, isPlain_of_mem_toString, by decide, isPlain_of_mem_toString⟩
  rw [formula_eq]
  apply Choice.canonical_formula fun place node => words node place
  intro f member
  obtain ⟨r, -, s, -, i, -, j, -, rfl⟩ := exists_of_mem_others member
  exact canonical_notBoth (words i r) (words j s)

theorem Coloring.canonical_formula {α : Type} [BEq α] [Hashable α] (g : Graph α) :
    (Coloring.formula g).Canonical := by
  have words : ∀ i c, IsWord (colorName i c) := by
    intro i c
    apply isWord_of_toList (toList_colorName i c)
    simp only [List.forall_mem_cons, List.forall_mem_append]
    exact ⟨by decide, isPlain_of_mem_toString, by decide, by cases c <;> decide, List.forall_mem_nil _⟩
  rw [formula_eq]
  apply Choice.canonical_formula words
  intro f member
  obtain ⟨i, j, -, c, rfl⟩ := mem_endsDiffer.1 member
  exact canonical_notBoth (words i c) (words j c)

namespace Sudoku

theorem isWord_cellName (i j v : Nat) : IsWord (cellName i j v) := by
  apply isWord_of_toList (toList_cellName i j v)
  simp only [List.forall_mem_cons, List.forall_mem_append]
  exact ⟨by decide, isPlain_of_mem_toString, by decide, isPlain_of_mem_toString, by decide,
    isPlain_of_mem_toString⟩

theorem canonical_unit {α : Type} (cells : List α) (row column value : α → Nat) :
    ∀ c ∈ exactlyOne (cells.map fun x => cellName (row x) (column x) (value x)), Canonical c := by
  apply canonical_exactlyOne
  intro name inside
  obtain ⟨x, -, rfl⟩ := List.mem_map.1 inside
  exact isWord_cellName _ _ _

theorem canonical_formula (s : Sudoku) : s.formula.Canonical := by
  apply canonical_allOf
  simp only [List.forall_mem_append]
  refine ⟨⟨⟨⟨?cells, ?rows⟩, ?columns⟩, ?boxes⟩, ?givens⟩
  all_goals intro c member
  case cells =>
    simp only [cellClauses, List.mem_flatMap] at member
    obtain ⟨i, -, j, -, own⟩ := member
    exact canonical_unit (upTo s.side) (fun _ => i) (fun _ => j) id c own
  case rows =>
    simp only [rowClauses, List.mem_flatMap] at member
    obtain ⟨i, -, v, -, own⟩ := member
    exact canonical_unit (upTo s.side) (fun _ => i) id (fun _ => v) c own
  case columns =>
    simp only [columnClauses, List.mem_flatMap] at member
    obtain ⟨j, -, v, -, own⟩ := member
    exact canonical_unit (upTo s.side) id (fun _ => j) (fun _ => v) c own
  case boxes =>
    simp only [boxClauses, List.mem_flatMap] at member
    obtain ⟨top, -, left, -, v, -, own⟩ := member
    exact canonical_unit (List.range s.side) (top + · / s.boxSize) (left + · % s.boxSize) (fun _ => v) c own
  case givens =>
    simp only [givenClauses, List.mem_flatMap, List.mem_filterMap, Prod.exists] at member
    obtain ⟨cells, i, -, v, j, -, own⟩ := member
    obtain ⟨-, same⟩ := Option.ite_none_left_eq_some.1 own
    cases same
    exact canonical_var (isWord_cellName _ _ _)

end Sudoku

/-- Cliques of any size in any graph, colorings of any graph and completions of any grid are posed in conjunctive
form, which conversion leaves as it is and which is read back when printed, and solving them never fails. -/
theorem Problem.posed_all :
    (∀ (α : Type) [BEq α] [Hashable α] (g : Graph α),
      (∀ size, (g.cliques size).Posed) ∧ g.colorings.Posed) ∧
    ∀ s : Sudoku, s.completions.Posed := by
  constructor
  · intro α _ _ g
    exact ⟨fun size => posed (Clique.canonical_formula size g), posed (Coloring.canonical_formula g)⟩
  · intro s
    exact posed s.canonical_formula

end PropSat
