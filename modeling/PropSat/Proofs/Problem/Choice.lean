import Mathlib.Data.List.Lex
import Mathlib.Data.List.Nodup
import PropSat.Proofs.Problem.Constraints
import PropSat.Proofs.Problem.Solutions

/-!
Choices: at each of so many places one of some options is taken, and a name says which option at which place.
The models of a formula that asks for the choices and for something else are one for one with the lists of
options taken (`mem_lists`). The names come place by place; where two models differ first, the one that
comes earlier leaves the lower option out, and so the lists come in descending order (`pairwise_lists`).
-/

namespace PropSat.Problem

open Formula

/-! Numbers written out as their places in an ascending list. -/

section
variable {all first second : List Nat}

/-- Numbers written out one after the other, each as its place among all. -/
def marks (all values : List Nat) : List Bool := values.flatMap fun value => all.map (value == ·)

theorem earlier_marks_cons (ascending : all.Pairwise (· < ·)) {a b : Nat} (member : a ∈ all) (less : a < b)
    (first second : List Nat) : Earlier (marks all (b :: first)) (marks all (a :: second)) := by
  obtain ⟨lower, higher, rfl⟩ := List.append_of_mem member
  have below : ∀ w ∈ lower, w < a := fun w inLower =>
    (List.pairwise_append.1 ascending).2.2 w inLower a List.mem_cons_self
  have unmarked : ∀ value, a ≤ value → lower.map (value == ·) = lower.map fun _ => false := by
    intro value above
    apply List.map_congr_left
    intro w inLower
    have lt := below w inLower
    exact beq_false_of_ne (by omega)
  simp only [marks, List.flatMap_cons, List.map_append, List.map_cons, List.append_assoc, List.cons_append,
    unmarked a le_rfl, unmarked b less.le, beq_self_eq_true, beq_false_of_ne less.ne']
  exact Earlier.of_split _ _ _

theorem earlier_marks (ascending : all.Pairwise (· < ·)) (lengths : first.length = second.length)
    (inRange : ∀ value ∈ first, value ∈ all) (less : first < second) :
    Earlier (marks all second) (marks all first) := by
  induction first generalizing second with
  | nil =>
    rw [List.eq_nil_of_length_eq_zero lengths.symm] at less
    exact absurd less (lt_irrefl _)
  | cons a rest ih =>
    cases second with
    | nil => cases lengths
    | cons b others =>
      rw [List.forall_mem_cons] at inRange
      rcases List.cons_lt_cons_iff.1 less with here | ⟨rfl, later⟩
      · exact earlier_marks_cons ascending inRange.1 here _ _
      · exact List.Lex.append_left _ (ih (Nat.succ.inj lengths) inRange.2 later) _

/-- What is written out earlier is the larger. -/
theorem lt_of_earlier_marks (ascending : all.Pairwise (· < ·)) (lengths : first.length = second.length)
    (inRange : ∀ value ∈ first, value ∈ all) (earlier : Earlier (marks all first) (marks all second)) :
    second < first := by
  rcases lt_trichotomy second first with less | rfl | more
  · exact less
  · exact absurd earlier (Earlier.irrefl _)
  · exact absurd earlier (earlier_marks ascending lengths inRange more).asymm

end

/-! Choices. -/

structure Choice (α : Type) where
  places : Nat
  options : List α
  name : Nat → α → String
  rank : α → Nat
  name_inj : ∀ {place other x y}, name place x = name other y → place = other ∧ x = y
  ascending : (options.map rank).Pairwise (· < ·)

namespace Choice

variable {α : Type} (c : Choice α)

def optionNames (place : Nat) : List String := c.options.map (c.name place)

/-- All names of the choice, place by place. -/
def names : List String := (List.range c.places).flatMap c.optionNames

/-- One option is taken at each place, and the other clauses hold. -/
def formula (others : List Formula) : Formula :=
  allOf ((List.range c.places).flatMap (fun place => exactlyOne (c.optionNames place)) ++ others)

/-- The option found at a place. -/
def found (v : String → Bool) (place : Nat) : Option α := c.options.find? fun x => v (c.name place x)

/-- The options taken, place by place. -/
def taken (v : String → Bool) : List α := (List.range c.places).filterMap (c.found v)

/-- The lists of options taken, model by model. -/
def lists (others : List Formula) : List (List α) :=
  (c.formula others).models.map fun m => c.taken m.value

/-- As many options as there are places. -/
structure Fills (p : List α) : Prop where
  length : p.length = c.places
  options : ∀ x ∈ p, x ∈ c.options

/-- A name is true when its option is the one at its place. -/
def Tells (p : List α) (v : String → Bool) : Prop :=
  ∀ place < c.places, ∀ x ∈ c.options, v (c.name place x) = true ↔ p[place]? = some x

variable {c} {p : List α} {v w : String → Bool} {name : String} {others : List Formula}

theorem mem_names : name ∈ c.names ↔ ∃ place < c.places, ∃ x ∈ c.options, c.name place x = name := by
  simp only [names, optionNames, List.mem_flatMap, List.mem_range, List.mem_map]

theorem options_nodup (c : Choice α) : c.options.Nodup :=
  (c.ascending.imp Nat.ne_of_lt).of_map c.rank fun _ _ differ same => differ (congrArg c.rank same)

theorem rank_inj {x y : α} (first : x ∈ c.options) (second : y ∈ c.options) (same : c.rank x = c.rank y) :
    x = y :=
  List.inj_on_of_nodup_map (c.ascending.imp Nat.ne_of_lt) first second same

theorem names_nodup (c : Choice α) : c.names.Nodup := by
  rw [names, List.nodup_flatMap]
  constructor
  · intro place _
    exact c.options_nodup.map fun x y same => (c.name_inj same).2
  · apply List.nodup_range.imp
    intro place other differ name first second
    obtain ⟨x, -, rfl⟩ := List.mem_map.1 first
    obtain ⟨y, -, same⟩ := List.mem_map.1 second
    exact differ (c.name_inj same).1.symm

theorem length_names (c : Choice α) : c.names.length = c.places * c.options.length := by
  have each : ∀ place ∈ List.range c.places, (c.optionNames place).length = c.options.length :=
    fun _ _ => List.length_map _
  rw [names, List.length_flatMap, List.map_congr_left each, List.map_const', List.sum_replicate_nat,
    List.length_range]

/-! What the names tell. -/

theorem Fills.option (fills : c.Fills p) {place : Nat} (inside : place < c.places) :
    ∃ x ∈ c.options, p[place]? = some x := by
  rw [← fills.length] at inside
  exact ⟨p[place], fills.options _ (List.getElem_mem inside), List.getElem?_eq_getElem inside⟩

theorem found_eq_some {place : Nat} {x : α} (member : x ∈ c.options) (holds : v (c.name place x) = true)
    (only : ∀ y ∈ c.options, v (c.name place y) = true → y = x) : c.found v place = some x := by
  unfold found
  cases first : c.options.find? fun x => v (c.name place x) with
  | none => exact absurd holds (List.find?_eq_none.1 first x member)
  | some y =>
    have there := List.find?_some first
    exact congrArg some (only y (List.mem_of_find?_eq_some first) there)

theorem Tells.found_eq (fills : c.Fills p) (tells : c.Tells p v) {place : Nat} (inside : place < c.places) :
    c.found v place = p[place]? := by
  obtain ⟨x, member, here⟩ := fills.option inside
  rw [here]
  apply found_eq_some member ((tells place inside x member).2 here)
  intro y inOptions holds
  have there := (tells place inside y inOptions).1 holds
  exact Option.some.inj (there.symm.trans here)

theorem map_getElem?_range (p : List α) : (List.range p.length).map (p[·]?) = p.map some := by
  apply List.ext_getElem
  · simp
  · simp

theorem Tells.taken_eq (fills : c.Fills p) (tells : c.Tells p v) : c.taken v = p := by
  have each : ∀ place ∈ List.range c.places, c.found v place = p[place]? := fun place inside =>
    tells.found_eq fills (List.mem_range.1 inside)
  calc
    c.taken v = (List.range p.length).filterMap (p[·]?) := by
      rw [taken, List.filterMap_congr each, fills.length]
    _ = ((List.range p.length).map (p[·]?)).filterMap id := by
      rw [List.filterMap_map]
      rfl
    _ = p := by
      rw [map_getElem?_range, List.filterMap_map]
      exact List.filterMap_some

theorem map_found (each : ∀ place < c.places, ∃ x, c.found v place = some x) :
    (List.range c.places).map (c.found v) = (c.taken v).map some := by
  rw [taken, List.map_filterMap, ← List.filterMap_eq_map]
  apply List.filterMap_congr
  intro place inside
  obtain ⟨x, here⟩ := each place (List.mem_range.1 inside)
  rw [Function.comp_apply, here, Option.map_some]

/-- Where each place has just one option there is a list of them. -/
theorem tells_taken
    (once : ∀ place < c.places, c.options.countP (fun x => v (c.name place x)) = 1) :
    c.Fills (c.taken v) ∧ c.Tells (c.taken v) v := by
  have only : ∀ place < c.places, ∃ x, c.found v place = some x ∧
      ∀ y ∈ c.options, v (c.name place y) = true ↔ x = y := by
    intro place inside
    obtain ⟨x, ⟨member, holds⟩, unique⟩ := (countP_eq_one_iff c.options_nodup).1 (once place inside)
    refine ⟨x, found_eq_some member holds fun y inOptions there => unique y ⟨inOptions, there⟩, ?_⟩
    intro y inOptions
    exact ⟨fun there => (unique y ⟨inOptions, there⟩).symm, fun same => same ▸ holds⟩
  have each := map_found fun place inside => (only place inside).imp fun _ => And.left
  refine ⟨⟨?length, ?options⟩, ?tells⟩
  case length => simpa using (congrArg List.length each).symm
  case options =>
    intro x member
    obtain ⟨place, -, first⟩ := List.mem_filterMap.1 member
    exact List.mem_of_find?_eq_some first
  case tells =>
    intro place inside y member
    obtain ⟨x, first, holds⟩ := only place inside
    have here := congrArg (·[place]?) each
    simp only [List.getElem?_map, List.getElem?_range inside, Option.map_some, first] at here
    obtain ⟨z, there, same⟩ := Option.map_eq_some_iff.1 here.symm
    rw [holds y member, there, same, Option.some.injEq]

theorem Tells.once (fills : c.Fills p) (tells : c.Tells p v) {place : Nat} (inside : place < c.places) :
    c.options.countP (fun x => v (c.name place x)) = 1 := by
  obtain ⟨x, member, here⟩ := fills.option inside
  rw [countP_eq_one_iff c.options_nodup]
  refine ⟨x, ⟨member, (tells place inside x member).2 here⟩, ?_⟩
  rintro y ⟨inOptions, holds⟩
  have there := (tells place inside y inOptions).1 holds
  exact Option.some.inj (there.symm.trans here)

/-- The options at the places decide what all names of the choice say. -/
theorem Tells.truth_eq (first : c.Tells p v) (second : c.Tells p w) {f : Formula}
    (known : ∀ name ∈ f.names, name ∈ c.names) : f.truth v = f.truth w := by
  apply truth_congr
  intro name own
  obtain ⟨place, inside, x, member, rfl⟩ := mem_names.1 (known name own)
  rw [Bool.eq_iff_iff, first place inside x member, second place inside x member]

section
variable {place other : Nat} {x y : α} (here : place < c.places) (option : x ∈ c.options)
  (there : other < c.places) (option' : y ∈ c.options)

include here option there option'

theorem names_notBoth : ∀ name ∈ (notBoth (c.name place x) (c.name other y)).names, name ∈ c.names := by
  intro name own
  have either : name = c.name place x ∨ name = c.name other y := by simpa [notBoth, Formula.names] using own
  rcases either with rfl | rfl
  · exact mem_names.2 ⟨place, here, x, option, rfl⟩
  · exact mem_names.2 ⟨other, there, y, option', rfl⟩

theorem Tells.truth_notBoth (tells : c.Tells p v) :
    (notBoth (c.name place x) (c.name other y)).truth v = true ↔
      ¬ (p[place]? = some x ∧ p[other]? = some y) := by
  rw [Problem.truth_notBoth, Bool.not_eq_true', ← Bool.not_eq_true, Bool.and_eq_true,
    tells place here x option, tells other there y option']

end

/-- Whether a name is that of an option at its place. -/
def told [DecidableEq α] (c : Choice α) (p : List α) (name : String) : Bool :=
  (List.range c.places).any fun place => c.options.any fun x =>
    name == c.name place x && p[place]? == some x

theorem tells_told [DecidableEq α] (c : Choice α) (p : List α) : c.Tells p (c.told p) := by
  intro place inside x member
  simp only [told, List.any_eq_true, List.mem_range, Bool.and_eq_true, beq_iff_eq]
  constructor
  · rintro ⟨other, -, y, -, same, here⟩
    obtain ⟨rfl, rfl⟩ := c.name_inj same
    exact here
  · intro here
    exact ⟨place, inside, x, member, rfl, here⟩

/-! The models. -/

theorem truth_formula (c : Choice α) (others : List Formula) (v : String → Bool) :
    (c.formula others).truth v = true ↔
      (∀ place < c.places, c.options.countP (fun x => v (c.name place x)) = 1) ∧
        ∀ f ∈ others, f.truth v = true := by
  rw [formula, truth_allOf, List.all_append, Bool.and_eq_true, List.all_flatMap, List.all_eq_true,
    List.all_eq_true]
  apply and_congr_left
  intro _
  simp only [List.mem_range, all_exactlyOne, optionNames, List.countP_map]
  rfl

theorem conjunctive_formula (others_conjunctive : ∀ f ∈ others, Conjunctive f) :
    Conjunctive (c.formula others) := by
  apply conjunctive_allOf
  rw [List.forall_mem_append]
  refine ⟨?_, others_conjunctive⟩
  intro f member
  obtain ⟨place, -, own⟩ := List.mem_flatMap.1 member
  exact conjunctive_exactlyOne _ f own

theorem mem_names_formula {place : Nat} (inside : place < c.places) {x : α} (member : x ∈ c.options) :
    c.name place x ∈ (c.formula others).names := by
  have own : c.name place x ∈ c.optionNames place := List.mem_map_of_mem member
  have clause : atLeastOne (c.optionNames place) ∈
      (List.range c.places).flatMap (fun place => exactlyOne (c.optionNames place)) ++ others :=
    List.mem_append_left _ (List.mem_flatMap.2 ⟨place, List.mem_range.2 inside, List.mem_cons_self⟩)
  rw [formula, names_allOf (List.ne_nil_of_mem clause), List.flatMap_append, List.mem_append,
    List.flatMap_assoc]
  refine .inl (List.mem_flatMap.2 ⟨place, List.mem_range.2 inside, ?_⟩)
  rw [names_exactlyOne (List.ne_nil_of_mem own)]
  exact List.mem_append_left _ own

theorem tells_of_mem_models {m : Model} (model : m ∈ (c.formula others).models) :
    c.Fills (c.taken m.value) ∧ c.Tells (c.taken m.value) m.value ∧
      ∀ f ∈ others, f.truth m.value = true := by
  have holds := (truth_formula c others m.value).1 (truth_of_eval (mem_models.1 model).2)
  obtain ⟨fills, tells⟩ := tells_taken holds.1
  exact ⟨fills, tells, holds.2⟩

section
variable (known : ∀ f ∈ others, ∀ name ∈ f.names, name ∈ c.names)

include known

/-- The lists of options taken are those under which the other clauses hold. -/
theorem mem_lists [DecidableEq α] :
    p ∈ c.lists others ↔ c.Fills p ∧ ∀ f ∈ others, f.truth (c.told p) = true := by
  rw [lists, List.mem_map]
  constructor
  · rintro ⟨m, model, rfl⟩
    obtain ⟨fills, tells, hold⟩ := tells_of_mem_models model
    refine ⟨fills, ?_⟩
    intro f member
    rw [(c.tells_told _).truth_eq tells (known f member)]
    exact hold f member
  · rintro ⟨fills, hold⟩
    have holds : (c.formula others).truth (c.told p) = true :=
      (truth_formula c others _).2 ⟨fun _ => (c.tells_told p).once fills, hold⟩
    refine ⟨_, ofNames_mem_models holds, Tells.taken_eq fills ?_⟩
    intro place inside x member
    have named : c.name place x ∈ (c.formula others).vars := mem_vars.2 (mem_names_formula inside member)
    rw [Model.value_ofNames (vars_nodup _) _ named]
    exact c.tells_told p place inside x member

theorem vars_formula (some_place : 0 < c.places) (some_option : c.options ≠ []) :
    (c.formula others).vars = c.names := by
  apply vars_allOf
  · simpa using Nat.ne_of_gt some_place
  · intro place _
    simpa [optionNames] using some_option
  · exact c.names_nodup
  · exact known

/-- Without anything to choose there is one variable at most. -/
theorem numbered_formula (bound : 2 * (c.places * c.options.length) ≤ UInt64.size) :
    (c.formula others).Numbered := by
  unfold Numbered
  by_cases something : 0 < c.places ∧ c.options ≠ []
  · rwa [vars_formula known something.1 something.2, length_names]
  · have nothing : ∀ place < c.places, c.optionNames place = [] := by
      intro place inside
      simpa [optionNames, Nat.zero_lt_of_lt inside] using something
    have only : ∀ name ∈ (c.formula others).vars, name ∈ [reserved] := by
      intro name member
      rw [List.mem_singleton]
      rcases mem_names_allOf (mem_vars.1 member) with same | ⟨f, inside, own⟩
      · exact same
      rw [List.mem_append, List.mem_flatMap] at inside
      rcases inside with ⟨place, small, own'⟩ | other
      · rw [nothing place (List.mem_range.1 small)] at own'
        exact mem_names_exactlyOne_nil own' name own
      · obtain ⟨place, inside, x, member, -⟩ := mem_names.1 (known f other name own)
        exact absurd ⟨Nat.zero_lt_of_lt inside, List.ne_nil_of_mem member⟩ something
    have few := (List.subperm_of_subset (vars_nodup _) only).length_le
    rw [List.length_singleton] at few
    simp only [UInt64.size]
    omega

/-- A problem that asks for the choices and for something else in conjunctive form is always answered. -/
theorem solutions_listed {Solution : Type} {q : Problem Solution}
    (asks : q.formula = c.formula others) (others_conjunctive : ∀ f ∈ others, Conjunctive f) :
    ∃ solutions : List Solution,
      q.allSolutions = .ok (if solutions = [] then none else some solutions) ∧
      q.firstSolution = .ok solutions.head? ∧
      (2 * (c.places * c.options.length) ≤ UInt64.size →
        solutions = (c.formula others).models.map q.interpret) := by
  have conjunctive : q.formula.Conjunctive := by
    rw [asks]
    exact conjunctive_formula others_conjunctive
  obtain ⟨solutions, all, first, listed⟩ := Problem.solutions_listed conjunctive
  rw [asks] at listed
  exact ⟨solutions, all, first, fun bound => listed (numbered_formula known bound)⟩

end

/-- The names write out the options, place by place. -/
theorem Tells.map_names (fills : c.Fills p) (tells : c.Tells p v) :
    c.names.map v = marks (c.options.map c.rank) (p.map c.rank) := by
  have each : (List.range c.places).map (fun place => (c.optionNames place).map v) =
      p.map fun x => (c.options.map c.rank).map (c.rank x == ·) := by
    apply List.ext_getElem
    · simp [fills.length]
    · intro place inside inList
      rw [List.length_map, List.length_range] at inside
      rw [List.length_map] at inList
      simp only [List.getElem_map, List.getElem_range, optionNames, List.map_map]
      apply List.map_congr_left
      intro x member
      rw [Bool.eq_iff_iff, Function.comp_apply, tells place inside x member, Function.comp_apply, beq_iff_eq,
        List.getElem?_eq_getElem inList, Option.some.injEq]
      exact ⟨congrArg c.rank, rank_inj (fills.options _ (List.getElem_mem inList)) member⟩
  rw [names, List.map_flatMap, List.flatMap_def, each, marks, List.flatMap_map, List.flatMap_def]

/-- Where there is something to choose, the lists come in descending order. -/
theorem pairwise_lists (known : ∀ f ∈ others, ∀ name ∈ f.names, name ∈ c.names)
    (some_place : 0 < c.places) (some_option : c.options ≠ []) :
    (c.lists others).Pairwise fun first second => second.map c.rank < first.map c.rank := by
  rw [lists, List.pairwise_map]
  apply (pairwise_models _).imp_of_mem
  intro first second inFirst inSecond earlier
  obtain ⟨fills, tells, -⟩ := tells_of_mem_models inFirst
  obtain ⟨fills', tells', -⟩ := tells_of_mem_models inSecond
  rw [vars_formula known some_place some_option, tells.map_names fills, tells'.map_names fills'] at earlier
  apply lt_of_earlier_marks c.ascending _ _ earlier
  · simp [fills.length, fills'.length]
  · rw [List.forall_mem_map]
    exact fun x member => List.mem_map_of_mem (fills.options x member)

end Choice

end PropSat.Problem
