import Mathlib.Data.List.Nodup
import PropSat.CommandLine
import PropSat.Proofs.NormalForm.FixedPoint
import PropSat.Proofs.Solver.Requests
import PropSat.Proofs.Text.Length
import PropSat.Proofs.Text.RoundTrip

/-!
What the command line reports, from the bytes of a file to the output and the exit code. A file without a formula
is told apart from an unsatisfiable formula, and both ways to ask for models come to one verdict (`run_ofBytes`).
The normal form that is printed on request can be given back in place of the file: the report stays the same
(`run_printed`).
-/

namespace PropSat.CommandLine

open Formula

/-- Texts written one behind the other. -/
theorem foldl_text {α : Type} (block : α → String) (xs : List α) (start : String) :
    xs.foldl (fun text x => text ++ block x) start = start ++ String.join (xs.map block) := by
  induction xs generalizing start with
  | nil => rw [List.foldl_nil, List.map_nil, String.join_nil, String.append_empty]
  | cons x xs ih => rw [List.foldl_cons, ih, List.map_cons, String.join_cons, String.append_assoc]

section
variable {m m' : Model}

def entryText (entry : String × Bool) : String := s!"{entry.1}: {entry.2}\n"

theorem modelText_eq (m : Model) : modelText m = String.join (m.entries.map entryText) := by
  have written := foldl_text entryText m.entries ""
  rwa [String.empty_append] at written

theorem entries_eq_of_text {entries entries' : List (String × Bool)}
    (names : entries.map Prod.fst = entries'.map Prod.fst)
    (same : String.join (entries.map entryText) = String.join (entries'.map entryText)) : entries = entries' := by
  induction entries generalizing entries' with
  | nil => exact (List.map_eq_nil_iff.1 names.symm).symm
  | cons first rest ih =>
    obtain ⟨first', rest', rfl, one, others⟩ := List.map_eq_cons_iff.1 names.symm
    obtain ⟨name, value⟩ := first
    obtain ⟨name', value'⟩ := first'
    obtain rfl : name' = name := one
    simp only [List.map_cons, String.join_cons, entryText, String.append_assoc, String.append_right_inj] at same
    -- the two values begin with different letters
    have values : value = value' := by
      have letters := congrArg String.toList same
      cases value <;> cases value' <;> simp [toString] at letters ⊢
    subst values
    rw [ih others.symm ((String.append_right_inj _).1 ((String.append_right_inj _).1 same))]

/-- Models of the same names are printed alike only if they are the same. -/
theorem modelText_inj (names : ∀ name, name ∈ m ↔ name ∈ m') (same : modelText m = modelText m') : m = m' := by
  rw [modelText_eq, modelText_eq] at same
  exact Std.ExtTreeMap.toList_inj.1 (entries_eq_of_text (Model.entries_names names) same)

end

/-- What stands before the verdict. -/
def Request.heading (r : Request) (f : Formula) : String :=
  if r.printCnf then f.toCnf.text ++ "\n" else ""

/-- All models, each with a rule below, or the first alone. -/
def Request.blocks (r : Request) (models : List Model) : String :=
  if r.all then String.join (models.map fun m => modelText m ++ "---\n")
  else String.join ((models.take 1).map modelText)

theorem Request.foldl_blocks (r : Request) (models : List Model) (start : String) :
    (if r.all then models else models.take 1).foldl
      (fun text m => text ++ modelText m ++ (if r.all then "---\n" else "")) start = start ++ r.blocks models := by
  unfold blocks
  cases r.all with
  | false =>
    simp only [Bool.false_eq_true, if_false, String.append_empty]
    exact foldl_text modelText _ start
  | true =>
    simp only [if_true, String.append_assoc]
    exact foldl_text (fun m => modelText m ++ "---\n") models start

/-- The verdict on a formula with these models. -/
def Request.report (r : Request) (f : Formula) (models : List Model) : Report :=
  if models = [] then ⟨1, r.heading f ++ "NO SAT\n", ""⟩
  else ⟨0, r.heading f ++ "SAT\n" ++ r.blocks models, ""⟩

theorem Request.code_report (r : Request) (f : Formula) (models : List Model) : (r.report f models).code ≠ 127 := by
  unfold report
  split <;> simp

/-- The models to be printed are the first of them or all, and there are always some to be printed if there are
models. -/
theorem answer_ok {cnf : Formula} (form : Conjunctive cnf) :
    ∃ models, (cnf.Numbered → models = cnf.models) ∧ ∀ all, answer cnf all =
      .ok (if models = [] then none else some (if all then models else models.take 1)) := by
  obtain ⟨s, models, made, keeps, known⟩ := Solver.ofCnf_models form
  obtain ⟨after, allModels, -⟩ := keeps.allModels
  obtain ⟨after', firstModel, -⟩ := keeps.firstModel
  refine ⟨models, known, ?_⟩
  intro all
  rw [answer, made]
  cases models with
  | nil =>
    cases all <;> simp [allModels, firstModel, Solver.given, Except.mapError, bind, Except.bind, pure, Except.pure]
  | cons first rest =>
    cases all <;> simp [allModels, firstModel, Solver.given, Except.mapError, bind, Except.bind, pure, Except.pure]

section
variable {input : Text.Input} {f : Formula}

theorem run_error {mistake : Text.ParseError} (refused : Text.parse input = .error mistake) (r : Request) :
    r.run input = ⟨127, "", complain (.parse mistake)⟩ := by
  rw [Request.run, refused]

theorem run_ok (read : Text.parse input = .ok f) :
    ∃ models, (f.toCnf.Numbered → models = f.toCnf.models) ∧ ∀ r : Request, r.run input = r.report f models := by
  obtain ⟨models, known, answered⟩ := answer_ok f.toCnf_conjunctive
  refine ⟨models, known, ?_⟩
  intro r
  simp only [Request.run, read, answered]
  by_cases nothing : models = []
  · simp only [if_pos nothing, Request.report]
    rfl
  · simp only [if_neg nothing, r.foldl_blocks, Request.report]
    rfl

theorem run_code_iff (r : Request) : (r.run input).code = 127 ↔ ∃ mistake, Text.parse input = .error mistake := by
  cases read : Text.parse input with
  | error mistake => simp [run_error read]
  | ok f =>
    obtain ⟨models, -, reported⟩ := run_ok read
    simp [reported, r.code_report]

/-- Of a formula that was read the report depends on its normal form alone. -/
theorem run_congr {input' : Text.Input} {f' : Formula} (read : Text.parse input = .ok f)
    (read' : Text.parse input' = .ok f') (same : f'.toCnf = f.toCnf) (r : Request) : r.run input' = r.run input := by
  simp only [Request.run, read, read', same]

theorem numbered_of_parse {bytes : ByteArray} (addressable : bytes.size < UInt64.size)
    (read : Text.parse (.ofBytes bytes) = .ok f) : f.toCnf.Numbered := by
  have few := Text.two_mul_length_vars_le read
  rw [Numbered, (vars_toCnf_perm f).length_eq]
  omega

end

/-- A file is answered with 127, and with an empty output, just when it holds no formula. For any formula there is
one list of models, which are the assignments of its variables that make it true, and no two are printed alike. By
this list all requests are answered: with 0 and `SAT` just when some reading of the names makes the formula true,
and else with 1 and `NO SAT`, and with all of the models or the first of them. A file has fewer than 2^64 bytes. -/
theorem run_ofBytes {bytes : ByteArray} (addressable : bytes.size < UInt64.size) :
    (∀ r : Request, (r.run (.ofBytes bytes)).code = 127 ↔
      ∃ mistake, Text.parse (.ofBytes bytes) = .error mistake) ∧
    (∀ mistake, Text.parse (.ofBytes bytes) = .error mistake → ∀ r : Request,
      r.run (.ofBytes bytes) = ⟨127, "", complain (.parse mistake)⟩) ∧
    ∀ f, Text.parse (.ofBytes bytes) = .ok f → ∃ models : List Model,
      (∀ m, m ∈ models ↔ (∀ name, name ∈ m ↔ name ∈ f.vars) ∧ f.eval m = some true) ∧
      (models.map modelText).Nodup ∧
      (models ≠ [] ↔ ∃ v, f.truth v = true) ∧
      ∀ r : Request, r.run (.ofBytes bytes) = r.report f models := by
  refine ⟨run_code_iff, fun mistake => run_error, ?_⟩
  intro f read
  obtain ⟨models, known, reported⟩ := run_ok read
  obtain rfl := known (numbered_of_parse addressable read)
  refine ⟨f.toCnf.models, fun _ => mem_models_toCnf, ?_, ?_, reported⟩
  · apply List.Nodup.map_on _ f.toCnf.models_nodup
    intro m member m' member'
    apply modelText_inj
    intro name
    rw [(mem_models_toCnf.1 member).1, (mem_models_toCnf.1 member').1]
  · constructor
    · intro some_left
      obtain ⟨m, member⟩ := List.exists_mem_of_ne_nil _ some_left
      exact ⟨m.value, truth_of_eval (mem_models_toCnf.1 member).2⟩
    · rintro ⟨v, holds⟩
      have model := mem_models.1 (ofNames_mem_models holds)
      exact List.ne_nil_of_mem (mem_models_toCnf.2 model)

/-- A list left open, and the same list closed. -/
theorem run_ofBytes_disjunction :
    "(or a (not b)".toUTF8.size < UInt64.size ∧
    Text.parse (.ofBytes "(or a (not b)".toUTF8) = .error (.format .unclosed) ∧
    (∀ r : Request, r.run (.ofBytes "(or a (not b)".toUTF8) = ⟨127, "", complain (.parse (.format .unclosed))⟩) ∧
    "(or a (not b))".toUTF8.size < UInt64.size ∧
    Text.parse (.ofBytes "(or a (not b))".toUTF8) = .ok (.or (.var "a") (.not (.var "b"))) ∧
    ∃ models : List Model,
      (∀ m, m ∈ models ↔ (∀ name, name ∈ m ↔ name ∈ (Formula.or (.var "a") (.not (.var "b"))).vars) ∧
        (Formula.or (.var "a") (.not (.var "b"))).eval m = some true) ∧
      (models.map modelText).Nodup ∧
      (models ≠ [] ↔ ∃ v, (Formula.or (.var "a") (.not (.var "b"))).truth v = true) ∧
      ∀ r : Request, r.run (.ofBytes "(or a (not b))".toUTF8) =
        r.report (.or (.var "a") (.not (.var "b"))) models := by
  have opened : "(or a (not b)".toUTF8.size < UInt64.size := by decide
  have closed : "(or a (not b))".toUTF8.size < UInt64.size := by decide
  have refused : Text.parse (.ofBytes "(or a (not b)".toUTF8) = .error (.format .unclosed) := rfl
  have read : Text.parse (.ofBytes "(or a (not b))".toUTF8) = .ok (.or (.var "a") (.not (.var "b"))) := rfl
  obtain ⟨-, errors, -⟩ := run_ofBytes opened
  obtain ⟨-, -, models⟩ := run_ofBytes closed
  exact ⟨opened, refused, errors _ refused, closed, read, models _ read⟩

/-- The normal form that is printed first is a line of its own. As a file, with its line feed or without it, it is
read as just this normal form, has the same models in the same order, and is reported on as the file it came
from, by whatever request; so it is printed again where it was printed before. -/
theorem run_printed {input : Text.Input} {r : Request} (prints : r.printCnf = true)
    (accepted : (r.run input).code ≠ 127) :
    ∃ f line rest, Text.parse input = .ok f ∧ (r.run input).output = line ++ "\n" ++ rest ∧
      '\n' ∉ line.toList ∧ ∀ copy ∈ [line, line ++ "\n"],
        Text.parseString copy = .ok f.toCnf ∧
        (∀ all, answer f.toCnf.toCnf all = answer f.toCnf all) ∧
        ∀ r' : Request, r'.run (.ofString copy) = r'.run input := by
  cases read : Text.parse input with
  | error mistake => exact absurd ((run_code_iff r).2 ⟨mistake, read⟩) accepted
  | ok f =>
    have words : ∀ name ∈ f.toCnf.names, Text.IsWord name := fun name own =>
      isWord_of_parse read name ((f.toCnf_equivalent.names name).1 own)
    have fixed : f.toCnf.toCnf = f.toCnf := f.toCnf_conjunctive.toCnf_eq
    obtain ⟨models, -, reported⟩ := run_ok read
    have printed : ∃ rest, (r.run input).output = f.toCnf.text ++ "\n" ++ rest := by
      rw [reported, Request.report, Request.heading, if_pos prints]
      split
      · exact ⟨_, rfl⟩
      · exact ⟨_, String.append_assoc⟩
    obtain ⟨rest, output⟩ := printed
    refine ⟨f, f.toCnf.text, rest, rfl, output, (spells_text words).unbroken, ?_⟩
    intro copy member
    have again : Text.parseString copy = .ok f.toCnf := by
      rcases List.mem_pair.1 member with rfl | rfl
      · exact parseString_text words
      · exact parseString_text_newline words
    exact ⟨again, fun all => by rw [fixed], run_congr read again fixed⟩

/-- All models of an implication, from two lines of which the first has a comment. -/
theorem run_printed_implication :
    (⟨"input", true, true⟩ : Request).printCnf = true ∧
    ((⟨"input", true, true⟩ : Request).run (.ofString "(if a ; (\n(not b))")).code ≠ 127 ∧
    ∃ f line rest, Text.parse (.ofString "(if a ; (\n(not b))") = .ok f ∧
      ((⟨"input", true, true⟩ : Request).run (.ofString "(if a ; (\n(not b))")).output = line ++ "\n" ++ rest ∧
      '\n' ∉ line.toList ∧ ∀ copy ∈ [line, line ++ "\n"],
        Text.parseString copy = .ok f.toCnf ∧
        (∀ all, answer f.toCnf.toCnf all = answer f.toCnf all) ∧
        ∀ r' : Request, r'.run (.ofString copy) = r'.run (.ofString "(if a ; (\n(not b))") := by
  have read : Text.parse (.ofString "(if a ; (\n(not b))") = .ok (.implies (.var "a") (.not (.var "b"))) := rfl
  have accepted : ((⟨"input", true, true⟩ : Request).run (.ofString "(if a ; (\n(not b))")).code ≠ 127 := by
    rw [ne_eq, run_code_iff, read]
    rintro ⟨mistake, ⟨⟩⟩
  exact ⟨rfl, accepted, run_printed rfl accepted⟩

end PropSat.CommandLine
