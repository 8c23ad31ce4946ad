import Mathlib.Data.List.TakeWhile
import PropSat.Proofs.Assignment
import PropSat.Proofs.Search.Queues

/-!
Turning a line of clauses away from a literal, as list operations: the clauses in front of the first
violated one are hung, in order, on the first of their literals that is not false (`redirect`), and the
violated one stays where it is with all behind it (`unwatch_eq`). For a false literal this says what each
queue holds afterwards (`unwatch_line`).
-/

namespace PropSat.Search

/-- The value decided for its variable makes a literal false. -/
def Falsified (values : Values) (l : Literal) : Prop := values[l.var]? = some (some l.isNegative)

instance (values : Values) : DecidablePred (Falsified values) :=
  fun l => inferInstanceAs (Decidable (values[l.var]? = some (some l.isNegative)))

theorem isFalse_eq {values : Values} {l : Literal} (known : l.var < values.size) :
    isFalse values l = .ok (decide (Falsified values l)) := by
  simp only [isFalse, fetch, dif_pos known, Falsified, Array.getElem?_eq_getElem known]
  cases values[l.var] <;> simp [bind, Except.bind, pure, Except.pure, Bool.beq_eq_decide_eq]

theorem dropFalse_eq {values : Values} {literals : List Literal}
    (known : ∀ l ∈ literals, l.var < values.size) :
    dropFalse values literals = .ok (literals.dropWhile fun l => Falsified values l) := by
  induction literals with
  | nil => rfl
  | cons l rest ih =>
    have later := ih fun other member => known other (List.mem_cons_of_mem l member)
    rw [dropFalse, isFalse_eq (known l List.mem_cons_self), List.dropWhile_cons]
    by_cases falsified : Falsified values l
    · simp [bind, Except.bind, falsified, later]
    · simp [bind, Except.bind, pure, Except.pure, falsified]

/-- The literal a clause turns to: the first of its literals that is not false. -/
def target? (clauses : Array Clause) (values : Values) (i : Nat) : Option Literal :=
  (clauses[i]?).bind fun c => (c.literals.dropWhile fun l => Falsified values l).head?

/-- Whether a clause has a literal to turn to. -/
def canTurn (clauses : Array Clause) (values : Values) (i : Nat) : Bool :=
  (target? clauses values i).isSome

/-- Whether a clause turns to the literal of this code. -/
def turnsTo (clauses : Array Clause) (values : Values) (code i : Nat) : Bool :=
  (target? clauses values i).any (·.code = code)

def redirect (clauses : Array Clause) (values : Values) (watches : Watches) (i : Nat) : Watches :=
  match target? clauses values i with
  | some l => hang watches i l
  | none => watches

section
variable {clauses : Array Clause} {values : Values} {watches : Watches}

theorem target?_eq {i : Nat} (small : i < clauses.size) :
    target? clauses values i = (clauses[i].literals.dropWhile fun l => Falsified values l).head? := by
  rw [target?, Array.getElem?_eq_getElem small, Option.bind_some]

theorem target?_mem {i : Nat} {l : Literal} (turns : target? clauses values i = some l) :
    ∃ c, clauses[i]? = some c ∧ l ∈ c.literals ∧ ¬Falsified values l := by
  obtain ⟨c, found, first⟩ := Option.bind_eq_some_iff.1 turns
  refine ⟨c, found, (List.dropWhile_sublist _).subset (List.mem_of_mem_head? first), ?_⟩
  have kept := List.head?_dropWhile_not (fun l => decide (Falsified values l)) c.literals
  rw [first] at kept
  simpa using kept

theorem target?_eq_none {i : Nat} {c : Clause} (found : clauses[i]? = some c)
    (stuck : target? clauses values i = none) : ∀ l ∈ c.literals, Falsified values l := by
  rw [target?, found, Option.bind_some, List.head?_eq_none_iff] at stuck
  simpa [List.dropWhile_eq_nil_iff] using stuck

/-- The first clause left in a line has no literal to turn to. -/
theorem target?_of_head? {is : List Nat} {i : Nat}
    (first : (is.dropWhile (canTurn clauses values)).head? = some i) : target? clauses values i = none := by
  have kept := List.head?_dropWhile_not (canTurn clauses values) is
  rw [first] at kept
  simpa [canTurn] using kept

@[simp] theorem size_redirect (i : Nat) : (redirect clauses values watches i).size = watches.size := by
  unfold redirect
  split <;> simp

/-- Every variable has its two queues. -/
def Fits (clauses : Array Clause) (values : Values) (watches : Watches) : Prop :=
  InRange values.size clauses ∧ watches.size = 2 * values.size

theorem Fits.code_lt (fits : Fits clauses values watches) {c : Clause} (member : c ∈ clauses)
    {l : Literal} (own : l ∈ c.literals) : l.code < watches.size := by
  have small := fits.1 c member l own
  rw [Literal.var] at small
  have size := fits.2
  omega

theorem Fits.falseWhen_lt (fits : Fits clauses values watches) {v : Nat} (small : v < values.size)
    (value : Bool) : (Literal.falseWhen v value).code < watches.size :=
  fits.2 ▸ Literal.code_falseWhen_lt small value

theorem Fits.redirect (fits : Fits clauses values watches) (i : Nat) :
    Fits clauses values (redirect clauses values watches i) :=
  ⟨fits.1, (size_redirect i).trans fits.2⟩

theorem Fits.set (fits : Fits clauses values watches) {code : Nat} (inside : code < watches.size)
    (queue : Queue) : Fits clauses values (watches.set code queue) :=
  ⟨fits.1, by simpa using fits.2⟩

/-- The clauses in front of the first violated one turn, in order; that one and all behind it stay. -/
theorem turn_eq (fits : Fits clauses values watches) {front back : List Nat}
    (numbered : ∀ i ∈ front ++ back.reverse, i < clauses.size) :
    ∃ left, turn clauses values front back watches =
        .ok (left, ((front ++ back.reverse).takeWhile (canTurn clauses values)).foldl
          (redirect clauses values) watches) ∧
      left.toList = (front ++ back.reverse).dropWhile (canTurn clauses values) ∧
      (left.front = [] → left.toList = []) := by
  fun_induction turn clauses values front back watches with
  | case1 i front back watches ih =>
    have small : i < clauses.size := numbered i (by simp)
    have known : ∀ l ∈ clauses[i].literals, l.var < values.size :=
      fits.1 _ (Array.getElem_mem small)
    simp only [fetch, dif_pos small, bind, Except.bind, dropFalse_eq known]
    cases remaining : clauses[i].literals.dropWhile fun l => Falsified values l with
    | nil =>
      -- nothing to turn to: this clause and all behind it stay in line
      have stuck : target? clauses values i = none := by rw [target?_eq small, remaining, List.head?_nil]
      exact ⟨⟨i :: front, back⟩, by simp [canTurn, stuck, pure, Except.pure],
        by simp [canTurn, stuck, Queue.toList], by simp⟩
    | cons l others =>
      have turns : target? clauses values i = some l := by rw [target?_eq small, remaining, List.head?_cons]
      obtain ⟨c, same, own, -⟩ := target?_mem turns
      have inside : l.code < watches.size := fits.code_lt (Array.mem_of_getElem? same) own
      have turned : redirect clauses values watches i = hang watches i l := by rw [redirect, turns]
      -- the rest of the line is turned over the queues as they are now
      have later := fits.redirect i
      rw [turned] at later
      obtain ⟨left, run, rest, none_left⟩ :=
        ih _ later fun j member => numbered j (List.mem_cons_of_mem i member)
      refine ⟨left, ?_, ?_, none_left⟩
      · simp only [watch_eq inside, run, List.cons_append, List.takeWhile_cons, canTurn, turns,
          Option.isSome_some, if_true, List.foldl_cons, turned]
      · simpa only [List.cons_append, List.dropWhile_cons, canTurn, turns, Option.isSome_some, if_true] using rest
  | case2 i back watches ih =>
    simp only [List.reverse_nil, List.append_nil] at ih
    exact ih fits numbered
  | case3 watches => exact ⟨Queue.empty, rfl, rfl, fun _ => rfl⟩

theorem listed_foldl_redirect (fits : Fits clauses values watches) {turned : List Nat}
    (turns : ∀ i ∈ turned, canTurn clauses values i) :
    (listed (turned.foldl (redirect clauses values) watches)).Perm (turned ++ listed watches) := by
  induction turned generalizing watches with
  | nil => exact List.Perm.refl _
  | cons i rest ih =>
    obtain ⟨l, target⟩ := Option.isSome_iff_exists.1 (turns i List.mem_cons_self)
    obtain ⟨c, found, own, -⟩ := target?_mem target
    have inside := fits.code_lt (Array.mem_of_getElem? found) own
    have later := ih (fits.redirect i) fun j member => turns j (List.mem_cons_of_mem i member)
    rw [redirect, target] at later
    rw [List.foldl_cons, redirect, target]
    have hung := (List.perm_append_left_iff rest).2 (listed_hang inside i)
    exact later.trans (hung.trans List.perm_middle)

/-- Each queue gets the clauses that turn to its literal, in the order in which they turn. -/
theorem line_foldl_redirect (fits : Fits clauses values watches) (turned : List Nat) (code : Nat) :
    line (turned.foldl (redirect clauses values) watches) code =
      line watches code ++ turned.filter (turnsTo clauses values code) := by
  induction turned generalizing watches with
  | nil => exact (List.append_nil _).symm
  | cons i rest ih =>
    rw [List.foldl_cons, ih (fits.redirect i), redirect, List.filter_cons]
    cases target : target? clauses values i with
    | none => simp [turnsTo, target]
    | some l =>
      obtain ⟨c, found, own, -⟩ := target?_mem target
      simp only [line_hang (fits.code_lt (Array.mem_of_getElem? found) own)]
      by_cases same : code = l.code
      · simp [turnsTo, target, same]
      · simp [turnsTo, target, same, Ne.symm same]

@[simp] theorem size_foldl_redirect (turned : List Nat) :
    (turned.foldl (redirect clauses values) watches).size = watches.size := by
  induction turned generalizing watches with
  | nil => rfl
  | cons i rest ih => rw [List.foldl_cons, ih, size_redirect]

/-- The queues once a line has turned as far as it can, its own queue taken out before. -/
def settled (clauses : Array Clause) (values : Values) (watches : Watches) (code : Nat) : Watches :=
  ((line watches code).takeWhile (canTurn clauses values)).foldl
    (redirect clauses values) (watches.setIfInBounds code Queue.empty)

@[simp] theorem size_settled (code : Nat) : (settled clauses values watches code).size = watches.size := by
  simp [settled]

/-- Turning loses no clause and lists none twice. -/
theorem listed_settled (fits : Fits clauses values watches) {code : Nat} (inside : code < watches.size) :
    (listed (settled clauses values watches code) ++
      (line watches code).dropWhile (canTurn clauses values)).Perm (listed watches) := by
  have whole := List.takeWhile_append_dropWhile
    (p := canTurn clauses values) (l := line watches code)
  have others := listed_set inside Queue.empty
  have turns : ∀ i ∈ (line watches code).takeWhile (canTurn clauses values), canTurn clauses values i := by
    intro i member
    exact List.mem_takeWhile_imp member
  have moved := listed_foldl_redirect (fits.set inside Queue.empty) turns
  rw [settled, Array.setIfInBounds, dif_pos inside]
  generalize (line watches code).takeWhile _ = turned at *
  generalize (line watches code).dropWhile _ = waiting at *
  rw [Queue.toList_empty, List.nil_append, ← whole] at others
  grind

/-- The queue of the line keeps nothing but what turns back to it, and the others get what turns to them. -/
theorem line_settled (fits : Fits clauses values watches) {code : Nat} (inside : code < watches.size)
    (other : Nat) :
    line (settled clauses values watches code) other = (if other = code then [] else line watches other) ++
      ((line watches code).takeWhile (canTurn clauses values)).filter (turnsTo clauses values other) := by
  rw [settled, Array.setIfInBounds, dif_pos inside, line_foldl_redirect (fits.set inside Queue.empty),
    line_set inside, Queue.toList_empty]

theorem mem_line_settled (fits : Fits clauses values watches) {code other i : Nat}
    (inside : code < watches.size) (waiting : i ∈ line (settled clauses values watches code) other) :
    other ≠ code ∧ i ∈ line watches other ∨ ∃ l, target? clauses values i = some l ∧ l.code = other := by
  rw [line_settled fits inside, List.mem_append, List.mem_filter] at waiting
  rcases waiting with before | ⟨-, turns⟩
  · by_cases same : other = code
    · simp [same] at before
    · rw [if_neg same] at before
      exact .inl ⟨same, before⟩
  · exact .inr (by simpa [turnsTo, Option.any_eq_true] using turns)

/-- No clause turns to a false literal, so its own line is empty then. -/
theorem line_settled_self (fits : Fits clauses values watches) {literal : Literal}
    (inside : literal.code < watches.size) (falsified : Falsified values literal) :
    line (settled clauses values watches literal.code) literal.code = [] := by
  rw [List.eq_nil_iff_forall_not_mem]
  intro i waiting
  rcases mem_line_settled fits inside waiting with ⟨elsewhere, -⟩ | ⟨l, target, same⟩
  · exact elsewhere rfl
  · obtain ⟨-, -, -, safe⟩ := target?_mem target
    exact safe (Literal.ext same ▸ falsified)

theorem unwatch_eq (fits : Fits clauses values watches) {literal : Literal}
    (inside : literal.code < watches.size)
    (numbered : ∀ i ∈ line watches literal.code, i < clauses.size) :
    ∃ left, left.toList =
        (line watches literal.code).dropWhile (canTurn clauses values) ∧
      unwatch clauses values watches literal = .ok
        (if left.toList = [] then (true, settled clauses values watches literal.code)
        else (false, (settled clauses values watches literal.code).setIfInBounds literal.code left)) := by
  have here : line watches literal.code =
      watches[literal.code].front ++ watches[literal.code].back.reverse := line_eq (by simp [inside])
  rw [here] at numbered
  obtain ⟨left, run, rest, none_left⟩ := turn_eq (fits.set inside Queue.empty) numbered
  have outcome : settled clauses values watches literal.code =
      ((line watches literal.code).takeWhile (canTurn clauses values)).foldl
        (redirect clauses values) (watches.set literal.code Queue.empty) := by
    rw [settled, Array.setIfInBounds, dif_pos inside]
  rw [← here, ← outcome] at run
  refine ⟨left, by rw [rest, here], ?_⟩
  simp only [unwatch, fetch, dif_pos inside, store, bind, Except.bind, run]
  cases first : left.front with
  | nil => simp [none_left first, pure, Except.pure]
  | cons i others =>
    have waiting : left.toList ≠ [] := by simp [Queue.toList, first]
    simp [waiting, pure, Except.pure, inside, Array.setIfInBounds]

/-- What could not turn, put back into its queue, makes the clauses complete again. -/
theorem listed_put_back (fits : Fits clauses values watches) {code : Nat} (inside : code < watches.size)
    (emptied : line (settled clauses values watches code) code = []) {left : Queue}
    (rest : left.toList = (line watches code).dropWhile (canTurn clauses values)) :
    (listed ((settled clauses values watches code).setIfInBounds code left)).Perm (listed watches) := by
  have still : code < (settled clauses values watches code).size := by rwa [size_settled]
  have put := listed_set still left
  have all := listed_settled fits inside
  rw [emptied, List.append_nil, rest] at put
  rw [Array.setIfInBounds, dif_pos still]
  exact put.trans (List.perm_append_comm.trans all)

/-- Of the queue of a false literal there is left what no clause in front can turn away from, and the others have got
what has turned to them. -/
theorem unwatch_line (fits : Fits clauses values watches) {literal : Literal}
    (falsified : Falsified values literal) (inside : literal.code < watches.size)
    (numbered : ∀ i ∈ line watches literal.code, i < clauses.size) :
    ∃ rebound watches', unwatch clauses values watches literal = .ok (rebound, watches') ∧
      (rebound = true ↔ (line watches literal.code).dropWhile (canTurn clauses values) = []) ∧
      watches'.size = watches.size ∧ (listed watches').Perm (listed watches) ∧
      line watches' literal.code = (line watches literal.code).dropWhile (canTurn clauses values) ∧
      ∀ code, code ≠ literal.code → line watches' code = line watches code ++
        ((line watches literal.code).takeWhile (canTurn clauses values)).filter
          (turnsTo clauses values code) := by
  obtain ⟨left, rest, run⟩ := unwatch_eq fits inside numbered
  have own := line_settled_self fits inside falsified
  have others := line_settled fits inside
  by_cases done : left.toList = []
  · have all := listed_settled fits inside
    rw [if_pos done] at run
    rw [← rest, done] at all ⊢
    rw [List.append_nil] at all
    refine ⟨true, _, run, iff_of_true rfl rfl, size_settled _, all, own, ?_⟩
    intro code other
    rw [others, if_neg other]
  · have still : literal.code < (settled clauses values watches literal.code).size := by rwa [size_settled]
    have all := listed_put_back fits inside own rest
    rw [if_neg done] at run
    rw [Array.setIfInBounds, dif_pos still] at run all
    rw [← rest]
    refine ⟨false, _, run, iff_of_false Bool.false_ne_true done, by simp, all, by rw [line_set still, if_pos rfl], ?_⟩
    intro code other
    rw [line_set still, if_neg other, others, if_neg other]

end

end PropSat.Search
