import PropSat.Proofs.Search.Run

/-!
What a session gives over all requests made to it. Its answers are the satisfying assignments in
lexicographic order, and none from then on (`answers_satisfying`); what it does to find them is what the
plain depth-first search does, step for step (`trace_eq_explore`).
-/

namespace PropSat.Session

open Search

/-- The answers to so many requests for the next assignment, one after the other. -/
def answers (s : Session) : Nat → Except Fault (List (Option (List Bool)) × Session)
  | 0 => .ok ([], s)
  | k + 1 => do
    let (answer, s) ← s.next
    let (later, s) ← s.answers k
    return (answer :: later, s)

section
variable {s : Session} {entries : List Entry} {vars : Nat} {clauses : Array Clause}

theorem Expects.answers (expects : Expects s entries) (k : Nat) :
    ∃ s', s.answers k = .ok ((List.range k).map ((founds entries)[·]?), s') := by
  induction k generalizing s entries with
  | zero => exact ⟨s, rfl⟩
  | succ k ih =>
    obtain ⟨s₁, next, after⟩ := expects.next
    obtain ⟨s₂, later⟩ := ih after
    refine ⟨s₂, ?_⟩
    have shifted : (List.range k).map ((founds (cut Step.isAnswer entries).2)[·]?) =
        (List.range k).map fun i => (founds entries)[i + 1]? := by
      rw [expects.founds_cut.2.1]
      exact List.map_congr_left fun i _ => by rw [List.getElem?_drop, Nat.add_comm]
    simp [Session.answers, next, later, shifted, List.range_succ_eq_map, List.head?_eq_getElem?, bind,
      Except.bind, pure, Except.pure]

/-- All the assignments still to be found are found in one go, and nothing is left. -/
theorem Expects.rest (expects : Expects s entries) :
    ∃ s', s.rest = .ok ((founds entries).toArray, s') ∧ Expects s' [] := by
  obtain ⟨s', run, after⟩ := expects.gather (fun _ => false) Array.push #[]
  rw [cut_never] at run after
  rw [List.foldl_push_eq_append', Array.empty_append] at run
  exact ⟨s', run, after⟩

theorem start_expects (known : InRange vars clauses) (nonempty : ∀ c ∈ clauses, c.literals ≠ []) :
    ∃ s, start vars clauses = .ok s ∧ Expects s (explore clauses vars []) := by
  obtain ⟨s, run, stands⟩ := start_stands known nonempty
  have all := upcoming_fresh clauses (List.length_nil ▸ Nat.zero_le vars : ([] : List Bool).length ≤ vars)
  rw [List.length_nil, Nat.sub_zero, List.reverse_nil, resume, List.append_nil] at all
  exact ⟨s, run, all ▸ .stands stands⟩

theorem violated_nil : violated clauses [] = true ↔ ∃ c ∈ clauses, c.literals = [] := by
  rw [violated_iff]
  simp [List.eq_nil_iff_forall_not_mem]

/-- An empty clause is satisfied by nothing, and its session finds nothing. -/
theorem start_satisfied (known : InRange vars clauses) :
    ∃ s entries, start vars clauses = .ok s ∧ Expects s entries ∧
      founds entries = (completions vars []).filter (satisfied clauses) := by
  by_cases empty : ∃ c ∈ clauses, c.literals = []
  · obtain ⟨s, run, exhausted⟩ := start_empty known empty
    have none_left : (completions vars []).filter (satisfied clauses) = [] := by
      rw [List.filter_eq_nil_iff]
      intro total _ holds
      obtain ⟨c, member, none_own⟩ := empty
      obtain ⟨l, own, -⟩ := satisfied_iff.1 holds c member
      simp [none_own] at own
    exact ⟨s, [], run, .exhausted exhausted, none_left.symm⟩
  · obtain ⟨s, run, expects⟩ := start_expects known fun c member none_own => empty ⟨c, member, none_own⟩
    refine ⟨s, _, run, expects, founds_explore ?_ ?_⟩
    · simpa using known
    · rwa [Bool.eq_false_iff, ne_eq, violated_nil]

/-- For clauses in range a session answers with the satisfying assignments of all variables, each once
and in lexicographic order, and with none from then on. -/
theorem answers_satisfying (known : InRange vars clauses) :
    ∃ s, start vars clauses = .ok s ∧ ∃ found : List (List Bool),
      (∀ total, total ∈ found ↔ total.length = vars ∧
        ∀ c ∈ clauses, ∃ l ∈ c.literals, total[l.var]? = some (!l.isNegative)) ∧
      found.Pairwise Earlier ∧ found.Nodup ∧
      ∀ k, ∃ s', s.answers k = .ok ((List.range k).map (found[·]?), s') := by
  obtain ⟨s, entries, run, expects, all⟩ := start_satisfied known
  have sorted : (founds entries).Pairwise Earlier := all ▸ (pairwise_completions vars []).filter _
  refine ⟨s, run, founds entries, ?_, sorted, sorted.imp ?_, expects.answers⟩
  · intro total
    rw [all, List.mem_filter, satisfied_iff, mem_completions_nil]
  · rintro first _ earlier rfl
    exact Earlier.irrefl first earlier

theorem answers_satisfying_implied :
    InRange 2 #[.ofList [.positive 0, .negative 1], .ofList [.positive 1, .negative 1]] ∧
    ∃ s, start 2 #[.ofList [.positive 0, .negative 1], .ofList [.positive 1, .negative 1]] = .ok s ∧
      ∃ found : List (List Bool),
        (∀ total, total ∈ found ↔ total.length = 2 ∧
          ∀ c ∈ #[Clause.ofList [.positive 0, .negative 1], .ofList [.positive 1, .negative 1]],
            ∃ l ∈ c.literals, total[l.var]? = some (!l.isNegative)) ∧
        found.Pairwise Earlier ∧ found.Nodup ∧
        ∀ k, ∃ s', s.answers k = .ok ((List.range k).map (found[·]?), s') := by
  have known : InRange 2 #[.ofList [.positive 0, .negative 1], .ofList [.positive 1, .negative 1]] := by
    simp [InRange, Literal.var_positive, Literal.var_negative, UInt64.size]
  exact ⟨known, answers_satisfying known⟩

/-- Requests make a session attempt, keep, give up and find exactly what the plain depth-first search
does, up to the answer of the last one; a request without an answer comes after all of it. Neither the
order of the clauses nor their repetition shows. -/
theorem trace_eq_explore (known : InRange vars clauses) (nonempty : ∀ c ∈ clauses, c.literals ≠ []) :
    ∃ s, start vars clauses = .ok s ∧
      (∀ k, s.trace k = .ok (answered k (explore clauses vars []))) ∧
      (∀ k, (founds (explore clauses vars [])).length < k →
        s.trace k = .ok (explore clauses vars [])) ∧
      (∀ k, ∃ s', s.answers k =
        .ok ((List.range k).map ((founds (explore clauses vars []))[·]?), s')) ∧
      ∀ others : Array Clause, (∀ c, c ∈ others ↔ c ∈ clauses) →
        ∃ t, start vars others = .ok t ∧ ∀ k, t.trace k = s.trace k := by
  obtain ⟨s, run, expects⟩ := start_expects known nonempty
  refine ⟨s, run, expects.trace, fun k enough => ?_, expects.answers, fun others same => ?_⟩
  · rw [expects.trace, expects.answered enough]
  · have knownOthers : InRange vars others := fun c member => known c ((same c).1 member)
    obtain ⟨t, runOthers, expectsOthers⟩ :=
      start_expects knownOthers fun c member => nonempty c ((same c).1 member)
    rw [explore_congr same] at expectsOthers
    exact ⟨t, runOthers, fun k => by rw [expectsOthers.trace, expects.trace]⟩

theorem trace_eq_explore_implied :
    InRange 2 #[.ofList [.positive 0, .negative 1]] ∧
    (∀ c ∈ #[Clause.ofList [.positive 0, .negative 1]], c.literals ≠ []) ∧
    ∃ s, start 2 #[.ofList [.positive 0, .negative 1]] = .ok s ∧
      (∀ k, s.trace k = .ok (answered k (explore #[.ofList [.positive 0, .negative 1]] 2 []))) ∧
      (∀ k, (founds (explore #[.ofList [.positive 0, .negative 1]] 2 [])).length < k →
        s.trace k = .ok (explore #[.ofList [.positive 0, .negative 1]] 2 [])) ∧
      (∀ k, ∃ s', s.answers k = .ok ((List.range k).map
        ((founds (explore #[.ofList [.positive 0, .negative 1]] 2 []))[·]?), s')) ∧
      ∀ others : Array Clause, (∀ c, c ∈ others ↔ c ∈ #[Clause.ofList [.positive 0, .negative 1]]) →
        ∃ t, start 2 others = .ok t ∧ ∀ k, t.trace k = s.trace k := by
  have known : InRange 2 #[.ofList [.positive 0, .negative 1]] := by
    simp [InRange, Literal.var_positive, Literal.var_negative, UInt64.size]
  have nonempty : ∀ c ∈ #[Clause.ofList [.positive 0, .negative 1]], c.literals ≠ [] := by
    intro c member empty
    obtain rfl : c = _ := by simpa using member
    have first : Literal.positive 0 ∈ (Clause.ofList [.positive 0, .negative 1]).literals := by simp
    simp [empty] at first
  exact ⟨known, nonempty, trace_eq_explore known nonempty⟩

end

/-- Where the first variable has to follow from the second. -/
example : explore #[.ofList [.positive 0, .negative 1]] 2 [] =
    [.tried 0 false true, .tried 1 false true, .found [false, false], .tried 1 true false,
      .backtracked 1, .tried 0 true true, .tried 1 false true, .found [true, false],
      .tried 1 true true, .found [true, true], .backtracked 1, .finished] := by
  cbv

end PropSat.Session
