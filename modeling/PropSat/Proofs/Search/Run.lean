import PropSat.Proofs.Search.Upcoming
import PropSat.Search.Enumerate

/-!
Runs of steps, and the record of what they do. A run takes the entries that a session has before it from
the front, up to the first at which it stops; so any number of requests for the next assignment go
through the record of the plain depth-first search, each as far as its answer.
-/

namespace PropSat

namespace Search

def Entry.step : Entry → Step
  | .tried _ _ true => .descended
  | .tried _ _ false => .failed
  | .found _ => .found
  | .backtracked _ => .backtracked
  | .finished => .finished

/-- The entries up to the first whose step stops the run, that one included, and those behind it. -/
def cut (stop : Step → Bool) : List Entry → List Entry × List Entry
  | [] => ([], [])
  | entry :: later =>
    if stop entry.step then ([entry], later) else (entry :: (cut stop later).1, (cut stop later).2)

/-- The entries that so many requests for the next assignment go through. -/
def answered : Nat → List Entry → List Entry
  | 0, _ => []
  | k + 1, entries =>
    (cut Step.isAnswer entries).1 ++ answered k (cut Step.isAnswer entries).2

theorem answered_nil (k : Nat) : answered k [] = [] := by
  induction k with
  | zero => rfl
  | succ k ih => exact ih

theorem cut_never (entries : List Entry) : cut (fun _ => false) entries = (entries, []) := by
  induction entries with
  | nil => rfl
  | cons entry later ih => rw [cut, if_neg Bool.false_ne_true, ih]

theorem cut_append (stop : Step → Bool) (entries : List Entry) :
    (cut stop entries).1 ++ (cut stop entries).2 = entries := by
  induction entries with
  | nil => rfl
  | cons entry later ih =>
    rw [cut]
    split
    · rfl
    · exact congrArg (entry :: ·) ih

end Search

open Search

namespace Session

section
variable {β : Type} {stop : Step → Bool} {visit : β → Session → β} {s s' : Session} {step : Step}

theorem run_exhausted (exhausted : s.exhausted = true) (gathered : β) :
    s.run stop visit gathered = .ok (gathered, s) := by
  rw [run, dif_neg (by simp [exhausted])]

theorem run_step (running : s.exhausted = false) (stepped : s.advance = .ok (step, s')) (gathered : β) :
    s.run stop visit gathered =
      if stop step then .ok (visit gathered s, s') else s'.run stop visit (visit gathered s) := by
  rw [run, dif_pos running]
  split
  case h_1 fault failed => rw [stepped] at failed; cases failed
  case h_2 other next again =>
    rw [stepped] at again
    cases again
    rfl

end

theorem entry_step (s : Session) (step : Step) : (s.entry step).step = step := by
  cases step <;> rfl

/-- Either nothing is to come, or a step does the first entry to come; it finds an assignment just when
every variable is decided. -/
theorem Expects.cases {s : Session} {entries : List Entry} (expects : Expects s entries) :
    s.exhausted = true ∧ entries = [] ∨
      s.exhausted = false ∧ ∃ step s' later, s.advance = .ok (step, s') ∧
        (step = .found ↔ s.isComplete = true) ∧ (step = .finished → later = []) ∧
        entries = s.entry step :: later ∧ Expects s' later := by
  cases expects with
  | exhausted exhausted => exact .inl ⟨exhausted, rfl⟩
  | stands stands =>
    obtain ⟨step, s', later, run, finds, last, all, after⟩ := stands.step
    refine .inr ⟨stands.running, step, s', later, run, ?_, last, all, after⟩
    rw [finds, isComplete, beq_iff_eq, stands.size]

/-- What a visit gathers of a session shows in the entry of its next step. -/
def Reads {β : Type} (visit : β → Session → β) (absorb : β → Entry → β) : Prop :=
  ∀ s step s' gathered, s.advance = .ok (step, s') → (step = .found ↔ s.isComplete = true) →
    visit gathered s = absorb gathered (s.entry step)

/-- A run gathers the entries to come, one by one, up to where it stops. -/
theorem Expects.run {β : Type} {visit : β → Session → β} {absorb : β → Entry → β}
    {s : Session} {entries : List Entry} (expects : Expects s entries) (stop : Step → Bool)
    (reads : Reads visit absorb) (gathered : β) :
    ∃ s', s.run stop visit gathered = .ok ((cut stop entries).1.foldl absorb gathered, s') ∧
      Expects s' (cut stop entries).2 := by
  -- along the entries still to come: each step takes off the first
  induction entries generalizing s gathered with
  | nil =>
    rcases expects.cases with ⟨exhausted, -⟩ | ⟨-, step, s', later, -, -, -, all, -⟩
    · exact ⟨s, run_exhausted exhausted gathered, .exhausted exhausted⟩
    · cases all
  | cons entry later ih =>
    rcases expects.cases with ⟨-, none_left⟩ | ⟨running, step, s', later', stepped, finds, -, all, after⟩
    · cases none_left
    · cases all
      have read := reads s step s' gathered stepped finds
      rw [run_step running stepped, cut, entry_step, read]
      by_cases stops : stop step
      · rw [if_pos stops, if_pos stops]
        exact ⟨s', rfl, after⟩
      · rw [if_neg stops, if_neg stops]
        exact ih after _

/-- The first assignment found answers a request, and the later ones are left for later requests. -/
theorem Expects.founds_cut {s : Session} {entries : List Entry} (expects : Expects s entries) :
    founds (cut Step.isAnswer entries).1 = (founds entries).take 1 ∧
      founds (cut Step.isAnswer entries).2 = (founds entries).drop 1 ∧
      (founds entries = [] → (cut Step.isAnswer entries).2 = []) := by
  induction entries generalizing s with
  | nil => exact ⟨rfl, rfl, fun _ => rfl⟩
  | cons entry later ih =>
    rcases expects.cases with ⟨-, none_left⟩ | ⟨-, step, s', later', -, -, last, all, after⟩
    · cases none_left
    · cases all
      have rest := ih after
      cases step with
      | found => simp [cut, Session.entry, Entry.step, Step.isAnswer, founds, Entry.found?]
      | finished =>
        rw [last rfl]
        exact ⟨rfl, rfl, fun _ => rfl⟩
      | descended | failed | backtracked => exact rest

def record (entries : List Entry) (s : Session) : List Entry :=
  match s.advance with
  | .ok (step, _) => entries ++ [s.entry step]
  | .error _ => entries

/-- What is done in answer to so many requests for the next assignment. -/
def trace (s : Session) : Nat → Except Fault (List Entry)
  | 0 => .ok []
  | k + 1 => do
    let (entries, _) ← s.run Step.isAnswer record []
    let (_, s') ← s.next
    return entries ++ (← s'.trace k)

def takeUp {β : Type} (take : β → List Bool → β) (gathered : β) (entry : Entry) : β :=
  match entry.found? with
  | some assignment => take gathered assignment
  | none => gathered

theorem foldl_takeUp {β : Type} (take : β → List Bool → β) (entries : List Entry) (gathered : β) :
    entries.foldl (takeUp take) gathered = (founds entries).foldl take gathered := by
  induction entries generalizing gathered with
  | nil => rfl
  | cons entry later ih =>
    cases entry with
    | found assignment => exact ih (take gathered assignment)
    | tried | backtracked | finished => exact ih gathered

theorem reads_complete {β : Type} (take : β → List Bool → β) :
    Reads (fun gathered s => if s.isComplete then take gathered s.assignment else gathered)
      (takeUp take) := by
  intro s step s' gathered _ finds
  by_cases complete : s.isComplete = true
  · rw [finds.2 complete]
    exact if_pos complete
  · cases step with
    | found => exact absurd (finds.1 rfl) complete
    | descended | failed | backtracked | finished => exact if_neg complete

theorem reads_record : Reads record (fun entries entry => entries ++ [entry]) := by
  intro s step s' entries stepped _
  rw [record, stepped]

theorem Expects.gather {β : Type} {s : Session} {entries : List Entry} (expects : Expects s entries)
    (stop : Step → Bool) (take : β → List Bool → β) (gathered : β) :
    ∃ s', s.run stop (fun gathered s => if s.isComplete then take gathered s.assignment else gathered)
        gathered = .ok ((founds (cut stop entries).1).foldl take gathered, s') ∧
      Expects s' (cut stop entries).2 := by
  rw [← foldl_takeUp]
  exact expects.run stop (reads_complete take) gathered

/-- The answer to a request is the first assignment still to be found. -/
theorem Expects.next {s : Session} {entries : List Entry} (expects : Expects s entries) :
    ∃ s', s.next = .ok ((founds entries).head?, s') ∧ Expects s' (cut Step.isAnswer entries).2 := by
  obtain ⟨s', run, after⟩ := expects.gather Step.isAnswer (fun _ assignment => some assignment) none
  refine ⟨s', ?_, after⟩
  rw [Session.next, run, expects.founds_cut.1]
  cases founds entries <;> rfl

theorem Expects.record {s : Session} {entries : List Entry} (expects : Expects s entries) :
    ∃ s', s.run Step.isAnswer Session.record [] = .ok ((cut Step.isAnswer entries).1, s') := by
  obtain ⟨s', run, -⟩ := expects.run Step.isAnswer reads_record []
  refine ⟨s', ?_⟩
  rw [run]
  simp [← List.flatMap_def]

theorem Expects.trace {s : Session} {entries : List Entry} (expects : Expects s entries) (k : Nat) :
    s.trace k = .ok (answered k entries) := by
  induction k generalizing s entries with
  | zero => rfl
  | succ k ih =>
    obtain ⟨s₁, record⟩ := expects.record
    obtain ⟨s₂, next, after⟩ := expects.next
    simp [Session.trace, record, next, ih after, answered, bind, Except.bind, pure, Except.pure]

/-- Once a request has found nothing all is done. -/
theorem Expects.answered {s : Session} {entries : List Entry} (expects : Expects s entries) {k : Nat}
    (enough : (founds entries).length < k) : answered k entries = entries := by
  induction k generalizing s entries with
  | zero => omega
  | succ k ih =>
    obtain ⟨s', -, after⟩ := expects.next
    obtain ⟨-, later, none_left⟩ := expects.founds_cut
    have whole := cut_append Step.isAnswer entries
    rw [Search.answered]
    by_cases nothing : founds entries = []
    · have all : (cut Step.isAnswer entries).2 = [] := none_left nothing
      rw [all, List.append_nil] at whole
      rw [whole, all, answered_nil, List.append_nil]
    · rw [ih after, whole]
      have shorter := congrArg List.length later
      have some_left := List.length_pos_iff.2 nothing
      rw [List.length_drop] at shorter
      omega

end Session

end PropSat
