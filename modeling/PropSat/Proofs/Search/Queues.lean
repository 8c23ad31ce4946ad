import PropSat.Search.Watches

/-!
What the queues hold. Every operation on them is an `Array.set` or an `Array.modify`, and of each it is
said which clauses stand in which queue afterwards, and which stand in any queue at all, counted with
repetitions (`listed`).
-/

namespace PropSat.Search

/-- The clauses that watch the literal of this code, first in line first. -/
def line (watches : Watches) (code : Nat) : List Nat :=
  match watches[code]? with
  | some queue => queue.toList
  | none => []

def listed (watches : Watches) : List Nat := watches.toList.flatMap Queue.toList

theorem line_eq {watches : Watches} {code : Nat} {queue : Queue} (found : watches[code]? = some queue) :
    line watches code = queue.toList := by
  simp only [line, found]

theorem mem_listed {watches : Watches} {i : Nat} :
    i ∈ listed watches ↔ ∃ code, i ∈ line watches code := by
  simp only [listed, List.mem_flatMap, Array.mem_toList_iff, Array.mem_iff_getElem?]
  constructor
  · rintro ⟨queue, ⟨code, found⟩, waiting⟩
    exact ⟨code, by rwa [line_eq found]⟩
  · rintro ⟨code, waiting⟩
    cases found : watches[code]? with
    | none => simp [line, found] at waiting
    | some queue => exact ⟨queue, ⟨code, found⟩, by rwa [line_eq found] at waiting⟩

theorem line_set {watches : Watches} {code : Nat} (inside : code < watches.size) (queue : Queue)
    (other : Nat) :
    line (watches.set code queue) other = if other = code then queue.toList else line watches other := by
  by_cases same : other = code
  · subst same
    simp [line]
  · simp [line, same, Array.getElem?_set_ne inside (Ne.symm same)]

/-- Of all that is listed a replaced queue changes only its own part. -/
theorem listed_set {watches : Watches} {code : Nat} (inside : code < watches.size) (queue : Queue) :
    (listed (watches.set code queue) ++ line watches code).Perm (queue.toList ++ listed watches) := by
  have here : line watches code = watches.toList[code].toList := line_eq (by simp [inside])
  have whole : watches.toList =
      watches.toList.take code ++ watches.toList[code] :: watches.toList.drop (code + 1) := by
    rw [List.getElem_cons_drop, List.take_append_drop]
  have before : listed watches = (watches.toList.take code).flatMap Queue.toList ++
      (line watches code ++ (watches.toList.drop (code + 1)).flatMap Queue.toList) := by
    rw [here, ← List.flatMap_cons, ← List.flatMap_append, ← whole, listed]
  have after : listed (watches.set code queue) = (watches.toList.take code).flatMap Queue.toList ++
      (queue.toList ++ (watches.toList.drop (code + 1)).flatMap Queue.toList) := by
    rw [listed, Array.toList_set, List.set_eq_take_append_cons_drop, if_pos (by simpa using inside),
      List.flatMap_append, List.flatMap_cons]
  rw [before, after]
  generalize (watches.toList.take code).flatMap Queue.toList = earlier
  generalize (watches.toList.drop (code + 1)).flatMap Queue.toList = later
  grind

def hang (watches : Watches) (i : Nat) (l : Literal) : Watches := watches.modify l.code (·.push i)

theorem watch_eq {watches : Watches} {l : Literal} (inside : l.code < watches.size) (i : Nat) :
    watch watches i l = .ok (hang watches i l) := by
  rw [watch, adjust, if_pos inside, hang]

@[simp] theorem size_hang (watches : Watches) (i : Nat) (l : Literal) :
    (hang watches i l).size = watches.size := by
  simp [hang]

theorem hang_eq_set {watches : Watches} {l : Literal} (inside : l.code < watches.size) (i : Nat) :
    hang watches i l = watches.set l.code (watches[l.code].push i) := by
  apply Array.ext_getElem?
  intro code
  rw [hang, Array.getElem?_modify, Array.getElem?_set]
  by_cases same : l.code = code
  · subst same
    simp [inside]
  · simp [same]

theorem line_hang {watches : Watches} {l : Literal} (inside : l.code < watches.size) (i code : Nat) :
    line (hang watches i l) code =
      if code = l.code then line watches code ++ [i] else line watches code := by
  rw [hang_eq_set inside, line_set inside]
  by_cases same : code = l.code
  · subst same
    simp [line, inside]
  · simp [same]

theorem listed_hang {watches : Watches} {l : Literal} (inside : l.code < watches.size) (i : Nat) :
    (listed (hang watches i l)).Perm (i :: listed watches) := by
  rw [hang_eq_set inside]
  have here : line watches l.code = watches[l.code].toList := line_eq (by simp [inside])
  have changed := listed_set inside (watches[l.code].push i)
  rw [Queue.toList_push, ← here, List.append_assoc] at changed
  exact (List.perm_append_left_iff _).1 (List.perm_append_comm.trans changed)

end PropSat.Search
