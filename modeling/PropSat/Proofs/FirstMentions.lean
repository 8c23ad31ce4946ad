import Mathlib.Data.List.Induction

/-!
Lists without their repetitions, each element where it is met first. A list that goes on keeps the first mentions
there are and brings the new ones behind them.
-/

namespace PropSat

variable {α : Type} [BEq α]

theorem eraseDups_loop_concat (values kept : List α) (a : α) :
    List.eraseDupsBy.loop (· == ·) (values ++ [a]) kept =
      if (List.eraseDupsBy.loop (· == ·) values kept).any (a == ·) then
        List.eraseDupsBy.loop (· == ·) values kept
      else List.eraseDupsBy.loop (· == ·) values kept ++ [a] := by
  induction values generalizing kept with
  | nil => cases known : kept.any (a == ·) <;> simp [List.eraseDupsBy.loop, known]
  | cons b rest ih =>
    rw [List.cons_append, List.eraseDupsBy.loop, List.eraseDupsBy.loop]
    cases kept.any (b == ·)
    · exact ih (b :: kept)
    · exact ih kept

theorem eraseDups_concat (values : List α) (a : α) :
    (values ++ [a]).eraseDups =
      if values.eraseDups.any (a == ·) then values.eraseDups else values.eraseDups ++ [a] :=
  eraseDups_loop_concat values [] a

theorem eraseDups_prefix (values more : List α) : values.eraseDups <+: (values ++ more).eraseDups := by
  induction more using List.reverseRecOn with
  | nil => exact (List.append_nil values).symm ▸ List.prefix_rfl
  | append_singleton more a ih =>
    rw [← List.append_assoc, eraseDups_concat]
    split
    · exact ih
    · exact ih.trans (List.prefix_append _ _)

end PropSat
