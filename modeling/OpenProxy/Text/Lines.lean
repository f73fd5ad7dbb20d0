import OpenProxy.Text.Basic

/-!
# Lines

`lines` reads a text as `str::lines` does: a line ends with `\n` or `\r\n`, and what stands behind the last line end is a
line unless it is empty.
-/

namespace OpenProxy

/-- The lines of a text, where `finish` says what is left of a line that has a line end. -/
def linesWith (finish : Text → Text) (s : Text) : List Text :=
  let parts := s.splitOn '\n'
  parts.dropLast.map finish ++ parts.getLast?.toList.filter fun l => !l.isEmpty

/-- A line without the carriage return at its end. -/
def stripCarriageReturn (l : Text) : Text := if l.getLast? = some '\r' then l.dropLast else l

/-- `str::lines`. -/
def lines (s : Text) : List Text := linesWith stripCarriageReturn s

/-! ### A line has no line feed -/

theorem notMem_of_mem_splitOn {l s : Text} (h : l ∈ s.splitOn '\n') : '\n' ∉ l := by
  induction s generalizing l with
  | nil =>
    simp only [List.splitOn_nil, List.mem_singleton] at h
    simp [h]
  | cons c s ih =>
    rw [List.splitOn_cons_eq_if_modifyHead] at h
    split at h
    · rcases List.mem_cons.mp h with rfl | h
      · exact List.not_mem_nil
      · exact ih h
    · rename_i hc
      obtain ⟨first, rest, hsplit⟩ := List.exists_cons_of_ne_nil (List.splitOn_ne_nil '\n' s)
      rw [hsplit, List.modifyHead_cons, List.mem_cons] at h
      rcases h with rfl | h
      · have hfirst : '\n' ∉ first := ih (hsplit ▸ List.mem_cons_self)
        simp only [beq_iff_eq] at hc
        simp only [List.mem_cons, not_or]
        exact ⟨fun heq => hc heq.symm, hfirst⟩
      · exact ih (hsplit ▸ List.mem_cons_of_mem _ h)

end OpenProxy
