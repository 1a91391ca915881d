import Mathlib.Data.List.Basic

/-!
# Lines

The lines of a text in which each line is ended by a given element, without those elements.
-/

namespace NmOtool

variable {α : Type} [BEq α] [LawfulBEq α] {c : α}

/-- The lines of `text`; what follows the last `c` is left out. -/
def splitLines (c : α) (text : List α) : List (List α) := (text.splitOn c).dropLast

theorem splitLines_cons {line : List α} (h : c ∉ line) (text : List α) :
    splitLines c (line ++ c :: text) = line :: splitLines c text := by
  rw [splitLines, List.splitOn_append_cons_self_of_not_mem h, List.dropLast_cons_of_ne_nil
    (List.splitOn_ne_nil c text), splitLines]

/-- Lines that are written out are read back. -/
theorem splitLines_flatMap {lines : List (List α)} (h : ∀ line ∈ lines, c ∉ line) :
    splitLines c (lines.flatMap (· ++ [c])) = lines := by
  induction lines with
  | nil => simp [splitLines]
  | cons line lines ih =>
    obtain ⟨hline, hlines⟩ := List.forall_mem_cons.mp h
    rw [List.flatMap_cons, List.append_assoc, List.singleton_append, splitLines_cons hline, ih hlines]

end NmOtool
