import Mathlib.Data.List.TakeWhile
import Mathlib.Tactic.Common

/-!
# Lines and segments

Two readings of a list with separators. `linesOf p` are the parts between separators, where one at
the end closes the last part and opens no other; `segmentsOf p` are the maximal non-empty runs
without a separator.
-/

namespace NmOtool

variable {α : Type} {p : α → Bool} {s t : List α} {a : α}

/-- The parts of `s` that end at a separator, and what is left behind the last one. -/
def linesOf [DecidableEq α] (p : α → Bool) (s : List α) : List (List α) :=
  if (s.splitOnP p).getLast? = some [] then (s.splitOnP p).dropLast else s.splitOnP p

/-- The maximal non-empty runs of `s` without a separator. -/
def segmentsOf (p : α → Bool) (s : List α) : List (List α) := (s.splitOnP p).filter (· ≠ [])

@[simp] theorem linesOf_nil [DecidableEq α] : linesOf p [] = [] := rfl

/-- A list without a separator is one line. -/
theorem linesOf_single [DecidableEq α] (hs : s ≠ []) (h : ∀ a ∈ s, p a = false) :
    linesOf p s = [s] := by
  rw [linesOf, List.splitOnP_eq_singleton h, if_neg]
  simpa using hs

/-- A line in front of a separator. -/
theorem linesOf_append_cons [DecidableEq α] (hs : ∀ a ∈ s, p a = false) (ha : p a = true)
    (t : List α) : linesOf p (s ++ a :: t) = s :: linesOf p t := by
  have hne : t.splitOnP p ≠ [] := List.splitOnP_ne_nil p t
  have hsplit := List.splitOnP_append_cons_of_forall_mem hs a ha t
  rw [linesOf, linesOf, hsplit, List.getLast?_cons_of_ne_nil hne]
  split
  · rw [List.dropLast_cons_of_ne_nil hne]
  · rfl

/-- A list is what stands before a separator `c`, and what stands behind. -/
theorem split_first [DecidableEq α] {c : α} (h : c ∈ s) :
    s.takeWhile (· != c) ++ c :: (s.dropWhile (· != c)).drop 1 = s := by
  induction s with
  | nil => cases h
  | cons b s ih =>
    by_cases hb : b = c
    · subst hb
      simp
    · have hne : (b != c) = true := bne_iff_ne.mpr hb
      have htail : c ∈ s := (List.mem_cons.mp h).resolve_left (Ne.symm hb)
      rw [List.takeWhile_cons, List.dropWhile_cons, if_pos hne, if_pos hne, List.cons_append,
        ih htail]

/-- The first line of a list with a separator `c`. -/
theorem linesOf_first [DecidableEq α] {c : α} (h : c ∈ s) (t : List α) :
    linesOf (· == c) (s ++ t) =
      s.takeWhile (· != c) :: linesOf (· == c) ((s.dropWhile (· != c)).drop 1 ++ t) := by
  have hline : ∀ b ∈ s.takeWhile (· != c), (b == c) = false := by
    intro b hb
    simpa using List.mem_takeWhile_imp hb
  have hcons := linesOf_append_cons hline (beq_self_eq_true c) ((s.dropWhile (· != c)).drop 1 ++ t)
  rwa [← List.cons_append, ← List.append_assoc, split_first h] at hcons

theorem drop_takeWhile (p : α → Bool) (s : List α) :
    s.drop (s.takeWhile p).length = s.dropWhile p := by
  calc s.drop (s.takeWhile p).length
      = (s.takeWhile p ++ s.dropWhile p).drop (s.takeWhile p).length := by
        rw [List.takeWhile_append_dropWhile]
    _ = s.dropWhile p := List.drop_left

theorem segmentsOf_nil : segmentsOf p [] = [] := rfl

/-- A separator in front belongs to no segment. -/
theorem segmentsOf_cons (ha : p a = true) (t : List α) : segmentsOf p (a :: t) = segmentsOf p t := by
  rw [segmentsOf, List.splitOnP_cons_eq_if_modifyHead, if_pos ha]
  rfl

theorem segmentsOf_single (hs : s ≠ []) (h : ∀ a ∈ s, p a = false) : segmentsOf p s = [s] := by
  rw [segmentsOf, List.splitOnP_eq_singleton h]
  simp [hs]

/-- A segment in front of a separator. -/
theorem segmentsOf_append_cons (hne : s ≠ []) (hs : ∀ a ∈ s, p a = false) (ha : p a = true)
    (t : List α) : segmentsOf p (s ++ a :: t) = s :: segmentsOf p t := by
  rw [segmentsOf, List.splitOnP_append_cons_of_forall_mem hs a ha t,
    List.filter_cons_of_pos (by simpa using hne), segmentsOf]

theorem segmentsOf_dropWhile (s : List α) : segmentsOf p (s.dropWhile p) = segmentsOf p s := by
  induction s with
  | nil => rfl
  | cons a s ih =>
    by_cases ha : p a = true
    · rw [List.dropWhile_cons_of_pos ha, ih, segmentsOf_cons ha]
    · rw [List.dropWhile_cons_of_neg ha]

/-- The first segment of a list that does not begin with a separator. -/
theorem segmentsOf_word (hs : s ≠ []) (hhead : ∀ a ∈ s.head?, p a = false) :
    s.takeWhile (!p ·) ≠ [] ∧
      segmentsOf p s = s.takeWhile (!p ·) :: segmentsOf p (s.dropWhile (!p ·)) := by
  have hword : ∀ a ∈ s.takeWhile (!p ·), p a = false := by
    intro a ha
    simpa using List.mem_takeWhile_imp ha
  have hne : s.takeWhile (!p ·) ≠ [] := by
    cases s with
    | nil => exact absurd rfl hs
    | cons a s =>
      rw [List.takeWhile_cons_of_pos (by simpa using hhead a rfl)]
      exact List.cons_ne_nil _ _
  refine ⟨hne, ?_⟩
  cases hrest : s.dropWhile (!p ·) with
  | nil =>
    have hall : s.takeWhile (!p ·) = s := by
      conv_rhs => rw [← List.takeWhile_append_dropWhile (p := (!p ·)) (l := s), hrest,
        List.append_nil]
    rw [hall] at hword hne ⊢
    exact segmentsOf_single hne hword
  | cons b t =>
    have hb : p b = true := by
      have := List.head?_dropWhile_not (!p ·) s
      rw [hrest] at this
      simpa using this
    conv_lhs => rw [← List.takeWhile_append_dropWhile (p := (!p ·)) (l := s), hrest]
    rw [segmentsOf_append_cons hne hword hb, segmentsOf_cons hb]

end NmOtool
