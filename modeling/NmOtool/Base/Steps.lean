import Mathlib.Tactic.Common

/-!
# Runs of a loop, round by round

`StepsN step n s t`: `t` is reached from `s` in `n` rounds of `step`, which is `none` where the
loop ends. What a round preserves holds after every run, and a loop all of whose runs are bounded
ends.
-/

namespace NmOtool

variable {σ : Type*} {step : σ → Option σ} {s t u : σ} {n : Nat}

inductive StepsN (step : σ → Option σ) : Nat → σ → σ → Prop where
  | refl (s : σ) : StepsN step 0 s s
  | snoc {n : Nat} {s t u : σ} : StepsN step n s t → step t = some u → StepsN step (n + 1) s u

/-- What holds before the first round and is kept by each holds after every run. -/
theorem StepsN.invariant {I : Nat → σ → Prop} (h : StepsN step n s t) (h0 : I 0 s)
    (hs : ∀ n t u, I n t → step t = some u → I (n + 1) u) : I n t := by
  induction h with
  | refl s => exact h0
  | snoc _ hu ih => exact hs _ _ _ (ih h0) hu

/-- There is a run of `n` rounds, or the loop ends before. -/
theorem StepsN.run_or_final (step : σ → Option σ) (s : σ) (n : Nat) :
    (∃ t, StepsN step n s t) ∨ ∃ k t, k < n ∧ StepsN step k s t ∧ step t = none := by
  induction n with
  | zero => exact .inl ⟨s, .refl s⟩
  | succ n ih =>
    obtain ⟨t, ht⟩ | ⟨k, t, hk, ht, he⟩ := ih
    · cases hu : step t with
      | none => exact .inr ⟨n, t, Nat.lt_succ_self n, ht, hu⟩
      | some u => exact .inl ⟨u, ht.snoc hu⟩
    · exact .inr ⟨k, t, Nat.lt_succ_of_lt hk, ht, he⟩

/-- A loop whose runs are no longer than `b` rounds ends. -/
theorem StepsN.exists_final {b : Nat} (h : ∀ n t, StepsN step n s t → n ≤ b) :
    ∃ n t, StepsN step n s t ∧ step t = none := by
  obtain ⟨t, ht⟩ | ⟨k, t, -, ht, he⟩ := StepsN.run_or_final step s (b + 1)
  · exact absurd (h _ _ ht) (Nat.not_succ_le_self b)
  · exact ⟨k, t, ht, he⟩

end NmOtool
