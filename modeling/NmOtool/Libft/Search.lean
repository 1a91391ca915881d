import Mathlib.Data.List.GetD
import NmOtool.Base.Checked
import NmOtool.MachO.Layout

/-!
# libft: searching a string in a string

`ft_strnstr` and `ft_strstr` over strings as arrays, one byte longer than their text: a read behind
the NUL is a fault. Both return the first index with a property, and the properties are compared. The
bound of `ft_strnstr` is tested once with `<` and once with `<=`.
-/

namespace NmOtool

open MachO Checked

/-! ## The first index with a property -/

/-- The least index with the property, or `none` if there is no index with it. -/
def IsFirst (P : Nat → Prop) : Option Nat → Prop
  | some i => P i ∧ ∀ k < i, ¬ P k
  | none => ∀ k, ¬ P k

theorem IsFirst.unique {P : Nat → Prop} {r r' : Option Nat} (h : IsFirst P r) (h' : IsFirst P r') :
    r = r' := by
  cases r with
  | none =>
    cases r' with
    | none => rfl
    | some j => exact absurd h'.1 (h j)
  | some i =>
    cases r' with
    | none => exact absurd h.1 (h' i)
    | some j =>
      have hij : ¬ i < j := fun hlt => h'.2 i hlt h.1
      have hji : ¬ j < i := fun hlt => h.2 j hlt h'.1
      exact congrArg some (Nat.le_antisymm (Nat.not_lt.mp hji) (Nat.not_lt.mp hij))

theorem IsFirst.congr {P Q : Nat → Prop} {r : Option Nat} (h : IsFirst P r) (hPQ : ∀ i, P i ↔ Q i) :
    IsFirst Q r := by
  rwa [← funext fun i => propext (hPQ i)]

/-! ## The code -/

/-- `s[k]`, for a string of `s.length` bytes and the NUL. -/
def charAt (s : List UInt8) (k : Nat) : Checked UInt8 :=
  if k ≤ s.length then .ok (s.getD k 0) else .fault

/-- The inner loop of `ft_strnstr` from `j`: whether it returns. -/
def strnstrMatch (big little : List UInt8) (len i : Nat) : Nat → Nat → Checked Bool
  | 0, _ => .fault
  | fuel + 1, j => do
    let b ← charAt big (i + j)
    if b = 0 then pure false
    else do
      let l ← charAt little j
      if b = l ∧ i + j ≤ len then do
        let next ← charAt little (j + 1)
        if next = 0 then pure true else strnstrMatch big little len i fuel (j + 1)
      else pure false

/-- The outer loop of `ft_strnstr` from `i`. -/
def ftStrnstrFrom (big little : List UInt8) (len : Nat) : Nat → Nat → Checked (Option Nat)
  | 0, _ => .fault
  | fuel + 1, i =>
    if i < len then do
      let b ← charAt big i
      if b = 0 then pure none
      else do
        let found ← strnstrMatch big little len i (big.length + 1) 0
        if found then pure (some i) else ftStrnstrFrom big little len fuel (i + 1)
    else pure none

/-- `ft_strnstr`, for the index of what it returns. -/
def ftStrnstr (big little : List UInt8) (len : Nat) : Checked (Option Nat) := do
  let l ← charAt little 0
  if l = 0 then pure (some 0) else ftStrnstrFrom big little len (big.length + 1) 0

/-- The first inner loop of `ft_strstr`. -/
def strstrSkip (haystack needle : List UInt8) : Nat → Nat → Checked Nat
  | 0, _ => .fault
  | fuel + 1, h => do
    let b ← charAt haystack h
    let n ← charAt needle 0
    if b ≠ 0 ∧ n ≠ 0 ∧ b ≠ n then strstrSkip haystack needle fuel (h + 1) else pure h

/-- The second inner loop of `ft_strstr`, for the index that `cp_needle` stops at. -/
def strstrMatch (haystack needle : List UInt8) : Nat → Nat → Nat → Checked Nat
  | 0, _, _ => .fault
  | fuel + 1, cpHaystack, cpNeedle => do
    let b ← charAt haystack cpHaystack
    let n ← charAt needle cpNeedle
    if b ≠ 0 ∧ n ≠ 0 ∧ b = n then strstrMatch haystack needle fuel (cpHaystack + 1) (cpNeedle + 1)
    else pure cpNeedle

/-- The outer loop of `ft_strstr` from `haystack + h`. -/
def ftStrstrFrom (haystack needle : List UInt8) : Nat → Nat → Checked (Option Nat)
  | 0, _ => .fault
  | fuel + 1, h => do
    let b ← charAt haystack h
    if b = 0 then pure none
    else do
      let h ← strstrSkip haystack needle (haystack.length + 1) h
      let b ← charAt haystack h
      if b = 0 then pure none
      else do
        let cpNeedle ← strstrMatch haystack needle (haystack.length + 1) h 0
        let n ← charAt needle cpNeedle
        if n = 0 then pure (some h) else ftStrstrFrom haystack needle fuel (h + 1)

/-- `ft_strstr`, for the index of what it returns. -/
def ftStrstr (haystack needle : List UInt8) : Checked (Option Nat) := do
  let n ← charAt needle 0
  if n = 0 then pure (some 0) else ftStrstrFrom haystack needle (haystack.length + 1) 0

/-! ## The specification -/

/-- `little` lies in `big` at `i`. -/
def OccursAt (big little : List UInt8) (i : Nat) : Prop := little <+: big.drop i

instance (big little : List UInt8) (i : Nat) : Decidable (OccursAt big little i) :=
  inferInstanceAs (Decidable (_ <+: _))

variable {s big little : List UInt8} {len fuel i j k : Nat}

/-! ## Bytes of a string -/

theorem charAt_ok (h : k ≤ s.length) : charAt s k = .ok (s.getD k 0) := if_pos h

theorem getD_ne_zero (hs : 0 ∉ s) (h : k < s.length) : s.getD k 0 ≠ 0 := by
  rw [List.getD_eq_getElem s 0 h]
  exact fun h0 => hs (h0 ▸ List.getElem_mem h)

/-- The NUL is behind the last byte, and nowhere else. -/
theorem getD_eq_zero_iff (hs : 0 ∉ s) (h : k ≤ s.length) : s.getD k 0 = 0 ↔ k = s.length := by
  constructor
  · intro h0
    by_contra hne
    exact getD_ne_zero hs (by omega) h0
  · rintro rfl
    exact List.getD_eq_default _ _ (Nat.le_refl _)

/-- What is left of the needle lies in what is left of the string, byte by byte. -/
theorem prefix_step (hi : i < big.length) (hj : j < little.length) :
    little.drop j <+: big.drop i ↔
      big.getD i 0 = little.getD j 0 ∧ little.drop (j + 1) <+: big.drop (i + 1) := by
  rw [List.drop_eq_getElem_cons hj, List.drop_eq_getElem_cons hi, List.cons_prefix_cons,
    List.getD_eq_getElem big 0 hi, List.getD_eq_getElem little 0 hj, eq_comm]

theorem not_prefix_nil (hi : big.length ≤ i) (hj : j < little.length) :
    ¬ little.drop j <+: big.drop i := by
  rw [List.drop_of_length_le hi, List.prefix_nil, List.drop_eq_nil_iff]
  omega

theorem OccursAt.le (h : OccursAt big little i) (hne : little ≠ []) :
    i + little.length ≤ big.length := by
  have hlen := h.length_le
  have hpos := List.length_pos_iff.mpr hne
  rw [List.length_drop] at hlen
  omega

/-! ## `ft_strnstr` -/

/-- The inner loop finds the needle at `i`, if its last byte is at `len` at most. -/
theorem strnstrMatch_eq (hb : 0 ∉ big) (hl : 0 ∉ little) (hj : j < little.length)
    (hi : i + j ≤ big.length) (hf : big.length < fuel + (i + j)) :
    strnstrMatch big little len i fuel j =
      .ok (decide (little.drop j <+: big.drop (i + j) ∧ i + little.length ≤ len + 1)) := by
  induction fuel generalizing j with
  | zero => omega
  | succ fuel ih =>
    rw [strnstrMatch, charAt_ok hi, ok_bind, charAt_ok (Nat.le_of_lt hj), ok_bind,
      charAt_ok hj, ok_bind]
    rcases Nat.lt_or_eq_of_le hi with hlt | hend
    · have hiff := prefix_step hlt hj
      rw [if_neg (getD_ne_zero hb hlt)]
      simp only [hiff]
      by_cases hmatch : big.getD (i + j) 0 = little.getD j 0 ∧ i + j ≤ len
      · rw [if_pos hmatch]
        rcases Nat.lt_or_eq_of_le (Nat.succ_le_of_lt hj) with hmore | hlast
        · rw [if_neg (getD_ne_zero hl hmore), ih hmore (by omega) (by omega), Nat.succ_eq_add_one,
            ← Nat.add_assoc]
          simp only [hmatch.1, true_and]
        · have hnil : little.drop (j + 1) = [] := List.drop_of_length_le (Nat.le_of_eq hlast.symm)
          rw [if_pos ((getD_eq_zero_iff hl hj).mpr hlast), hnil]
          have hle : i + little.length ≤ len + 1 := by omega
          rw [pure_eq, decide_eq_true ⟨⟨hmatch.1, List.nil_prefix⟩, hle⟩]
      · rw [if_neg hmatch, pure_eq]
        congr 1
        symm
        rw [decide_eq_false_iff_not]
        rintro ⟨⟨heq, -⟩, hle⟩
        exact hmatch ⟨heq, by omega⟩
    · have hnot := not_prefix_nil (i := i + j) (Nat.le_of_eq hend.symm) hj
      rw [if_pos ((getD_eq_zero_iff hb hi).mpr hend), pure_eq]
      congr 1
      symm
      rw [decide_eq_false_iff_not]
      exact fun h => hnot h.1

/-- The index that `ft_strnstr` looks for: the needle may end one byte behind the bound. -/
def StrnstrAt (big little : List UInt8) (len i : Nat) : Prop :=
  i < len ∧ OccursAt big little i ∧ i + little.length ≤ len + 1

theorem ftStrnstrFrom_eq (hb : 0 ∉ big) (hl : 0 ∉ little) (hne : little ≠ []) (hi : i ≤ big.length)
    (hf : big.length < fuel + i) (hbefore : ∀ k < i, ¬ StrnstrAt big little len k) :
    ∃ r, ftStrnstrFrom big little len fuel i = .ok r ∧ IsFirst (StrnstrAt big little len) r := by
  induction fuel generalizing i with
  | zero => omega
  | succ fuel ih =>
    have hpos := List.length_pos_iff.mpr hne
    unfold ftStrnstrFrom
    split
    · next hlen =>
      rw [charAt_ok hi, ok_bind]
      rcases Nat.lt_or_eq_of_le hi with hlt | hend
      · rw [if_neg (getD_ne_zero hb hlt), strnstrMatch_eq hb hl hpos (by omega) (by omega), ok_bind,
          List.drop_zero, Nat.add_zero]
        split
        · next hfound =>
          rw [decide_eq_true_eq] at hfound
          exact ⟨some i, rfl, ⟨hlen, hfound⟩, hbefore⟩
        · next hfound =>
          rw [decide_eq_true_eq] at hfound
          apply ih hlt (by omega)
          intro k hk
          rcases Nat.lt_or_eq_of_le (Nat.le_of_lt_succ hk) with hk | rfl
          · exact hbefore k hk
          · exact fun h => hfound h.2
      · rw [if_pos ((getD_eq_zero_iff hb hi).mpr hend)]
        refine ⟨none, rfl, fun k hk => ?_⟩
        have hle := hk.2.1.le hne
        exact hbefore k (by omega) hk
    · next hlen => exact ⟨none, rfl, fun k hk => hbefore k (by have := hk.1; omega) hk⟩

theorem ftStrnstr_eq (hb : 0 ∉ big) (hl : 0 ∉ little) (hne : little ≠ []) (len : Nat) :
    ∃ r, ftStrnstr big little len = .ok r ∧ IsFirst (StrnstrAt big little len) r := by
  have hpos := List.length_pos_iff.mpr hne
  rw [ftStrnstr, charAt_ok (Nat.zero_le _), ok_bind, if_neg (getD_ne_zero hl hpos)]
  exact ftStrnstrFrom_eq hb hl hne (Nat.zero_le _) (by omega) fun k hk =>
    absurd hk (Nat.not_lt_zero k)

theorem ftStrnstr_nil (big : List UInt8) (len : Nat) : ftStrnstr big [] len = .ok (some 0) := rfl

/-! ## `ft_strstr` -/

/-- The skip passes indices at which the first byte of the needle is not. -/
theorem strstrSkip_eq {haystack needle : List UInt8} (hb : 0 ∉ haystack) (hi : i ≤ haystack.length)
    (hn : 0 < needle.length) (hf : haystack.length < fuel + i) :
    ∃ h, strstrSkip haystack needle fuel i = .ok h ∧ i ≤ h ∧ h ≤ haystack.length ∧
      (∀ k, i ≤ k → k < h → ¬ OccursAt haystack needle k) := by
  induction fuel generalizing i with
  | zero => omega
  | succ fuel ih =>
    rw [strstrSkip, charAt_ok hi, ok_bind, charAt_ok (Nat.zero_le _), ok_bind]
    split
    · next hskip =>
      have hlt : i < haystack.length := by
        by_contra hge
        exact hskip.1 ((getD_eq_zero_iff hb hi).mpr (by omega))
      obtain ⟨h, hrun, hle, hend, hnone⟩ := ih hlt (by omega)
      refine ⟨h, hrun, Nat.le_of_succ_le hle, hend, fun k hk hkh => ?_⟩
      rcases Nat.lt_or_eq_of_le hk with hk | rfl
      · exact hnone k hk hkh
      · intro hocc
        have hprefix := (prefix_step (j := 0) hlt hn).mp (by rwa [List.drop_zero])
        exact hskip.2.2 hprefix.1
    · exact ⟨i, rfl, Nat.le_refl i, hi, fun k hk hkh => absurd hkh (by omega)⟩

/-- The second inner loop stops at the end of the needle, or at a byte that differs. -/
theorem strstrMatch_eq (hb : 0 ∉ big) (hl : 0 ∉ little) (hi : i ≤ big.length)
    (hj : j ≤ little.length) (hf : big.length < fuel + i) :
    ∃ n ≤ little.length, strstrMatch big little fuel i j = .ok n ∧
      (n = little.length ↔ little.drop j <+: big.drop i) := by
  induction fuel generalizing i j with
  | zero => omega
  | succ fuel ih =>
    rw [strstrMatch, charAt_ok hi, ok_bind, charAt_ok hj, ok_bind]
    split
    · next hmatch =>
      have hlt : i < big.length := by
        by_contra hge
        exact hmatch.1 ((getD_eq_zero_iff hb hi).mpr (by omega))
      have hmore : j < little.length := by
        by_contra hge
        exact hmatch.2.1 ((getD_eq_zero_iff hl hj).mpr (by omega))
      obtain ⟨n, hn, hrun, hiff⟩ := ih hlt hmore (by omega)
      refine ⟨n, hn, hrun, hiff.trans ?_⟩
      rw [prefix_step hlt hmore]
      exact ⟨fun h => ⟨hmatch.2.2, h⟩, fun h => h.2⟩
    · next hstop =>
      refine ⟨j, hj, rfl, ?_⟩
      rcases Nat.lt_or_eq_of_le hj with hmore | rfl
      · apply iff_of_false (Nat.ne_of_lt hmore)
        rcases Nat.lt_or_eq_of_le hi with hlt | hend
        · intro h
          exact hstop ⟨getD_ne_zero hb hlt, getD_ne_zero hl hmore, ((prefix_step hlt hmore).mp h).1⟩
        · exact not_prefix_nil (Nat.le_of_eq hend.symm) hmore
      · apply iff_of_true rfl
        rw [List.drop_length]
        exact List.nil_prefix

theorem ftStrstrFrom_eq (hb : 0 ∉ big) (hl : 0 ∉ little) (hne : little ≠ []) (hi : i ≤ big.length)
    (hf : big.length < fuel + i) (hbefore : ∀ k < i, ¬ OccursAt big little k) :
    ∃ r, ftStrstrFrom big little fuel i = .ok r ∧ IsFirst (OccursAt big little) r := by
  have hpos := List.length_pos_iff.mpr hne
  -- Nothing is found when no index up to the end of the string is left.
  have hover : (∀ k < big.length, ¬ OccursAt big little k) → IsFirst (OccursAt big little) none := by
    intro hnone k hk
    have hle := hk.le hne
    exact hnone k (by omega) hk
  induction fuel generalizing i with
  | zero => omega
  | succ fuel ih =>
    rw [ftStrstrFrom, charAt_ok hi, ok_bind]
    rcases Nat.lt_or_eq_of_le hi with hlt | rfl
    · obtain ⟨h, hskip, hle, hend, hnone⟩ :=
        strstrSkip_eq hb hi hpos (show big.length < big.length + 1 + i by omega)
      have hbefore' : ∀ k < h, ¬ OccursAt big little k := by
        intro k hk
        rcases Nat.lt_or_ge k i with hki | hki
        · exact hbefore k hki
        · exact hnone k hki hk
      rw [if_neg (getD_ne_zero hb hlt), hskip, ok_bind, charAt_ok hend, ok_bind]
      rcases Nat.lt_or_eq_of_le hend with hlt' | rfl
      · obtain ⟨n, hn, hmatch, hiff⟩ :=
          strstrMatch_eq hb hl hend (Nat.zero_le little.length)
            (show big.length < big.length + 1 + h by omega)
        rw [if_neg (getD_ne_zero hb hlt'), hmatch, ok_bind, charAt_ok hn, ok_bind]
        split
        · next hzero =>
          have hocc := hiff.mp ((getD_eq_zero_iff hl hn).mp hzero)
          exact ⟨some h, rfl, hocc, hbefore'⟩
        · next hnonzero =>
          apply ih hlt' (by omega)
          intro k hk
          rcases Nat.lt_or_eq_of_le (Nat.le_of_lt_succ hk) with hk | rfl
          · exact hbefore' k hk
          · exact fun hocc => hnonzero ((getD_eq_zero_iff hl hn).mpr (hiff.mpr hocc))
      · rw [if_pos ((getD_eq_zero_iff hb hend).mpr rfl)]
        exact ⟨none, rfl, hover hbefore'⟩
    · rw [if_pos ((getD_eq_zero_iff hb hi).mpr rfl)]
      exact ⟨none, rfl, hover hbefore⟩

theorem ftStrstr_eq (hb : 0 ∉ big) (hl : 0 ∉ little) (hne : little ≠ []) :
    ∃ r, ftStrstr big little = .ok r ∧ IsFirst (OccursAt big little) r := by
  have hpos := List.length_pos_iff.mpr hne
  rw [ftStrstr, charAt_ok (Nat.zero_le _), ok_bind, if_neg (getD_ne_zero hl hpos)]
  exact ftStrstrFrom_eq hb hl hne (Nat.zero_le _) (by omega) fun k hk =>
    absurd hk (Nat.not_lt_zero k)

theorem ftStrstr_nil (haystack : List UInt8) : ftStrstr haystack [] = .ok (some 0) := rfl

/-! ## The bound -/

/-- `little` lies at `i` within the first `min len big.length` bytes of `big`. -/
def BoundedAt (big little : List UInt8) (len i : Nat) : Prop :=
  i + little.length ≤ min len big.length ∧ OccursAt big little i

instance (big little : List UInt8) (len i : Nat) : Decidable (BoundedAt big little len i) :=
  inferInstanceAs (Decidable (_ ∧ _))

theorem BoundedAt.strnstrAt (h : BoundedAt big little len i) (hne : little ≠ []) :
    StrnstrAt big little len i := by
  have hpos := List.length_pos_iff.mpr hne
  have hle := h.1
  exact ⟨by omega, h.2, by omega⟩

/-- An occurrence that `ft_strnstr` takes lies within the bound, or it ends one byte behind it. -/
theorem StrnstrAt.bounded_or (h : StrnstrAt big little len i) (hne : little ≠ []) :
    BoundedAt big little len i ∨ 2 ≤ little.length ∧ i + little.length = len + 1 := by
  obtain ⟨hi, hocc, hlen⟩ := h
  have hbig := hocc.le hne
  rcases Nat.lt_or_eq_of_le hlen with hin | hover
  · exact .inl ⟨by omega, hocc⟩
  · exact .inr ⟨by omega, hover⟩

/-- Indices before one that `ft_strnstr` takes are not refused for the bound. -/
theorem StrnstrAt.mono (h : StrnstrAt big little len i) (hk : k ≤ i) (hocc : OccursAt big little k) :
    StrnstrAt big little len k := by
  obtain ⟨hi, -, hlen⟩ := h
  exact ⟨by omega, hocc, by omega⟩

/-- What `ft_strnstr` finds is right for the bound, unless the first occurrence of all straddles the
bound by one byte. -/
theorem strnstrAt_bounded_iff {r : Option Nat} (hr : IsFirst (StrnstrAt big little len) r)
    (hne : little ≠ []) :
    IsFirst (BoundedAt big little len) r ↔
      ∀ i, IsFirst (OccursAt big little) (some i) → 2 ≤ little.length →
        i + little.length ≠ len + 1 := by
  constructor
  · intro hbounded i hfirst htwo hover
    have hat : IsFirst (StrnstrAt big little len) (some i) :=
      ⟨⟨by omega, hfirst.1, by omega⟩, fun k hk h => hfirst.2 k hk h.2.1⟩
    obtain rfl := hr.unique hat
    have hin := hbounded.1.1
    omega
  · intro hcond
    cases r with
    | none => exact fun k hk => hr k (hk.strnstrAt hne)
    | some i =>
      refine ⟨?_, fun k hk h => hr.2 k hk (h.strnstrAt hne)⟩
      rcases hr.1.bounded_or hne with hin | ⟨htwo, hover⟩
      · exact hin
      · have hfirst : IsFirst (OccursAt big little) (some i) :=
          ⟨hr.1.2.1, fun k hk h => hr.2 k hk (hr.1.mono (Nat.le_of_lt hk) h)⟩
        exact absurd hover (hcond i hfirst htwo)

/-- With a bound that takes in the whole string the two searches are for the same index. -/
theorem strnstrAt_iff_occursAt (hne : little ≠ []) (hlen : big.length ≤ len) (i : Nat) :
    StrnstrAt big little len i ↔ OccursAt big little i := by
  constructor
  · exact fun h => h.2.1
  · intro hocc
    have hle := hocc.le hne
    have hpos := List.length_pos_iff.mpr hne
    exact ⟨by omega, hocc, by omega⟩

theorem ftStrnstr_eq_ftStrstr (hb : 0 ∉ big) (hl : 0 ∉ little) (hlen : big.length ≤ len) :
    ftStrnstr big little len = ftStrstr big little := by
  by_cases hne : little = []
  · rw [hne, ftStrnstr_nil, ftStrstr_nil]
  · obtain ⟨r, hrun, hfirst⟩ := ftStrnstr_eq hb hl hne len
    obtain ⟨r', hrun', hfirst'⟩ := ftStrstr_eq hb hl hne
    rw [hrun, hrun', (hfirst.congr (strnstrAt_iff_occursAt hne hlen)).unique hfirst']

/-- `ft_strnstr` returns the first occurrence within the bound, and agrees with `ft_strstr` when the
bound takes in the whole string, if and only if the first occurrence of all, of two bytes or more,
does not end exactly one byte behind the bound. -/
theorem ftStrnstr_bounded_iff (big little : List UInt8) (len : Nat) (hb : 0 ∉ big) (hl : 0 ∉ little) :
    (∃ r, ftStrnstr big little len = .ok r ∧ IsFirst (BoundedAt big little len) r ∧
        (little = [] → r = some 0) ∧
        (big.length ≤ len → ftStrstr big little = .ok r)) ↔
      ∀ i, IsFirst (OccursAt big little) (some i) → 2 ≤ little.length →
        i + little.length ≠ len + 1 := by
  by_cases hne : little = []
  · subst hne
    apply iff_of_true
    · refine ⟨some 0, ftStrnstr_nil big len, ⟨⟨Nat.zero_le _, List.nil_prefix⟩, ?_⟩, fun _ => rfl,
        fun _ => ftStrstr_nil big⟩
      exact fun k hk => absurd hk (Nat.not_lt_zero k)
    · exact fun i _ htwo => absurd htwo (by decide)
  · obtain ⟨r, hrun, hfirst⟩ := ftStrnstr_eq hb hl hne len
    rw [← strnstrAt_bounded_iff hfirst hne]
    constructor
    · rintro ⟨r', hrun', hbounded, -, -⟩
      rw [hrun] at hrun'
      cases hrun'
      exact hbounded
    · intro hbounded
      refine ⟨r, hrun, hbounded, fun h => absurd h hne, fun hlen => ?_⟩
      rw [← ftStrnstr_eq_ftStrstr hb hl hlen, hrun]

/-- `ft_strnstr("xabc", "abc", 4)`. -/
theorem ftStrnstr_bounded_iff_abc :
    (∃ r, ftStrnstr [120, 97, 98, 99] [97, 98, 99] 4 = .ok r ∧
        IsFirst (BoundedAt [120, 97, 98, 99] [97, 98, 99] 4) r ∧
        (([97, 98, 99] : List UInt8) = [] → r = some 0) ∧
        ([120, 97, 98, 99].length ≤ 4 → ftStrstr [120, 97, 98, 99] [97, 98, 99] = .ok r)) ↔
      ∀ i, IsFirst (OccursAt [120, 97, 98, 99] [97, 98, 99]) (some i) →
        2 ≤ [97, 98, 99].length → i + [97, 98, 99].length ≠ 4 + 1 :=
  ftStrnstr_bounded_iff [120, 97, 98, 99] [97, 98, 99] 4 (by decide) (by decide)

/-- `ft_strnstr("ab", "ab", 1)` returns `big`, though no `"ab"` lies within one byte. -/
theorem ftStrnstr_straddles :
    ftStrnstr [97, 98] [97, 98] 1 = .ok (some 0) ∧
      ¬ IsFirst (BoundedAt [97, 98] [97, 98] 1) (some 0) := by
  refine ⟨by decide, fun h => ?_⟩
  have hin : 0 + 2 ≤ min 1 2 := h.1.1
  omega

end NmOtool
