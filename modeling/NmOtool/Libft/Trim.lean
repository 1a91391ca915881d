import Mathlib.Data.List.DropRight
import NmOtool.Base.Fill
import NmOtool.Libft.Search

/-!
# libft: trimming a string

`ft_strtrim` and the `ft_strncpy` it copies with, over strings as arrays that are one byte longer than
their text, and a checked block for the result. Indices are of type `size_t`, so that the length
minus one of an empty string is the greatest index there is.
-/

namespace NmOtool

open MachO Checked

/-! ## The code -/

/-- `a - b`, for two values of type `size_t`. -/
def sizeSub (a b : Nat) : Nat := (a + 2 ^ 64 - b) % 2 ^ 64

/-- A space, a tab or a newline. -/
def isBlank (c : UInt8) : Bool := c == 32 || c == 9 || c == 10

/-- The first loop of `ft_strtrim`. -/
def trimStart (s : List UInt8) : Nat → Nat → Checked Nat
  | 0, _ => .fault
  | fuel + 1, i => do
    let c ← charAt s i
    if c ≠ 0 ∧ isBlank c then trimStart s fuel (i + 1) else pure i

/-- The second loop. `s[end]` is read for an `end` that is not below `i`. -/
def trimEnd (s : List UInt8) (i : Nat) : Nat → Nat → Checked Nat
  | 0, _ => .fault
  | fuel + 1, last =>
    if last ≠ 0 ∧ i ≤ last then do
      let c ← charAt s last
      if isBlank c then trimEnd s i fuel (last - 1) else pure last
    else pure last

/-- The first loop of `ft_strncpy`, from `src + i`. -/
def strncpyCopy (s : List UInt8) (src n : Nat) : Nat → Nat → Buffer → Checked (Nat × Buffer)
  | 0, _, _ => .fault
  | fuel + 1, i, dest =>
    if i < n then do
      let c ← charAt s (src + i)
      if c = 0 then pure (i, dest)
      else do
        let dest ← dest.store i c
        strncpyCopy s src n fuel (i + 1) dest
    else pure (i, dest)

/-- The second loop of `ft_strncpy`. -/
def strncpyPad (n : Nat) : Nat → Nat → Buffer → Checked Buffer
  | 0, _, _ => .fault
  | fuel + 1, i, dest =>
    if i < n then do
      let dest ← dest.store i 0
      strncpyPad n fuel (i + 1) dest
    else pure dest

/-- `ft_strncpy(dest, s + src, n)` -/
def ftStrncpy (dest : Buffer) (s : List UInt8) (src n : Nat) : Checked Buffer := do
  let (i, dest) ← strncpyCopy s src n (n + 1) 0 dest
  strncpyPad n (n + 1) i dest

/-- `ft_strtrim`, on what `malloc` gives for a size. -/
def ftStrtrim (malloc : Nat → Buffer) (s : List UInt8) : Checked Buffer := do
  let last := sizeSub s.length 1
  let i ← trimStart s (s.length + 1) 0
  let last ← trimEnd s i (s.length + 1) last
  let n := (sizeSub last i + 1) % 2 ^ 64
  let result := malloc ((sizeSub last i + 2) % 2 ^ 64)
  let result ← ftStrncpy result s i n
  result.store n 0

/-! ## The specification -/

/-- The string without its leading and trailing blanks. -/
def trimmed (s : List UInt8) : List UInt8 := (s.dropWhile isBlank).rdropWhile isBlank

variable {s : List UInt8} {m : Buffer} {fuel i last n src : Nat} {malloc : Nat → Buffer}

theorem sizeSub_of_le {a b : Nat} (h : b ≤ a) (ha : a < 2 ^ 64) : sizeSub a b = a - b := by
  rw [sizeSub, show a + 2 ^ 64 - b = a - b + 2 ^ 64 by omega, Nat.add_mod_right,
    Nat.mod_eq_of_lt (by omega)]

theorem ne_zero_of_isBlank {c : UInt8} (h : isBlank c) : c ≠ 0 := by
  rintro rfl
  exact absurd h (by decide)

/-! ## The two ends -/

/-- The first loop passes the leading blanks, and stops at another byte or at the NUL. -/
theorem trimStart_eq (hi : i ≤ s.length) (hf : s.length < fuel + i) :
    ∃ k ≤ s.length, trimStart s fuel i = .ok k ∧ ¬ isBlank (s.getD k 0) ∧
      s.drop k = (s.drop i).dropWhile isBlank := by
  induction fuel generalizing i with
  | zero => omega
  | succ fuel ih =>
    rw [trimStart, charAt_ok hi, ok_bind]
    rcases Nat.lt_or_eq_of_le hi with hlt | rfl
    · rw [List.drop_eq_getElem_cons hlt, ← List.getD_eq_getElem s 0 hlt]
      by_cases hblank : isBlank (s.getD i 0) = true
      · rw [if_pos ⟨ne_zero_of_isBlank hblank, hblank⟩, List.dropWhile_cons_of_pos hblank]
        exact ih hlt (by omega)
      · rw [if_neg fun h => hblank h.2, List.dropWhile_cons_of_neg hblank]
        refine ⟨i, hi, rfl, hblank, ?_⟩
        rw [List.drop_eq_getElem_cons hlt, ← List.getD_eq_getElem s 0 hlt]
    · have hnul : s.getD s.length 0 = 0 := List.getD_eq_default _ _ (Nat.le_refl _)
      rw [hnul, if_neg fun h => h.1 rfl, List.drop_length]
      refine ⟨s.length, hi, rfl, ?_, List.drop_length⟩
      rw [hnul]
      decide

/-- From an index that does not hold a blank on, the second loop drops the blanks at the end. -/
theorem trimEnd_eq (hstart : ¬ isBlank (s.getD i 0)) (hi : i ≤ last) (hlast : last < s.length)
    (hf : last < fuel + i) :
    ∃ e, trimEnd s i fuel last = .ok e ∧ i ≤ e ∧ e ≤ last ∧
      (s.drop i).take (e + 1 - i) = ((s.drop i).take (last + 1 - i)).rdropWhile isBlank := by
  induction fuel generalizing last with
  | zero => omega
  | succ fuel ih =>
    have hconcat : (s.drop i).take (last + 1 - i) =
        (s.drop i).take (last - i) ++ [s.getD last 0] := by
      have hin : last - i < (s.drop i).length := by rw [List.length_drop]; omega
      rw [Nat.succ_sub hi, List.getD_eq_getElem s 0 hlast, List.take_succ_eq_append_getElem hin,
        List.getElem_drop]
      simp only [Nat.add_sub_cancel' hi]
    unfold trimEnd
    split
    · next hmore =>
      rw [charAt_ok (Nat.le_of_lt hlast), ok_bind]
      split
      · next hblank =>
        have hne : i ≠ last := by
          rintro rfl
          exact hstart hblank
        obtain ⟨e, hrun, hle, hend, htake⟩ := ih (show i ≤ last - 1 by omega) (by omega) (by omega)
        refine ⟨e, hrun, hle, by omega, ?_⟩
        rw [hconcat, List.rdropWhile_concat_pos _ _ _ hblank, htake,
          show last - 1 + 1 - i = last - i by omega]
      · next hblank =>
        refine ⟨last, rfl, hi, Nat.le_refl _, ?_⟩
        rw [hconcat, List.rdropWhile_concat_neg _ _ _ hblank]
    · next hdone =>
      obtain rfl : i = last := by omega
      refine ⟨i, rfl, hi, Nat.le_refl _, ?_⟩
      rw [hconcat, List.rdropWhile_concat_neg _ _ _ hstart]

/-! ## The copy -/

/-- The first loop of `ft_strncpy` copies all `n` bytes, when the string has as many. -/
theorem strncpyCopy_eq (hs : 0 ∉ s) (hn : src + n ≤ s.length) (hm : n ≤ m.size) (hi : i ≤ n)
    (hf : n < fuel + i) :
    strncpyCopy s src n fuel i m = .ok (n, m.write i ((s.drop (src + i)).take (n - i))) := by
  induction fuel generalizing i m with
  | zero => omega
  | succ fuel ih =>
    unfold strncpyCopy
    rcases Nat.lt_or_eq_of_le hi with hlt | rfl
    · have hin : src + i < s.length := by omega
      rw [if_pos hlt, charAt_ok (Nat.le_of_lt hin), ok_bind, if_neg (getD_ne_zero hs hin),
        Buffer.store_write (by omega), ok_bind, ih (by simpa using hm) hlt (by omega),
        Buffer.write_cons, List.drop_eq_getElem_cons hin, ← List.getD_eq_getElem s 0 hin,
        show n - i = n - (i + 1) + 1 by omega, List.take_succ_cons]
      rfl
    · rw [if_neg (Nat.lt_irrefl _), Nat.sub_self, List.take_zero, Buffer.write_nil, pure_eq]

theorem ftStrncpy_eq (hs : 0 ∉ s) (hn : src + n ≤ s.length) (hm : n ≤ m.size) :
    ftStrncpy m s src n = .ok (m.write 0 ((s.drop src).take n)) := by
  rw [ftStrncpy, strncpyCopy_eq hs hn hm (Nat.zero_le _) (by omega), ok_bind]
  simp only
  rw [strncpyPad, if_neg (Nat.lt_irrefl _), Nat.add_zero, Nat.sub_zero, pure_eq]

/-- The string of the `n` bytes at `src`, in a block of `n + 1` bytes. -/
theorem copy_eq (hs : 0 ∉ s) (hn : src + n ≤ s.length) (hm : m.size = n + 1) :
    ((ftStrncpy m s src n) >>= fun result => result.store n 0) =
      .ok (m.write 0 ((s.drop src).take n ++ [0])) := by
  have hlen : ((s.drop src).take n).length = n := by
    rw [List.length_take, List.length_drop]
    omega
  rw [ftStrncpy_eq hs hn (by omega), ok_bind,
    Buffer.store_write (by rw [Buffer.size_write, hm]; exact Nat.lt_succ_self n),
    Buffer.write_write (by rw [hlen, Nat.zero_add])]

/-! ## The whole function -/

theorem trimEnd_none (h : ¬ i ≤ last) : trimEnd s i (fuel + 1) last = .ok last :=
  if_neg fun hmore => h hmore.2

/-- A string of one byte or more is trimmed, the NUL behind it included. -/
theorem ftStrtrim_eq (hm : ∀ n, (malloc n).size = n) (hs : 0 ∉ s) (hlen : s.length + 1 < 2 ^ 64)
    (hne : s ≠ []) :
    ftStrtrim malloc s = .ok ((malloc ((trimmed s).length + 1)).write 0 (trimmed s ++ [0])) := by
  have hpos := List.length_pos_iff.mpr hne
  obtain ⟨i, hi, hstart, hstop, hdrop⟩ :=
    trimStart_eq (Nat.zero_le s.length) (show s.length < s.length + 1 + 0 from Nat.lt_succ_self _)
  rw [List.drop_zero] at hdrop
  rw [ftStrtrim, sizeSub_of_le hpos (by omega), hstart, ok_bind]
  rcases Nat.lt_or_eq_of_le hi with hlt | rfl
  · obtain ⟨e, hend, hie, hle, htake⟩ :=
      trimEnd_eq hstop (show i ≤ s.length - 1 by omega) (by omega)
        (show s.length - 1 < s.length + 1 + i by omega)
    have hn : (sizeSub e i + 1) % 2 ^ 64 = e + 1 - i := by
      rw [sizeSub_of_le hie (by omega), Nat.mod_eq_of_lt (by omega)]
      omega
    have hn' : (sizeSub e i + 2) % 2 ^ 64 = e + 1 - i + 1 := by
      rw [sizeSub_of_le hie (by omega), Nat.mod_eq_of_lt (by omega)]
      omega
    have htrimmed : (s.drop i).take (e + 1 - i) = trimmed s := by
      rw [htake, List.take_of_length_le (by rw [List.length_drop]; omega), hdrop, trimmed]
    have hlength : e + 1 - i = (trimmed s).length := by
      rw [← htrimmed, List.length_take, List.length_drop]
      omega
    rw [hend, ok_bind, hn, hn', copy_eq hs (by omega) (hm _), htrimmed, hlength]
  · -- Only blanks: `end - i` wraps to the greatest `size_t`, and `end - i + 1` to zero.
    have hnil : trimmed s = [] := by
      rw [trimmed, ← hdrop, List.drop_length, List.rdropWhile_nil]
    have hwrap : sizeSub (s.length - 1) s.length = 2 ^ 64 - 1 := by
      rw [sizeSub, show s.length - 1 + 2 ^ 64 - s.length = 2 ^ 64 - 1 by omega]
      rfl
    have hcopy := copy_eq (n := 0) hs (Nat.le_refl s.length) (hm 1)
    rw [trimEnd_none (by omega), ok_bind, hwrap, hnil]
    rwa [List.take_zero] at hcopy

theorem ftStrtrim_nil (malloc : Nat → Buffer) : ftStrtrim malloc [] = .fault := rfl

theorem not_mem_trimmed (hs : 0 ∉ s) : 0 ∉ trimmed s := by
  intro h
  have hdrop := (List.rdropWhile_prefix isBlank _).subset h
  exact hs ((List.dropWhile_suffix isBlank).subset hdrop)

/-- `ft_strtrim` returns the string without its leading and trailing blanks, with every byte it reads
or writes in its array, if and only if the string is not empty: then `s[end]` is the byte in front of
the array. -/
theorem ftStrtrim_trimmed_iff (malloc : Nat → Buffer) (hm : ∀ n, (malloc n).size = n)
    (s : List UInt8) (hs : 0 ∉ s) (hlen : s.length + 1 < 2 ^ 64) :
    (∃ result, ftStrtrim malloc s = .ok result ∧ result.Terminated 0 ∧ result.cstr 0 = trimmed s) ↔
      s ≠ [] := by
  constructor
  · rintro ⟨result, hrun, -⟩ rfl
    rw [ftStrtrim_nil] at hrun
    cases hrun
  · intro hne
    refine ⟨_, ftStrtrim_eq hm hs hlen hne, ⟨(trimmed s).length, Nat.zero_le _, ?_, ?_⟩, ?_⟩
    · rw [Buffer.size_write, hm]
      exact Nat.lt_succ_self _
    · have hnul := Buffer.byte_write_in (m := malloc ((trimmed s).length + 1)) (p := 0)
        (s := trimmed s ++ [0]) (k := (trimmed s).length) (by simp)
      rwa [Nat.zero_add, List.getElem_concat_length rfl] at hnul
    · apply Buffer.cstr_write
      · exact fun b hb h0 => not_mem_trimmed hs (h0 ▸ hb)
      · rw [hm, Nat.zero_add]
        exact Nat.lt_succ_self _

/-- `ft_strtrim(" \ta b\n ")` is `"a b"`. -/
theorem ftStrtrim_trimmed_iff_words :
    ∃ result, ftStrtrim (fun n => .ofBytes n []) [32, 9, 97, 32, 98, 10, 32] = .ok result ∧
      result.Terminated 0 ∧ result.cstr 0 = [97, 32, 98] :=
  (ftStrtrim_trimmed_iff (fun n => .ofBytes n []) (fun _ => rfl) [32, 9, 97, 32, 98, 10, 32]
    (by decide) (by decide)).mpr (by decide)

/-- The empty string: `s[end]` is read at the greatest index there is. -/
theorem ftStrtrim_empty :
    ¬ ∃ result, ftStrtrim (fun n => .ofBytes n []) [] = .ok result ∧
      result.cstr 0 = trimmed [] := by
  rintro ⟨result, hrun, -⟩
  rw [ftStrtrim_nil] at hrun
  cases hrun

end NmOtool
