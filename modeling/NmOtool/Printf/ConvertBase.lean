import NmOtool.Base.Fill
import NmOtool.Common.Swap
import NmOtool.Printf.Numeral

/-!
# ft_printf: conversion between bases

`ft_convert_base` as it works on its block: the digits go in last digit first, the text is reversed
between two indices, and the start moves over zeros. The block is checked, so that a fault is a byte
outside of what was allocated. The size that is requested fits the base ten: where the value has no
more digits in the other base, the text is its canonical numeral, and goes back and forth between two
alphabets.
-/

namespace NmOtool

open MachO Checked

/-! ## Canonical numerals -/

/-- The value of a numeral. -/
def numeralValue (base nbr : List UInt8) : Nat :=
  nbr.foldl (fun n c => n * base.length + base.idxOf c) 0

/-- Digits of the base, with no leading zero but in the numeral zero itself. -/
structure Canonical (base nbr : List UInt8) : Prop where
  ne_nil : nbr ≠ []
  mem : ∀ c ∈ nbr, c ∈ base
  zero : nbr.getD 0 0 = base.getD 0 0 → nbr.length = 1

/-! ## The code -/

/-- The loop of `nb_dg_inbase`, for what it adds to `i`. -/
def nbDgInbaseFrom (baseTo : Nat) : Nat → Nat → Nat
  | 0, _ => 0
  | fuel + 1, n => if baseTo - 1 < n then 1 + nbDgInbaseFrom baseTo fuel (n / baseTo) else 0

def nbDgInbase (n baseTo : Nat) : Nat := 1 + nbDgInbaseFrom baseTo n n

/-- `position_in_base` in memory: the search ends at the character, or at the NUL behind the base. -/
def positionIn (base : List UInt8) (search : UInt8) : Checked Nat :=
  if search ∈ base ∨ search = 0 then .ok (positionInBase base search) else .fault

/-- The loop over `nbr`. -/
def inTenBFrom (baseFrom : List UInt8) : List UInt8 → Nat → Checked Nat
  | [], n => .ok n
  | c :: nbr, n => do
    let position ← positionIn baseFrom c
    inTenBFrom baseFrom nbr ((n * baseFrom.length + position) % 2 ^ 64)

/-- The loop over `in_ten_b`, from `result[i]` on. -/
def putDigits (baseTo : List UInt8) : Nat → Nat → Nat → Buffer → Checked (Nat × Buffer)
  | 0, _, _, _ => .fault
  | fuel + 1, inTenB, i, result =>
    if 0 < inTenB then do
      let result ← result.store i (baseTo.getD (inTenB % baseTo.length) 0)
      putDigits baseTo fuel (inTenB / baseTo.length) (i + 1) result
    else .ok (i, result)

/-- The first loop of `reverse_delect_first_zeros`. -/
def endOf (tab : Buffer) : Nat → Nat → Checked Nat
  | 0, _ => .fault
  | fuel + 1, j => do
    let c ← tab.load j
    if c ≠ 0 then endOf tab fuel (j + 1) else .ok j

/-- The second loop, with the test `i < j - 1`. -/
def reverseTab : Nat → Nat → Nat → Buffer → Checked Buffer
  | 0, _, _, _ => .fault
  | fuel + 1, i, j, tab =>
    if i + 1 < j then do
      let temp ← tab.load i
      let c ← tab.load (j - 1)
      let tab ← tab.store i c
      let tab ← tab.store (j - 1) temp
      reverseTab fuel (i + 1) (j - 1) tab
    else .ok tab

/-- The third loop. -/
def skipZeros (baseTo : List UInt8) (tab : Buffer) : Nat → Nat → Checked Nat
  | 0, _ => .fault
  | fuel + 1, p => do
    let c ← tab.load p
    let position ← positionIn baseTo c
    if position = 0 then skipZeros baseTo tab fuel (p + 1) else .ok p

def reverseDelectFirstZeros (tab : Buffer) (baseTo : List UInt8) : Checked (Nat × Buffer) := do
  let j ← endOf tab (tab.size + 1) 0
  let tab ← reverseTab (j + 1) 0 j tab
  let p ← skipZeros baseTo tab (tab.size + 1) 0
  pure (p, tab)

/-- `ft_convert_base` behind the allocation of `result`: the start of the text, and the block. -/
def convertBaseIn (result : Buffer) (baseTo : List UInt8) (inTenB : Nat) :
    Checked (Nat × Buffer) := do
  if inTenB = 0 then
    let result ← result.store 0 (baseTo.getD 0 0)
    let result ← result.store 1 0
    pure (0, result)
  else
    let (i, result) ← putDigits baseTo (inTenB + 1) inTenB 0 result
    let result ← result.store i 0
    reverseDelectFirstZeros result baseTo

/-- `ft_convert_base`, on what `malloc` gives for a size: the start of the text, and the block. -/
def ftConvertBaseIn (malloc : Nat → Buffer) (nbr baseFrom baseTo : List UInt8) :
    Checked (Nat × Buffer) := do
  let inTenB ← inTenBFrom baseFrom nbr 0
  convertBaseIn (malloc (nbDgInbase inTenB 10 + 1)) baseTo inTenB

/-- `ft_convert_base`, for the string that it returns. -/
def ftConvertBase (malloc : Nat → Buffer) (nbr baseFrom baseTo : List UInt8) :
    Checked (List UInt8) := do
  let (p, result) ← ftConvertBaseIn malloc nbr baseFrom baseTo
  ftStr result p

def itoaBase (malloc : Nat → Buffer) (nb baseFrom baseTo : Nat) : Checked (List UInt8) :=
  ftConvertBase malloc (ftItoaUnmax nb) (setBase baseFrom) (setBase baseTo)

/-- `itoa_hex(nb, 'x')`. -/
def itoaHex (malloc : Nat → Buffer) (nb : Nat) : Checked (List UInt8) :=
  ftConvertBase malloc (ftItoaUnmax nb) (ascii "0123456789") (ascii "0123456789abcdef")

/-- `itoa_hex(nb, 'X')`. -/
def itoaBigHex (malloc : Nat → Buffer) (nb : Nat) : Checked (List UInt8) :=
  ftConvertBase malloc (ftItoaUnmax nb) (ascii "0123456789") (ascii "0123456789ABCDEF")

variable {base baseFrom baseTo nbr bs cs : List UInt8} {m tab result : Buffer} {n i j k p fuel b : Nat}
  {c : UInt8} {malloc : Nat → Buffer}

/-! ## The digits -/

theorem positionIn_mem (h : c ∈ base) : positionIn base c = .ok (positionInBase base c) :=
  if_pos (.inl h)

/-- The digits fill the block upwards, and fault where it ends. -/
theorem putDigits_eq (hb : 1 < base.length) (hf : n < fuel) (hi : i ≤ m.size) :
    putDigits base fuel n i m =
      if i + (Nat.digits base.length n).length ≤ m.size then
        .ok (i + (Nat.digits base.length n).length,
          m.write i ((Nat.digits base.length n).map fun k => base.getD k 0))
      else .fault := by
  induction fuel generalizing n i m with
  | zero => exact absurd hf (Nat.not_lt_zero n)
  | succ fuel ih =>
    unfold putDigits
    split
    · next hpos =>
      have hdiv : n / base.length < fuel :=
        (Nat.div_lt_self hpos hb).trans_le (Nat.le_of_lt_succ hf)
      rw [Nat.digits_def' hb hpos, List.length_cons, List.map_cons]
      by_cases hlt : i < m.size
      · rw [Buffer.store_write hlt, ok_bind, ih hdiv (by simpa using hlt), Buffer.size_write]
        rw [Buffer.write_cons, Nat.add_assoc i 1, Nat.add_comm 1]
      · rw [Buffer.store_fault (Nat.not_lt.mp hlt), fault_bind, if_neg (by omega)]
    · next hzero =>
      obtain rfl : n = 0 := Nat.eq_zero_of_not_pos hzero
      simp [hi]

/-! ## The reversal -/

theorem endOf_eq (hne : ∀ k < n, m.byte k ≠ 0) (h0 : m.byte n = 0) (hs : n < m.size) (hj : j ≤ n)
    (hf : n < fuel + j) : endOf m fuel j = .ok n := by
  induction fuel generalizing j with
  | zero => omega
  | succ fuel ih =>
    rw [endOf, Buffer.load_ok (by omega), ok_bind]
    rcases Nat.lt_or_ge j n with hlt | hge
    · rw [if_pos (hne j hlt), ih hlt (by omega)]
    · obtain rfl : j = n := Nat.le_antisymm hj hge
      rw [if_neg (not_not.mpr h0)]

/-- A round exchanges the outermost bytes that are left, as a round of `swap_endiane` does. -/
theorem reverseTab_eq (hn : n ≤ m.size) (hk : k ≤ n) (hf : n < fuel + k) :
    reverseTab fuel k (n - k) (swapEnds m 0 n k) = .ok (m.reverse 0 n) := by
  induction fuel generalizing k with
  | zero => omega
  | succ fuel ih =>
    unfold reverseTab
    by_cases hlt : 2 * k + 1 < n
    · have hsize : (swapEnds m 0 n k).size = m.size := rfl
      have h1 : (swapEnds m 0 n k).byte k = m.byte k := if_neg (by omega)
      have h2 : (swapEnds m 0 n k).byte (n - k - 1) = m.byte (n - k - 1) := if_neg (by omega)
      rw [if_pos (by omega), Buffer.load_ok (by omega), ok_bind, Buffer.load_ok (by omega), ok_bind,
        Buffer.store, if_pos (by omega), ok_bind, Buffer.store, if_pos (by simp only [hsize]; omega),
        ok_bind, h1, h2]
      have hround := ih (k := k + 1) (by omega) (by omega)
      rw [swapEnds_succ m (by omega), Nat.zero_add, Nat.zero_add,
        show n - 1 - k = n - k - 1 by omega] at hround
      exact hround
    · have hmiddle := swapEnds_half (p := 0) m (show n ≤ 2 * k + 1 by omega) hk
      rw [if_neg (by omega), hmiddle]

/-- A text that begins with a digit other than the zero stays where it is. -/
theorem skipZeros_eq (h : m.load p = .ok c) (hc : c ∈ base) (h0 : positionInBase base c ≠ 0) :
    skipZeros base m (fuel + 1) p = .ok p := by
  rw [skipZeros, h, ok_bind, positionIn_mem hc, ok_bind, if_neg h0]

/-- `reverse_delect_first_zeros` on digits of which the last is not a zero. -/
theorem reverseDelectFirstZeros_eq (hs : bs.length < m.size) (hne : ∀ b ∈ bs, b ≠ 0)
    (hlast : ∃ c cs, bs.reverse = c :: cs ∧ c ∈ base ∧ positionInBase base c ≠ 0) :
    reverseDelectFirstZeros (m.write 0 (bs ++ [0])) base =
      .ok (0, m.write 0 (bs.reverse ++ [0])) := by
  obtain ⟨c, cs, hrev, hc, h0⟩ := hlast
  have hbytes : ∀ k < bs.length, (m.write 0 (bs ++ [0])).byte k ≠ 0 := by
    intro k hk
    have hin := Buffer.byte_write_in (m := m) (p := 0) (s := bs ++ [0]) (k := k) (by simp; omega)
    rw [Nat.zero_add, List.getElem_append_left hk] at hin
    exact hin ▸ hne _ (List.getElem_mem hk)
  have hnul : (m.write 0 (bs ++ [0])).byte bs.length = 0 := by
    have hin := Buffer.byte_write_in (m := m) (p := 0) (s := bs ++ [0]) (k := bs.length) (by simp)
    rwa [Nat.zero_add, List.getElem_append_right (Nat.le_refl _), List.getElem_singleton] at hin
  have hend := endOf_eq hbytes hnul hs (Nat.zero_le _)
    (show bs.length < m.size + 1 + 0 from Nat.lt_succ_of_lt hs)
  have hreverse := reverseTab_eq
    (show bs.length ≤ (m.write 0 (bs ++ [0])).size from Nat.le_of_lt hs) (Nat.zero_le _)
    (show bs.length < bs.length + 1 + 0 from Nat.lt_succ_self _)
  rw [swapEnds_zero, Nat.sub_zero, Buffer.reverse_write] at hreverse
  have hload : (m.write 0 (bs.reverse ++ [0])).load 0 = .ok c := by
    rw [Buffer.load_ok (by rw [Buffer.size_write]; omega), hrev]
    rfl
  rw [reverseDelectFirstZeros, Buffer.size_write, hend, ok_bind, hreverse, ok_bind,
    Buffer.size_write, skipZeros_eq hload hc h0]
  rfl

/-! ## The conversion -/

theorem getD_mem (h : k < base.length) : base.getD k 0 ∈ base := by
  rw [List.getD_eq_getElem base 0 h]
  exact List.getElem_mem h

theorem mem_digits (hb : Alphabet base) :
    ∀ c ∈ (Nat.digits base.length n).map fun k => base.getD k 0, c ∈ base := by
  intro c hc
  obtain ⟨k, hk, rfl⟩ := List.mem_map.mp hc
  exact getD_mem (Nat.digits_lt_base hb.one_lt hk)

/-- `ft_convert_base` leaves the numeral in a block that holds it with its NUL, and writes outside of
a smaller one. -/
theorem convertBaseIn_eq (hb : Alphabet base) (h0 : 0 ∉ base) (result : Buffer) (n : Nat) :
    convertBaseIn result base n =
      if (numeralOf base n).length < result.size then
        .ok (0, result.write 0 (numeralOf base n ++ [0]))
      else .fault := by
  unfold convertBaseIn
  by_cases hn : n = 0
  · rw [if_pos hn, numeralOf, if_pos hn]
    by_cases hpos : 0 < result.size
    · rw [Buffer.store_write hpos, ok_bind]
      by_cases hone : 1 < result.size
      · rw [Buffer.store_write (m := result.write 0 _) hone, ok_bind, Buffer.write_cons,
          if_pos (by simpa using hone)]
        rfl
      · rw [Buffer.store_fault (m := result.write 0 _) (Nat.not_lt.mp hone), fault_bind,
          if_neg (by simpa using hone)]
    · rw [Buffer.store_fault (Nat.not_lt.mp hpos), fault_bind, if_neg (by simp; omega)]
  · have hnumeral : numeralOf base n =
        ((Nat.digits base.length n).map fun k => base.getD k 0).reverse := if_neg hn
    obtain ⟨k, l, hl, hk, hlt⟩ := head_numeralOf hb hn
    rw [hnumeral] at hl ⊢
    have hbase := mem_digits (n := n) hb
    have hput := putDigits_eq (i := 0) (m := result) hb.one_lt (Nat.lt_succ_self n) (Nat.zero_le _)
    rw [← List.length_map (fun k => base.getD k 0)] at hput
    generalize (Nat.digits base.length n).map (fun k => base.getD k 0) = ds at *
    rw [if_neg hn, hput, Nat.zero_add, List.length_reverse]
    rcases Nat.lt_trichotomy ds.length result.size with h | h | h
    · rw [if_pos (Nat.le_of_lt h), ok_bind, if_pos h]
      simp only
      rw [Buffer.store_write (m := result.write 0 ds) h, ok_bind,
        Buffer.write_write (Nat.zero_add _).symm]
      apply reverseDelectFirstZeros_eq h
      · intro c hc h0'
        exact h0 (h0' ▸ hbase c hc)
      · refine ⟨_, l, hl, getD_mem hlt, ?_⟩
        rw [positionInBase_getD hb hlt]
        exact hk.ne'
    · rw [if_pos (Nat.le_of_eq h), ok_bind, if_neg (Nat.not_lt_of_le (Nat.le_of_eq h.symm))]
      simp only
      rw [Buffer.store_fault (m := result.write 0 ds) (Nat.le_of_eq h.symm), fault_bind]
    · rw [if_neg (Nat.not_le_of_lt h), fault_bind, if_neg (Nat.lt_asymm h)]

/-- The loop over `nbr` is the accumulation that wraps around. -/
theorem inTenBFrom_eq (h : ∀ c ∈ nbr, c ∈ base) (n : Nat) :
    inTenBFrom base nbr n =
      .ok (nbr.foldl (fun n c => (n * base.length + positionInBase base c) % 2 ^ 64) n) := by
  induction nbr generalizing n with
  | nil => rfl
  | cons c nbr ih =>
    rw [inTenBFrom, positionIn_mem (h c List.mem_cons_self), ok_bind,
      ih fun c hc => h c (List.mem_cons_of_mem _ hc), List.foldl_cons]

/-! ## Canonical numerals are the numerals of their values -/

theorem foldl_idxOf (l : List UInt8) :
    l.reverse.foldl (fun n c => n * b + base.idxOf c) 0 =
      Nat.ofDigits b (l.map fun c => base.idxOf c) := by
  induction l with
  | nil => rfl
  | cons c l ih =>
    rw [List.reverse_cons, List.foldl_append, ih, List.map_cons, Nat.ofDigits_cons]
    simp only [List.foldl_cons, List.foldl_nil]
    rw [Nat.add_comm, Nat.mul_comm]

theorem numeralValue_eq (nbr : List UInt8) :
    numeralValue base nbr = Nat.ofDigits base.length (nbr.reverse.map fun c => base.idxOf c) := by
  rw [← foldl_idxOf, List.reverse_reverse, numeralValue]

theorem getD_idxOf (h : c ∈ base) : base.getD (base.idxOf c) 0 = c := by
  rw [List.getD_eq_getElem base 0 (List.idxOf_lt_length_iff.mpr h), List.getElem_idxOf]

/-- A canonical numeral has a digit other than the zero in front, or is the numeral of zero. -/
theorem Canonical.cases (h : Canonical base nbr) :
    nbr = [base.getD 0 0] ∨ ∃ c cs, nbr = c :: cs ∧ base.idxOf c ≠ 0 := by
  cases nbr with
  | nil => exact absurd rfl h.ne_nil
  | cons c cs =>
    by_cases h0 : base.idxOf c = 0
    · have hc : c = base.getD 0 0 := by rw [← h0, getD_idxOf (h.mem c List.mem_cons_self)]
      have hlen : cs.length + 1 = 1 := h.zero hc
      exact .inl (by rw [hc, List.eq_nil_of_length_eq_zero (Nat.succ.inj hlen)])
    · exact .inr ⟨c, cs, rfl, h0⟩

theorem Canonical.numeralOf_numeralValue (hb : Alphabet base) (h : Canonical base nbr) :
    numeralOf base (numeralValue base nbr) = nbr := by
  have hlt : ∀ c ∈ nbr, base.idxOf c < base.length :=
    fun c hc => List.idxOf_lt_length_iff.mpr (h.mem c hc)
  rcases h.cases with hzero | ⟨c, cs, hnbr, h0⟩
  · have hpos : base.idxOf (base.getD 0 0) = 0 :=
      positionInBase_getD hb (Nat.zero_lt_of_lt hb.one_lt)
    have hvalue : numeralValue base nbr = 0 := by
      rw [hzero, numeralValue, List.foldl_cons, List.foldl_nil, hpos, Nat.zero_mul]
    rw [hvalue, numeralOf, if_pos rfl, hzero]
  · have hdigits : Nat.digits base.length (numeralValue base nbr) =
        nbr.reverse.map fun c => base.idxOf c := by
      rw [numeralValue_eq]
      apply Nat.digits_ofDigits _ hb.one_lt
      · intro k hk
        obtain ⟨c, hc, rfl⟩ := List.mem_map.mp hk
        exact hlt c (List.mem_reverse.mp hc)
      · intro hne
        simpa [hnbr] using h0
    have hvalue : numeralValue base nbr ≠ 0 := by
      intro hv
      rw [hv, Nat.digits_zero, hnbr] at hdigits
      simp at hdigits
    rw [numeralOf, if_neg hvalue, hdigits, List.map_map, List.map_congr_left (g := id),
      List.map_id, List.reverse_reverse]
    intro c hc
    exact getD_idxOf (h.mem c (List.mem_reverse.mp hc))

theorem canonical_numeralOf (hb : Alphabet base) (n : Nat) : Canonical base (numeralOf base n) := by
  by_cases hn : n = 0
  · rw [numeralOf, if_pos hn]
    refine ⟨List.cons_ne_nil _ _, ?_, fun _ => rfl⟩
    intro c hc
    rw [List.mem_singleton.mp hc]
    exact getD_mem (Nat.zero_lt_of_lt hb.one_lt)
  · obtain ⟨k, l, hl, hk, hlt⟩ := head_numeralOf hb hn
    refine ⟨by rw [hl]; exact List.cons_ne_nil _ _, ?_, ?_⟩
    · intro c hc
      rw [numeralOf, if_neg hn, List.mem_reverse] at hc
      exact mem_digits hb c hc
    · intro hhead
      rw [hl, List.getD_cons_zero] at hhead
      have hpos := congrArg (positionInBase base) hhead
      rw [positionInBase_getD hb hlt, positionInBase_getD hb (by omega)] at hpos
      omega

theorem numeralValue_numeralOf (hb : Alphabet base) (n : Nat) :
    numeralValue base (numeralOf base n) = n := by
  by_cases hn : n = 0
  · have hpos : base.idxOf (base.getD 0 0) = 0 :=
      positionInBase_getD hb (Nat.zero_lt_of_lt hb.one_lt)
    rw [numeralOf, if_pos hn, numeralValue, List.foldl_cons, List.foldl_nil, hpos, Nat.zero_mul, hn]
  · rw [numeralValue_eq, numeralOf, if_neg hn, List.reverse_reverse]
    exact (congrArg _ (positions_digits hb)).trans (Nat.ofDigits_digits _ n)

/-! ## The requested size -/

theorem nbDgInbaseFrom_eq (hb : 1 < b) (hf : n ≤ fuel) :
    nbDgInbaseFrom b fuel n = (Nat.digits b n).length - 1 := by
  induction fuel generalizing n with
  | zero => simp [nbDgInbaseFrom, Nat.le_zero.mp hf]
  | succ fuel ih =>
    unfold nbDgInbaseFrom
    split
    · next hlt =>
      have hpos : 0 < n := by omega
      have hdiv : 0 < n / b := Nat.div_pos (by omega) (by omega)
      have hle : n / b < n := Nat.div_lt_self hpos hb
      have hlen : 0 < (Nat.digits b (n / b)).length :=
        List.length_pos_iff.mpr (Nat.digits_ne_nil_iff_ne_zero.mpr hdiv.ne')
      rw [Nat.digits_def' hb hpos, List.length_cons, ih (by omega)]
      omega
    · next hge =>
      have hlen : (Nat.digits b n).length ≤ 1 := by
        rw [Nat.digits_length_le_iff hb, Nat.pow_one]
        omega
      omega

theorem nbDgInbase_eq (hb : 1 < b) (n : Nat) : nbDgInbase n b = max 1 (Nat.digits b n).length := by
  rw [nbDgInbase, nbDgInbaseFrom_eq hb (Nat.le_refl n)]
  omega

theorem numeralOf_length (base : List UInt8) (n : Nat) :
    (numeralOf base n).length = max 1 (Nat.digits base.length n).length := by
  by_cases hn : n = 0
  · rw [numeralOf, if_pos hn, hn, Nat.digits_zero]
    rfl
  · have hpos := List.length_pos_iff.mpr (Nat.digits_ne_nil_iff_ne_zero (b := base.length) |>.mpr hn)
    rw [numeralOf, if_neg hn, List.length_reverse, List.length_map]
    omega

/-- The numeral fits the block of its decimal length. -/
def FitsDecimal (b n : Nat) : Prop := (Nat.digits b n).length ≤ (Nat.digits 10 n).length

instance (b n : Nat) : Decidable (FitsDecimal b n) := inferInstanceAs (Decidable (_ ≤ _))

theorem fitsDecimal_of_le (hb : 10 ≤ b) (n : Nat) : FitsDecimal b n := by
  rw [FitsDecimal, Nat.digits_length_le_iff (by omega)]
  have hlt : n < 10 ^ (Nat.digits 10 n).length :=
    (Nat.digits_length_le_iff (by decide) n).mp (Nat.le_refl _)
  exact hlt.trans_le (Nat.pow_le_pow_left hb _)

/-- Two digits are enough to make `2 ^ k` smaller than any number of `k` decimal digits. -/
theorem fitsDecimal_two (n : Nat) : FitsDecimal 2 n ↔ n < 2 := by
  rw [FitsDecimal, Nat.digits_length_le_iff (by decide)]
  constructor
  · intro hlt
    by_contra hge
    have hpos : n ≠ 0 := by omega
    obtain ⟨k, hk⟩ : ∃ k, (Nat.digits 10 n).length = k + 1 :=
      Nat.exists_eq_succ_of_ne_zero
        (List.length_pos_iff.mpr (Nat.digits_ne_nil_iff_ne_zero.mpr hpos)).ne'
    have hle : 10 ^ k ≤ n := by
      by_contra hlt'
      have := (Nat.digits_length_le_iff (k := k) (by decide : 1 < 10) n).mpr (Nat.lt_of_not_le hlt')
      omega
    have hfour : 4 ^ k ≤ 10 ^ k := Nat.pow_le_pow_left (by decide) k
    have hsquare : (4 : Nat) ^ k = 2 ^ k * 2 ^ k := by rw [← Nat.mul_pow]
    rw [hk, Nat.pow_succ] at hlt
    have hk0 : 2 ^ k < 2 := by nlinarith
    omega
  · intro h
    interval_cases n <;> decide

/-! ## The text in the block -/

/-- The numeral fits the block that `ft_convert_base` asks for. -/
theorem room_iff (hm : ∀ n, (malloc n).size = n) (base : List UInt8) (n : Nat) :
    (numeralOf base n).length < (malloc (nbDgInbase n 10 + 1)).size ↔
      FitsDecimal base.length n := by
  rw [hm, numeralOf_length, nbDgInbase_eq (by decide), FitsDecimal]
  have hzero : n = 0 → (Nat.digits base.length n).length = 0 := by
    rintro rfl
    rw [Nat.digits_zero]
    rfl
  have hpos : n ≠ 0 → 0 < (Nat.digits 10 n).length := fun hn =>
    List.length_pos_iff.mpr (Nat.digits_ne_nil_iff_ne_zero.mpr hn)
  by_cases hn : n = 0
  · have := hzero hn
    omega
  · have := hpos hn
    omega

theorem nul_not_mem_numeralOf (hb : Alphabet base) (h0 : 0 ∉ base) (n : Nat) :
    ∀ b ∈ numeralOf base n, b ≠ 0 := by
  rintro b hb' rfl
  exact h0 ((canonical_numeralOf hb n).mem 0 hb')

/-- A text with its NUL is read back. -/
theorem ftStr_write (hne : ∀ b ∈ bs, b ≠ 0) (hs : bs.length < m.size) :
    ftStr (m.write 0 (bs ++ [0])) 0 = .ok bs := by
  have hnul : (m.write 0 (bs ++ [0])).byte bs.length = 0 := by
    have hin := Buffer.byte_write_in (m := m) (p := 0) (s := bs ++ [0]) (k := bs.length) (by simp)
    rwa [Nat.zero_add, List.getElem_append_right (Nat.le_refl _), List.getElem_singleton] at hin
  have hend : (m.write 0 (bs ++ [0])).Terminated 0 := ⟨bs.length, Nat.zero_le _, hs, hnul⟩
  rw [ftStr_terminated hend, Buffer.cstr_write hne (by rwa [Nat.zero_add])]

/-- `ft_convert_base` takes the numeral of a number to the one in the other base, where the block has
room for it. -/
theorem ftConvertBase_numeralOf (malloc : Nat → Buffer) (hb : Alphabet baseFrom)
    (hb' : Alphabet baseTo) (h0 : 0 ∉ baseTo) (hn : n < 2 ^ 64) :
    ftConvertBase malloc (numeralOf baseFrom n) baseFrom baseTo =
      if (numeralOf baseTo n).length < (malloc (nbDgInbase n 10 + 1)).size then
        .ok (numeralOf baseTo n)
      else .fault := by
  rw [ftConvertBase, ftConvertBaseIn, inTenBFrom_eq (canonical_numeralOf hb n).mem,
    inTenB_numeralOf hb hn, ok_bind, convertBaseIn_eq hb' h0]
  split
  · next hroom =>
    rw [ok_bind]
    exact ftStr_write (nul_not_mem_numeralOf hb' h0 n) hroom
  · rfl

/-- A block of the requested size holds a numeral of no more digits than the decimal one. -/
theorem ftConvertBase_fits (hm : ∀ n, (malloc n).size = n) (hb : Alphabet baseFrom)
    (hb' : Alphabet baseTo) (h0 : 0 ∉ baseTo) (hn : n < 2 ^ 64) :
    ftConvertBase malloc (numeralOf baseFrom n) baseFrom baseTo = .ok (numeralOf baseTo n) ↔
      FitsDecimal baseTo.length n := by
  rw [ftConvertBase_numeralOf malloc hb hb' h0 hn, ← room_iff hm]
  split
  · next hroom => exact iff_of_true rfl hroom
  · next hroom => exact iff_of_false nofun hroom

theorem itoaBase_eq (malloc : Nat → Buffer) {k : Nat} (h2 : 2 ≤ k) (h10 : k ≤ 10)
    (hn : n < 2 ^ 64) : itoaBase malloc n 10 k =
      if (numeralOf (setBase k) n).length < (malloc (nbDgInbase n 10 + 1)).size then
        .ok (numeralOf (setBase k) n)
      else .fault := by
  have hten : setBase 10 = ascii "0123456789" := by decide +kernel
  have hk := digitBase_setBase h2 h10
  rw [itoaBase, ftItoaUnmax_eq hn, hten]
  exact ftConvertBase_numeralOf malloc digitBase_dec.toAlphabet hk.toAlphabet hk.nul_not_mem hn

/-- The hexadecimal numeral fits every block of the requested size. -/
theorem ftConvertBase_hex (hm : ∀ n, n ≤ (malloc n).size) (hb : DigitBase base)
    (h16 : 10 ≤ base.length) (hn : n < 2 ^ 64) :
    ftConvertBase malloc (ftItoaUnmax n) (ascii "0123456789") base = .ok (numeralOf base n) := by
  have hfit : (numeralOf base n).length < nbDgInbase n 10 + 1 :=
    (@room_iff (fun n => .ofBytes n []) (fun _ => rfl) base n).mpr
      (fitsDecimal_of_le h16 n)
  rw [ftItoaUnmax_eq hn, ftConvertBase_numeralOf malloc digitBase_dec.toAlphabet hb.toAlphabet
    hb.nul_not_mem hn, if_pos (hfit.trans_le (hm _))]

/-! ## Round trip -/

theorem Canonical.inTenBFrom (hb : Alphabet base) (h : Canonical base nbr)
    (hlt : numeralValue base nbr < 2 ^ 64) :
    inTenBFrom base nbr 0 = .ok (numeralValue base nbr) := by
  have hfold := inTenB_numeralOf hb hlt
  rw [h.numeralOf_numeralValue hb] at hfold
  rw [inTenBFrom_eq h.mem, hfold]

/-- The block is large enough exactly for a value with no more digits in the target base than in base
ten, and otherwise `ft_convert_base` writes behind it. -/
theorem ftConvertBaseIn_fits (malloc : Nat → Buffer) (hm : ∀ n, (malloc n).size = n)
    (baseFrom baseTo nbr : List UInt8) (hb : Alphabet baseFrom) (hb' : Alphabet baseTo)
    (h0 : 0 ∉ baseTo) (h : Canonical baseFrom nbr)
    (hlt : numeralValue baseFrom nbr < 2 ^ 64) :
    (ftConvertBaseIn malloc nbr baseFrom baseTo ≠ .fault ↔
      FitsDecimal baseTo.length (numeralValue baseFrom nbr)) ∧
    (10 ≤ baseTo.length → ftConvertBaseIn malloc nbr baseFrom baseTo ≠ .fault) ∧
    (baseTo.length = 2 →
      (ftConvertBaseIn malloc nbr baseFrom baseTo ≠ .fault ↔ numeralValue baseFrom nbr < 2)) := by
  have hiff : ftConvertBaseIn malloc nbr baseFrom baseTo ≠ .fault ↔
      FitsDecimal baseTo.length (numeralValue baseFrom nbr) := by
    rw [ftConvertBaseIn, h.inTenBFrom hb hlt, ok_bind, convertBaseIn_eq hb' h0, ← room_iff hm]
    split
    · next hroom => exact iff_of_true nofun hroom
    · next hroom => exact iff_of_false (not_not_intro rfl) hroom
  refine ⟨hiff, fun hten => hiff.mpr (fitsDecimal_of_le hten _), fun htwo => ?_⟩
  rw [hiff, htwo, fitsDecimal_two]

theorem ftConvertBaseIn_fits_eleven :
    ftConvertBaseIn (fun n => .ofBytes n []) (ascii "11") (setBase 10) (setBase 8) ≠ .fault :=
  (ftConvertBaseIn_fits (fun n => .ofBytes n []) (fun _ => rfl) (setBase 10) (setBase 8) (ascii "11")
    (digitBase_setBase (by decide) (by decide)).toAlphabet
    (digitBase_setBase (by decide) (by decide)).toAlphabet (by decide)
    ⟨by decide, by decide +kernel, by decide⟩ (by decide)).1.mpr
    (by rw [FitsDecimal]; decide +kernel)

/-- `%o` of 8: the block has the two bytes of "8", and the text is "10". -/
theorem ftConvertBaseIn_eight :
    ftConvertBaseIn (fun n => .ofBytes n []) (ftItoaUnmax 8) (setBase 10) (setBase 8) = .fault := by
  rfl

/-- `ft_convert_base` takes a canonical numeral to the one of its value and back to it exactly if
the value has no more digits in the two bases than in base ten: otherwise it writes behind its block.
A hexadecimal numeral has not. -/
theorem ftConvertBase_roundTrip_iff (malloc : Nat → Buffer) (hm : ∀ n, (malloc n).size = n) :
    (∀ baseFrom baseTo nbr : List UInt8, Alphabet baseFrom → 0 ∉ baseFrom → Alphabet baseTo →
      0 ∉ baseTo → Canonical baseFrom nbr → numeralValue baseFrom nbr < 2 ^ 64 →
      ((∃ t, ftConvertBase malloc nbr baseFrom baseTo = .ok t ∧ Canonical baseTo t ∧
        numeralValue baseTo t = numeralValue baseFrom nbr ∧
        ftConvertBase malloc t baseTo baseFrom = .ok nbr) ↔
        FitsDecimal baseTo.length (numeralValue baseFrom nbr) ∧
          FitsDecimal baseFrom.length (numeralValue baseFrom nbr))) ∧
    ∀ n < 2 ^ 64, ∃ t, itoaHex malloc n = .ok t ∧ Canonical (ascii "0123456789abcdef") t ∧
      numeralValue (ascii "0123456789abcdef") t = n := by
  constructor
  · intro baseFrom baseTo nbr hb h0 hb' h0' h hlt
    have hnbr := h.numeralOf_numeralValue hb
    generalize numeralValue baseFrom nbr = n at *
    subst hnbr
    have hthere := ftConvertBase_fits hm hb hb' h0' hlt
    have hback := ftConvertBase_fits hm hb' hb h0 hlt
    constructor
    · rintro ⟨t, ht, hcanonical, hvalue, hnbr⟩
      have htext := hcanonical.numeralOf_numeralValue hb'
      rw [hvalue] at htext
      subst htext
      exact ⟨hthere.mp ht, hback.mp hnbr⟩
    · rintro ⟨hto, hfrom⟩
      exact ⟨_, hthere.mpr hto, canonical_numeralOf hb' n, numeralValue_numeralOf hb' n,
        hback.mpr hfrom⟩
  · intro n hn
    have hle : ∀ n, n ≤ (malloc n).size := fun n => Nat.le_of_eq (hm n).symm
    have hhex := digitBase_hex.toAlphabet
    exact ⟨_, ftConvertBase_hex hle digitBase_hex (by decide) hn, canonical_numeralOf hhex n,
      numeralValue_numeralOf hhex n⟩

theorem ftConvertBase_roundTrip_iff_ff :
    ∃ t, ftConvertBase (fun n => .ofBytes n []) (ascii "ff") (ascii "0123456789abcdef")
        (ascii "0123456789") = .ok t ∧
      ftConvertBase (fun n => .ofBytes n []) t (ascii "0123456789") (ascii "0123456789abcdef") =
        .ok (ascii "ff") := by
  obtain ⟨t, ht, -, -, hback⟩ := ((ftConvertBase_roundTrip_iff (fun n => .ofBytes n [])
    (fun _ => rfl)).1 (ascii "0123456789abcdef") (ascii "0123456789") (ascii "ff")
    digitBase_hex.toAlphabet (by decide) digitBase_dec.toAlphabet (by decide)
    ⟨by decide, by decide +kernel, by decide⟩ (by decide)).mpr
    ⟨fitsDecimal_of_le (by decide) _, fitsDecimal_of_le (by decide) _⟩
  exact ⟨t, ht, hback⟩

/-- The value of "ff" has three decimal digits and eight binary ones: the block ends before them. -/
theorem ftConvertBase_ff : ¬ ∀ (malloc : Nat → Buffer) (baseFrom baseTo nbr : List UInt8),
    (∀ n, (malloc n).size = n) → Alphabet baseFrom → 0 ∉ baseFrom → Alphabet baseTo → 0 ∉ baseTo →
    Canonical baseFrom nbr → numeralValue baseFrom nbr < 2 ^ 64 →
    ∃ t, ftConvertBase malloc nbr baseFrom baseTo = .ok t ∧ Canonical baseTo t ∧
      numeralValue baseTo t = numeralValue baseFrom nbr ∧
      ftConvertBase malloc t baseTo baseFrom = .ok nbr := by
  intro h
  obtain ⟨t, ht, -⟩ := h (fun n => .ofBytes n []) (ascii "0123456789abcdef") (ascii "01")
    (ascii "ff") (fun _ => rfl) digitBase_hex.toAlphabet (by decide) ⟨by decide, by decide⟩
    (by decide) ⟨by decide, by decide +kernel, by decide⟩ (by decide)
  have hfault : ftConvertBase (fun n => .ofBytes n []) (ascii "ff") (ascii "0123456789abcdef")
      (ascii "01") = .fault := by rfl
  rw [hfault] at ht
  exact nomatch ht

end NmOtool
