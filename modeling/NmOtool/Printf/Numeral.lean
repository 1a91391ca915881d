import Mathlib.Data.Nat.Digits.Lemmas
import NmOtool.Common.Printf

/-!
# ft_printf: numerals

The numeral of a number in a base is its digits, most significant first, in the characters of the
base. `ft_itoa_unmax` writes it in base ten, and the first loop of `ft_convert_base` reads it. A
numeral is not empty and begins with no zero, unless it is the numeral of zero.
-/

namespace NmOtool

open MachO

/-- The characters of a base, each one once. -/
structure Alphabet (base : List UInt8) : Prop where
  nodup : base.Nodup
  one_lt : 1 < base.length

/-- The base of `set_base`. -/
def setBase (n : Nat) : List UInt8 := (List.range n).map fun i => '0'.toUInt8 + UInt8.ofNat i

/-- A base whose characters are digits, the '0' in front. -/
structure DigitBase (base : List UInt8) : Prop extends Alphabet base where
  zero : base.getD 0 0 = '0'.toUInt8
  digit : ∀ c ∈ base, c ∈ ascii "0123456789abcdefABCDEF"

theorem digitBase_dec : DigitBase (ascii "0123456789") := by
  refine ⟨⟨?_, ?_⟩, ?_, ?_⟩ <;> decide +kernel

theorem digitBase_hex : DigitBase (ascii "0123456789abcdef") := by
  refine ⟨⟨?_, ?_⟩, ?_, ?_⟩ <;> decide +kernel

theorem digitBase_bigHex : DigitBase (ascii "0123456789ABCDEF") := by
  refine ⟨⟨?_, ?_⟩, ?_, ?_⟩ <;> decide +kernel

theorem digitBase_setBase {k : Nat} (h2 : 2 ≤ k) (h10 : k ≤ 10) : DigitBase (setBase k) := by
  have hall : ∀ k ≤ 10, 2 ≤ k → (setBase k).Nodup ∧ 1 < (setBase k).length ∧
      (setBase k).getD 0 0 = '0'.toUInt8 ∧
      ∀ c ∈ setBase k, c ∈ ascii "0123456789abcdefABCDEF" := by decide +kernel
  obtain ⟨hnodup, hlt, hzero, hdigit⟩ := hall k h10 h2
  exact ⟨⟨hnodup, hlt⟩, hzero, hdigit⟩

variable {base : List UInt8} {n fuel : Nat} {b : Nat}

/-- No digit is the NUL. -/
theorem DigitBase.nul_not_mem (h : DigitBase base) : 0 ∉ base := fun h0 =>
  absurd (h.digit 0 h0) (by decide)

/-- The numeral of `n`, in the characters of `base`. -/
def numeralOf (base : List UInt8) (n : Nat) : List UInt8 :=
  if n = 0 then [base.getD 0 0]
  else ((Nat.digits base.length n).map fun k => base.getD k 0).reverse

theorem digitsFrom_eq (hb : 1 < base.length) (hn : n < base.length ^ fuel) :
    digitsFrom base fuel n = (Nat.digits base.length n).map fun k => base.getD k 0 := by
  induction fuel generalizing n with
  | zero =>
    obtain rfl : n = 0 := Nat.lt_one_iff.mp hn
    rw [Nat.digits_zero]
    rfl
  | succ fuel ih =>
    unfold digitsFrom
    split_ifs with hpos
    · have hdiv : n / base.length < base.length ^ fuel := by
        rw [Nat.div_lt_iff_lt_mul (by omega), ← Nat.pow_succ]
        exact hn
      rw [Nat.digits_def' hb hpos, List.map_cons, ih hdiv]
    · obtain rfl : n = 0 := by omega
      rw [Nat.digits_zero]
      rfl

theorem lt_pow_of_lt (hb : 1 < b) (hn : n < 2 ^ 64) : n < b ^ 64 :=
  hn.trans_le (Nat.pow_le_pow_left hb 64)

theorem ftItoaUnmax_eq (hn : n < 2 ^ 64) : ftItoaUnmax n = numeralOf (ascii "0123456789") n := by
  rw [ftItoaUnmax, numeralOf]
  split_ifs with h0
  · rfl
  · rw [digitsFrom_eq digitBase_dec.one_lt (lt_pow_of_lt digitBase_dec.one_lt hn)]

theorem hexNumeral_eq (hn : n < 2 ^ 64) :
    hexNumeral n = numeralOf (ascii "0123456789abcdef") n := by
  rw [hexNumeral, numeralOf]
  split_ifs with h0
  · rfl
  · rw [digitsFrom_eq digitBase_hex.one_lt (lt_pow_of_lt digitBase_hex.one_lt hn)]

theorem positionInBase_getD (hb : Alphabet base) (h : n < base.length) :
    positionInBase base (base.getD n 0) = n := by
  rw [List.getD_eq_getElem base 0 h]
  exact hb.nodup.idxOf_getElem n h

theorem positions_digits (hb : Alphabet base) :
    ((Nat.digits base.length n).map fun k => base.getD k 0).map (positionInBase base) =
      Nat.digits base.length n := by
  rw [List.map_map, List.map_congr_left (g := id), List.map_id]
  intro k hk
  exact positionInBase_getD hb (Nat.digits_lt_base hb.one_lt hk)

/-- The first loop of `ft_convert_base` reads a number off its digits. -/
theorem foldl_positions (l : List UInt8) :
    l.reverse.foldl (fun n c => (n * b + positionInBase base c) % 2 ^ 64) 0 =
      Nat.ofDigits b (l.map (positionInBase base)) % 2 ^ 64 := by
  induction l with
  | nil => rfl
  | cons c l ih =>
    rw [List.reverse_cons, List.foldl_append, ih, List.map_cons, Nat.ofDigits_cons]
    simp only [List.foldl_cons, List.foldl_nil]
    rw [Nat.add_mod, Nat.mul_mod, Nat.mod_mod, ← Nat.mul_mod, ← Nat.add_mod, Nat.add_comm,
      Nat.mul_comm]

theorem inTenB_numeralOf (hb : Alphabet base) (hn : n < 2 ^ 64) :
    (numeralOf base n).foldl (fun n c => (n * base.length + positionInBase base c) % 2 ^ 64) 0 =
      n := by
  unfold numeralOf
  split_ifs with h0
  · rw [List.foldl_cons, List.foldl_nil, positionInBase_getD hb (Nat.zero_lt_of_lt hb.one_lt), h0,
      Nat.zero_mul]
    rfl
  · rw [foldl_positions, positions_digits hb, Nat.ofDigits_digits, Nat.mod_eq_of_lt hn]

/-- The first digit of a number is not a zero. -/
theorem head_numeralOf (hb : Alphabet base) (h0 : n ≠ 0) :
    ∃ k l, numeralOf base n = base.getD k 0 :: l ∧ 0 < k ∧ k < base.length := by
  have hne : Nat.digits base.length n ≠ [] := Nat.digits_ne_nil_iff_ne_zero.mpr h0
  have hlast := Nat.getLast_digit_ne_zero base.length h0
  have hlt := Nat.digits_lt_base hb.one_lt (List.getLast_mem hne)
  refine ⟨_, ((Nat.digits base.length n).dropLast.map fun k => base.getD k 0).reverse, ?_,
    Nat.pos_of_ne_zero hlast, hlt⟩
  rw [numeralOf, if_neg h0]
  conv_lhs => rw [← List.dropLast_append_getLast hne]
  rw [List.map_append, List.reverse_append]
  rfl

/-! ## Canonical numerals -/

/-- Digits, without a zero in front of others. -/
structure Numeral (l : List UInt8) : Prop where
  ne_nil : l ≠ []
  zero : l.getD 0 0 = '0'.toUInt8 → l = ascii "0"
  digit : ∀ c ∈ l, c ∈ ascii "0123456789abcdefABCDEF"

/-- A numeral, or one behind a '-'. -/
def SignedNumeral (l : List UInt8) : Prop :=
  Numeral l ∨ ∃ digits, l = '-'.toUInt8 :: digits ∧ Numeral digits

theorem numeral_numeralOf (hb : DigitBase base) : Numeral (numeralOf base n) := by
  by_cases hn : n = 0
  · rw [numeralOf, if_pos hn, hb.zero]
    exact ⟨List.cons_ne_nil _ _, fun _ => rfl, by decide +kernel⟩
  · obtain ⟨k, l, hl, hk, hlt⟩ := head_numeralOf hb.toAlphabet hn
    refine ⟨by rw [hl]; exact List.cons_ne_nil _ _, ?_, ?_⟩
    · intro hhead
      rw [hl, List.getD_cons_zero, ← hb.zero] at hhead
      have hpos := congrArg (positionInBase base) hhead
      rw [positionInBase_getD hb.toAlphabet hlt, positionInBase_getD hb.toAlphabet (by omega)] at hpos
      omega
    · intro c hc
      rw [numeralOf, if_neg hn, List.mem_reverse, List.mem_map] at hc
      obtain ⟨k, hk, rfl⟩ := hc
      have hlt := Nat.digits_lt_base hb.one_lt hk
      rw [List.getD_eq_getElem base 0 hlt]
      exact hb.digit _ (List.getElem_mem hlt)

theorem length_numeralOf (hb : Alphabet base) (hn : n < 2 ^ 64) :
    (numeralOf base n).length ≤ 64 := by
  unfold numeralOf
  split_ifs
  · exact Nat.le_of_ble_eq_true rfl
  · rw [List.length_reverse, List.length_map, Nat.digits_length_le_iff hb.one_lt]
    exact lt_pow_of_lt hb.one_lt hn

/-! ## The numerals of the conversions -/

/-- What the conversions hand on: a numeral of at most 64 digits. -/
def ShortNumeral (l : List UInt8) : Prop := SignedNumeral l ∧ l.length ≤ 65

theorem shortNumeral_numeralOf (hb : DigitBase base) (hn : n < 2 ^ 64) :
    ShortNumeral (numeralOf base n) :=
  ⟨.inl (numeral_numeralOf hb), Nat.le_succ_of_le (length_numeralOf hb.toAlphabet hn)⟩

theorem shortNumeral_ftItoaUnmax (hn : n < 2 ^ 64) : ShortNumeral (ftItoaUnmax n) := by
  rw [ftItoaUnmax_eq hn]
  exact shortNumeral_numeralOf digitBase_dec hn

end NmOtool
