import NmOtool.Printf.ConvertBase
import NmOtool.Printf.Decimal

/-!
# ft_printf: decimal numerals of the signed types

`ft_itoa` and its relatives for `intmax_t`, `short` and `char` count the digits, allocate, and fill
the block from its end, all on the absolute value in an unsigned type of their own width. Here with
the indices they write: each one of the block once, and the text is the canonical numeral, which
`ft_atoi` reads back.
-/

namespace NmOtool

open MachO Checked

/-! ## The code -/

/-- A block, and the indices written so far. -/
structure Filled where
  block : Buffer
  written : List Nat

/-- `number[i] = c`. -/
def Filled.store (number : Filled) (i : Nat) (c : UInt8) : Checked Filled := do
  let block ← number.block.store i c
  pure ⟨block, i :: number.written⟩

/-- `n` converted to an unsigned type of `w` bits, times -1 if it is negative. -/
def absIn (w : Nat) (n : Int) : Nat :=
  if n < 0 then (n % 2 ^ w * -1 % 2 ^ w).toNat else (n % 2 ^ w).toNat

/-- `nb_digit_itoa`, `nb_dg_short` and `nb_dg`, which count in `w` bits. -/
def nbDigitIn (w : Nat) (n : Int) : Nat :=
  (if n < 0 then 2 else 1) + nbDgInbaseFrom 10 (absIn w n) (absIn w n)

/-- The loop over `cp_n`, with its writes at `--len`. -/
def fillDigits : Nat → Nat → Nat → Filled → Checked Filled
  | 0, _, _, _ => .fault
  | fuel + 1, cpN, len, number =>
    if cpN = 0 then .ok number
    else
      match len with
      | 0 => .fault
      | len + 1 => do
        let number ← number.store len (UInt8.ofNat (cpN % 10 + '0'.toNat))
        fillDigits fuel (cpN / 10) len number

/-- The body of the four functions: the digits are counted in `wCount` bits, and written from a copy
of `w` bits. -/
def itoaIn (wCount w : Nat) (malloc : Nat → Buffer) (n : Int) : Checked Filled := do
  let len := nbDigitIn wCount n
  let number ← Filled.store ⟨malloc (len + 1), []⟩ len 0
  let number ← if n = 0 then number.store 0 '0'.toUInt8 else pure number
  let number ← if n < 0 then number.store 0 '-'.toUInt8 else pure number
  fillDigits (absIn w n + 1) (absIn w n) len number

/-- `ft_itoa` -/
def ftItoaIn : (Nat → Buffer) → Int → Checked Filled := itoaIn 32 32

/-- `ft_itoa_max` -/
def ftItoaMaxIn : (Nat → Buffer) → Int → Checked Filled := itoaIn 64 64

/-- `ft_itoa_short`, which counts on an `intmax_t`. -/
def ftItoaShortIn : (Nat → Buffer) → Int → Checked Filled := itoaIn 64 16

/-- `ft_itoa_signchar`, likewise. -/
def ftItoaSigncharIn : (Nat → Buffer) → Int → Checked Filled := itoaIn 64 8

/-- The canonical decimal numeral of a number. -/
def signedDecimal (n : Int) : List UInt8 :=
  if n < 0 then '-'.toUInt8 :: decimal n.natAbs else decimal n.natAbs

/-- The block has the size of the text and its NUL, it holds them, and each index was written once. -/
def Exact (malloc : Nat → Buffer) (text : List UInt8) (number : Filled) : Prop :=
  number.block = (malloc (text.length + 1)).write 0 (text ++ [0]) ∧
    number.written.Perm (List.range (text.length + 1))

variable {w wCount len fuel k : Nat} {n : Int} {malloc : Nat → Buffer} {number : Filled} {c : UInt8}

/-! ## The absolute value -/

theorem absIn_eq (hl : -2 ^ (w - 1) ≤ n) (hu : n < 2 ^ (w - 1)) (hw : 0 < w) :
    absIn w n = n.natAbs := by
  obtain ⟨v, rfl⟩ : ∃ v, w = v + 1 := ⟨w - 1, by omega⟩
  have hpow : (2 : Int) ^ (v + 1) = 2 * 2 ^ v := by ring
  rw [absIn, hpow]
  rw [Nat.add_sub_cancel] at hl hu
  generalize (2 : Int) ^ v = m at *
  split
  · next hneg =>
    have h1 : n % (2 * m) = n + 2 * m := by
      rw [← Int.add_emod_right, Int.emod_eq_of_lt (by omega) (by omega)]
    have h2 : (n + 2 * m) * -1 % (2 * m) = -n := by
      rw [show (n + 2 * m) * -1 = -n - 2 * m by ring, Int.sub_emod_right,
        Int.emod_eq_of_lt (by omega) (by omega)]
    rw [h1, h2]
    omega
  · next hpos =>
    rw [Int.emod_eq_of_lt (by omega) (by omega)]
    omega

/-! ## The digits -/

theorem Filled.store_ok {f : Filled} (hk : k < f.block.size) :
    f.store k c = .ok ⟨f.block.write k [c], k :: f.written⟩ := by
  rw [Filled.store, Buffer.store_write hk]
  rfl

/-- The digits of `n`, most significant first. -/
def digitsText (n : Nat) : List UInt8 :=
  (Nat.digits 10 n).reverse.map fun k => '0'.toUInt8 + UInt8.ofNat k

theorem digitsText_length (n : Nat) : (digitsText n).length = (Nat.digits 10 n).length := by
  rw [digitsText, List.length_map, List.length_reverse]

theorem digitsText_succ {n : Nat} (hn : n ≠ 0) :
    digitsText n = digitsText (n / 10) ++ [UInt8.ofNat (n % 10 + '0'.toNat)] := by
  have hdigit : ∀ k < 10, '0'.toUInt8 + UInt8.ofNat k = UInt8.ofNat (k + '0'.toNat) := by decide
  rw [digitsText, Nat.digits_def' (by decide) (Nat.pos_of_ne_zero hn), List.reverse_cons,
    List.map_append, List.map_singleton, hdigit _ (Nat.mod_lt _ (by decide)), digitsText]

/-- The digits fill the block downwards, as many places as they are. -/
theorem fillDigits_eq {cpN : Nat} (hf : cpN < fuel) (hlen : len = k + (digitsText cpN).length)
    (hs : len ≤ number.block.size) :
    fillDigits fuel cpN len number = .ok
      ⟨number.block.write k (digitsText cpN),
        List.range' k (digitsText cpN).length ++ number.written⟩ := by
  induction fuel generalizing cpN len number with
  | zero => exact absurd hf (Nat.not_lt_zero _)
  | succ fuel ih =>
    unfold fillDigits
    by_cases h0 : cpN = 0
    · subst h0
      rw [if_pos rfl, digitsText, Nat.digits_zero, List.reverse_nil, List.map_nil, Buffer.write_nil]
      rfl
    · have hdiv : cpN / 10 < fuel := by omega
      rw [if_neg h0]
      rw [digitsText_succ h0] at hlen ⊢
      rw [List.length_append, List.length_singleton, ← Nat.add_assoc] at hlen
      subst hlen
      simp only
      rw [Filled.store_ok (by omega), ok_bind,
        ih hdiv rfl (show _ ≤ (Filled.mk (number.block.write _ _) _).block.size from
          Nat.le_of_succ_le hs),
        Buffer.write_write_before rfl, List.length_append, List.length_singleton,
        List.range'_concat, Nat.one_mul, List.append_assoc, List.singleton_append]

theorem decimal_eq_digitsText {n : Nat} (hn : n ≠ 0) : decimal n = digitsText n := if_neg hn

theorem digitsText_pos {n : Nat} (hn : n ≠ 0) : 0 < (digitsText n).length := by
  rw [digitsText_length]
  exact List.length_pos_iff.mpr (Nat.digits_ne_nil_iff_ne_zero.mpr hn)

/-- The count is the length of the numeral. -/
theorem nbDigitIn_eq (hl : -2 ^ (w - 1) ≤ n) (hu : n < 2 ^ (w - 1)) (hw : 0 < w) :
    nbDigitIn w n = (signedDecimal n).length := by
  rw [nbDigitIn, absIn_eq hl hu hw, nbDgInbaseFrom_eq (by decide) (Nat.le_refl _), signedDecimal,
    ← digitsText_length]
  by_cases h0 : n = 0
  · subst h0
    rfl
  · have habs : n.natAbs ≠ 0 := Int.natAbs_ne_zero.mpr h0
    have hpos := digitsText_pos habs
    rw [decimal_eq_digitsText habs]
    split
    · rw [List.length_cons]
      omega
    · omega

theorem pow_mono_int {v : Nat} (h : w ≤ v) : (2 : Int) ^ (w - 1) ≤ 2 ^ (v - 1) :=
  pow_le_pow_right₀ (by decide) (Nat.sub_le_sub_right h 1)

/-- A sign in front, the NUL behind, and the digits downwards between them. -/
theorem exact_negative (m : Buffer) (ds : List UInt8) :
    ((m.write (ds.length + 1) [0]).write 0 [c]).write 1 ds = m.write 0 (c :: ds ++ [0]) ∧
      (List.range' 1 ds.length ++ [0, ds.length + 1]).Perm (List.range (ds.length + 1 + 1)) := by
  constructor
  · calc ((m.write (ds.length + 1) [0]).write 0 [c]).write 1 ds
        = ((m.write (ds.length + 1) [0]).write 1 ds).write 0 [c] :=
          Buffer.write_comm (.inl (Nat.le_refl 1))
      _ = (m.write 1 (ds ++ [0])).write 0 [c] := by
          rw [Buffer.write_write_before (Nat.add_comm _ _)]
      _ = m.write 0 (c :: (ds ++ [0])) := Buffer.write_cons_before
  · have hrange : List.range (ds.length + 1 + 1) =
        0 :: (List.range' 1 ds.length ++ [ds.length + 1]) := by
      rw [List.range_eq_range', List.range'_succ, List.range'_concat, Nat.one_mul, Nat.add_comm 1]
    rw [hrange]
    exact List.perm_middle

theorem exact_positive (m : Buffer) (ds : List UInt8) :
    (m.write ds.length [0]).write 0 ds = m.write 0 (ds ++ [0]) ∧
      (List.range' 0 ds.length ++ [ds.length]).Perm (List.range (ds.length + 1)) := by
  refine ⟨Buffer.write_write_before (Nat.zero_add _).symm, ?_⟩
  rw [List.range_succ, List.range_eq_range']

theorem itoaIn_exact (hm : ∀ n, (malloc n).size = n) (hl : -2 ^ (w - 1) ≤ n)
    (hu : n < 2 ^ (w - 1)) (hw : 0 < w) (hle : w ≤ wCount) :
    ∃ number, itoaIn wCount w malloc n = .ok number ∧ Exact malloc (signedDecimal n) number := by
  have hmono := pow_mono_int hle
  have hlen := nbDigitIn_eq (w := wCount) (n := n) (by omega) (by omega) (by omega)
  have hsize := hm ((signedDecimal n).length + 1)
  rw [itoaIn, hlen, absIn_eq hl hu hw]
  simp only
  unfold Exact
  generalize malloc ((signedDecimal n).length + 1) = m at *
  rw [Filled.store_ok (f := ⟨m, _⟩) (show _ < m.size by omega), ok_bind]
  rcases Int.lt_trichotomy n 0 with hneg | rfl | hpos
  · have habs : n.natAbs ≠ 0 := by omega
    have htext : signedDecimal n = '-'.toUInt8 :: digitsText n.natAbs := by
      rw [signedDecimal, if_pos hneg, decimal_eq_digitsText habs]
    rw [htext, List.length_cons] at hsize ⊢
    rw [if_neg (by omega), pure_eq, ok_bind, if_pos hneg,
      Filled.store_ok (f := ⟨m.write _ _, _⟩) (show _ < m.size by omega), ok_bind,
      fillDigits_eq (k := 1) (Nat.lt_succ_self _) (Nat.add_comm _ _)
        (show _ ≤ m.size by omega)]
    exact ⟨_, rfl, exact_negative m (digitsText n.natAbs)⟩
  · have htext : signedDecimal 0 = ascii "0" := rfl
    rw [htext] at hsize ⊢
    rw [if_pos rfl, Filled.store_ok (f := ⟨m.write _ _, _⟩)
      (by rw [Buffer.size_write, hsize]; decide), ok_bind, if_neg (by decide), pure_eq, ok_bind]
    exact ⟨_, rfl, exact_positive m (ascii "0")⟩
  · have habs : n.natAbs ≠ 0 := by omega
    have htext : signedDecimal n = digitsText n.natAbs := by
      rw [signedDecimal, if_neg (by omega), decimal_eq_digitsText habs]
    rw [htext] at hsize ⊢
    rw [if_neg (by omega), pure_eq, ok_bind, if_neg (by omega), pure_eq, ok_bind,
      fillDigits_eq (k := 0) (Nat.lt_succ_self _) (Nat.zero_add _).symm
        (show _ ≤ m.size by omega)]
    exact ⟨_, rfl, exact_positive m (digitsText n.natAbs)⟩

/-! ## Reading it back -/

theorem mem_decimal {n : Nat} (h : c ∈ decimal n) : isDigit c := by
  have hdigit : ∀ k < 10, isDigit ('0'.toUInt8 + UInt8.ofNat k) := by decide
  unfold decimal at h
  split at h
  · rw [List.mem_singleton.mp h]
    exact hdigit 0 (by decide)
  · obtain ⟨k, hk, rfl⟩ := List.mem_map.mp h
    exact hdigit k (Nat.digits_lt_base (b := 10) (by decide) (List.mem_reverse.mp hk))

theorem decimalValue_digitsText (n : Nat) : decimalValue (digitsText n) = n := by
  induction n using Nat.strongRecOn with
  | ind n ih =>
    by_cases h0 : n = 0
    · subst h0
      rfl
    · have hmod : n % 10 < 10 := Nat.mod_lt _ (by decide)
      have hdigit : ∀ k < 10, (UInt8.ofNat (k + '0'.toNat)).toNat - '0'.toNat = k := by decide
      have hdiv := ih (n / 10) (Nat.div_lt_self (Nat.pos_of_ne_zero h0) (by decide))
      unfold decimalValue at hdiv ⊢
      rw [digitsText_succ h0, List.foldl_append, hdiv, List.foldl_cons, List.foldl_nil,
        hdigit _ hmod]
      exact Nat.div_add_mod' n 10

theorem decimalValue_decimal (n : Nat) : decimalValue (decimal n) = n := by
  by_cases h0 : n = 0
  · subst h0
    rfl
  · rw [decimal_eq_digitsText h0, decimalValue_digitsText]

theorem decimal_ne_nil (n : Nat) : decimal n ≠ [] := by
  by_cases h0 : n = 0
  · subst h0
    exact List.cons_ne_nil _ _
  · rw [decimal_eq_digitsText h0]
    exact List.length_pos_iff.mp (digitsText_pos h0)

theorem isDigit_ne_zero (h : isDigit c) : c ≠ 0 := by
  rintro rfl
  exact absurd h (by decide)

/-- `ft_atoi` takes the numeral of an `int` back to it, also the one whose absolute value is no
`int`. -/
theorem atoi_signedDecimal (hl : -2 ^ 31 ≤ n) (hu : n < 2 ^ 31) : atoi (signedDecimal n) = n := by
  have hval := decimalValue_decimal n.natAbs
  have hdigits : ∀ c ∈ decimal n.natAbs, isDigit c := fun c hc => mem_decimal hc
  have hend : ¬ isDigit (([] : List UInt8).getD 0 0) := by decide
  unfold signedDecimal
  split
  · next hneg =>
    have hdigitsVal := atoiDigits_append (n := 0) hdigits hend (by
      rw [← decimalValue, hval]
      omega)
    rw [← decimalValue, hval, List.append_nil] at hdigitsVal
    have hresult : ¬ (n.natAbs : Int) < 0 := Int.not_lt.mpr (Int.natCast_nonneg _)
    rw [atoi, List.dropWhile_cons_of_neg (by decide)]
    refine (if_neg fun h => hresult (hdigitsVal ▸ h.1)).trans ?_
    refine (if_neg fun h => hresult (hdigitsVal ▸ h.1)).trans ?_
    refine (congrArg (fun z => int32 (z * -1)) hdigitsVal).trans ?_
    rw [int32_of_range (by omega) (by omega)]
    omega
  · next hpos =>
    have h := atoi_append hdigits hend (.inl (decimal_ne_nil _)) (by rw [hval]; omega)
    rw [List.append_nil, hval] at h
    rw [h]
    omega

theorem textAt_write {m : Buffer} {p : Nat} {t : List UInt8} (hne : ∀ b ∈ t, b ≠ 0)
    (hs : p + t.length < m.size) : TextAt (m.write p (t ++ [0])) p t where
  load k hk := by
    rw [Buffer.load_ok (by rw [Buffer.size_write]; omega),
      Buffer.byte_write_in (by rw [List.length_append, List.length_singleton]; omega)]
    congr 1
    rcases Nat.lt_or_eq_of_le hk with hlt | rfl
    · rw [List.getElem_append_left hlt, List.getD_eq_getElem t 0 hlt]
    · rw [List.getElem_append_right (Nat.le_refl _), List.getElem_singleton,
        List.getD_eq_default t 0 (Nat.le_refl _)]
  ne_zero := hne

theorem signedDecimal_ne_zero : ∀ b ∈ signedDecimal n, b ≠ 0 := by
  intro b hb
  unfold signedDecimal at hb
  split at hb
  · rcases List.mem_cons.mp hb with rfl | hb
    · decide
    · exact isDigit_ne_zero (mem_decimal hb)
  · exact isDigit_ne_zero (mem_decimal hb)

/-- What the printing functions are given is the text in the block. -/
theorem signedDecimal_eq (hn : n.natAbs < 2 ^ 64) : itoaSigned n = signedDecimal n := by
  rw [itoaSigned, decimal_eq hn, signedDecimal]

/-- Each function writes every index of its block once and leaves the canonical numeral, over the
whole range of its type, and `ft_atoi` of it is the number. -/
theorem itoa_exact (malloc : Nat → Buffer) (hm : ∀ n, (malloc n).size = n) :
    (∀ n : Int, -2 ^ 31 ≤ n → n < 2 ^ 31 → ∃ number, ftItoaIn malloc n = .ok number ∧
      Exact malloc (signedDecimal n) number ∧ ftAtoi number.block 0 = .ok n) ∧
    (∀ n : Int, -2 ^ 63 ≤ n → n < 2 ^ 63 → ∃ number, ftItoaMaxIn malloc n = .ok number ∧
      Exact malloc (signedDecimal n) number) ∧
    (∀ n : Int, -2 ^ 15 ≤ n → n < 2 ^ 15 → ∃ number, ftItoaShortIn malloc n = .ok number ∧
      Exact malloc (signedDecimal n) number) ∧
    (∀ n : Int, -2 ^ 7 ≤ n → n < 2 ^ 7 → ∃ number, ftItoaSigncharIn malloc n = .ok number ∧
      Exact malloc (signedDecimal n) number) := by
  refine ⟨fun n hl hu => ?_, fun n hl hu => ?_, fun n hl hu => ?_, fun n hl hu => ?_⟩
  · obtain ⟨number, hnumber, hexact⟩ :=
      itoaIn_exact (w := 32) hm hl hu (by decide) (Nat.le_refl 32)
    refine ⟨number, hnumber, hexact, ?_⟩
    rw [hexact.1, ftAtoi_ok (textAt_write signedDecimal_ne_zero (by rw [hm]; omega)),
      atoi_signedDecimal hl hu]
  · exact itoaIn_exact (w := 64) hm hl hu (by decide) (Nat.le_refl _)
  · exact itoaIn_exact (w := 16) hm hl hu (by decide) (by decide)
  · exact itoaIn_exact (w := 8) hm hl hu (by decide) (by decide)

theorem itoa_exact_min : ∃ number, ftItoaIn (fun n => .ofBytes n []) (-2 ^ 31) = .ok number ∧
    Exact (fun n => .ofBytes n []) (signedDecimal (-2 ^ 31)) number ∧
    ftAtoi number.block 0 = .ok (-2 ^ 31) :=
  (itoa_exact (fun n => .ofBytes n []) fun _ => rfl).1 (-2 ^ 31) (Int.le_refl _) (by decide)

end NmOtool
