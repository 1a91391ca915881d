import NmOtool.Printf.Decimal

/-!
# ft_printf: unsigned conversions

`unsignedText` is the text that C gives a number for `%u`, `%o`, `%x` or `%X`: its digits in the base
of the conversion filled up to the precision, the alternate form, and blanks or zeros up to the
width. The conversions write it for every number that is not zero, and for most fields of the zero;
`hh` and `h` do not reduce the number, and `%o` needs a block that holds its digits.
-/

namespace NmOtool

open MachO Checked

/-! ## The text of C -/

inductive UnsignedLetter where
  | u | o | x | bigX
  deriving DecidableEq, Repr

namespace UnsignedLetter

/-- The conversion of the table `set`. -/
def con (mem : Memory) : UnsignedLetter → Con
  | u => conU
  | o => conO mem
  | x => conX mem
  | bigX => conBigx mem

/-- The digits of the base. -/
def base : UnsignedLetter → List UInt8
  | u => ascii "0123456789"
  | o => ascii "01234567"
  | x => ascii "0123456789abcdef"
  | bigX => ascii "0123456789ABCDEF"

/-- What the alternate form puts in front of a number that is not zero. -/
def alternate : UnsignedLetter → List UInt8
  | u | o => []
  | x => ascii "0x"
  | bigX => ascii "0X"

end UnsignedLetter

/-- The argument as the type of the length modifier, for one of 64 bits. -/
def unsignedValue (cast : TCast) (arg : BitVec 64) : Nat :=
  match cast with
  | .hh => (arg.setWidth 8).toNat
  | .h => (arg.setWidth 16).toNat
  | .none => (arg.setWidth 32).toNat
  | .l | .ll | .j | .z => arg.toNat

/-- The digits, at least as many as the precision; none for a zero with the precision 0. -/
def unsignedDigits (c : UnsignedLetter) (precision : Option Nat) (v : Nat) : List UInt8 :=
  let digits := if v = 0 ∧ precision = some 0 then [] else numeralOf c.base v
  List.replicate (precision.getD 1 - digits.length) '0'.toUInt8 ++ digits

/-- The alternate form of `%o` has a '0' for its first digit. -/
def unsignedNumber (c : UnsignedLetter) (flags : List UInt8) (precision : Option Nat) (v : Nat) :
    List UInt8 :=
  let digits := unsignedDigits c precision v
  if '#'.toUInt8 ∈ flags ∧ c = .o ∧ digits.head? ≠ some '0'.toUInt8 then '0'.toUInt8 :: digits
  else digits

/-- The text of `v` for the conversion `c`. -/
def unsignedText (c : UnsignedLetter) (flags : List UInt8) (width : Nat) (precision : Option Nat)
    (v : Nat) : List UInt8 :=
  inField flags width precision (if '#'.toUInt8 ∈ flags ∧ v ≠ 0 then c.alternate else [])
    (unsignedNumber c flags precision v)

/-! ## The conversions -/

namespace UnsignedLetter

variable (c : UnsignedLetter)

/-- What `conUnsigned` takes for the prefix. -/
def preFix : UnsignedLetter → List UInt8
  | u => []
  | o => ascii "0"
  | x => ascii "0x"
  | bigX => ascii "0X"

theorem preFix_length : c.preFix.length ≤ 2 := by
  cases c <;> decide

theorem setBase_oct : setBase 8 = ascii "01234567" := by decide +kernel

theorem digitBase : DigitBase c.base := by
  cases c with
  | u => exact digitBase_dec
  | o =>
    rw [base, ← setBase_oct]
    exact digitBase_setBase (by decide) (by decide)
  | x => exact digitBase_hex
  | bigX => exact digitBase_bigHex

/-- The block that `malloc` gives for the numeral of `v` holds it: not so only in base eight. -/
def HasRoom (v : Nat) : Prop := c = .o → FitsDecimal 8 v

instance (v : Nat) : Decidable (c.HasRoom v) := inferInstanceAs (Decidable (_ → _))

/-- The numeral of a conversion is the one in its base, if the block holds it. -/
theorem con_numeral {mem : Memory} (hm : ∀ n, (mem.malloc n).size = n) :
    ∃ numeral, c.con mem = conUnsigned numeral c.preFix ∧ ∀ cast arg, numeral cast arg =
      if c.HasRoom (castNu cast arg) then .ok (numeralOf c.base (castNu cast arg)) else .fault := by
  have hle : ∀ n, n ≤ (mem.malloc n).size := fun n => Nat.le_of_eq (hm n).symm
  cases c with
  | u =>
    refine ⟨fun cast arg => pure (ftItoaUnmax (castNu cast arg)), rfl, fun cast arg => ?_⟩
    rw [if_pos nofun]
    exact congrArg Checked.ok (ftItoaUnmax_eq (castNu_lt cast arg))
  | o =>
    refine ⟨fun cast arg => itoaBase mem.malloc (castNu cast arg) 10 8, rfl, fun cast arg => ?_⟩
    have hroom : UnsignedLetter.o.HasRoom (castNu cast arg) ↔
        (numeralOf (setBase 8) (castNu cast arg)).length <
          (mem.malloc (nbDgInbase (castNu cast arg) 10 + 1)).size :=
      (forall_prop_of_true rfl).trans (room_iff hm (setBase 8) (castNu cast arg)).symm
    change itoaBase mem.malloc (castNu cast arg) 10 8 = _
    rw [itoaBase_eq mem.malloc (by decide) (by decide) (castNu_lt cast arg), base, ← setBase_oct]
    exact if_congr hroom.symm rfl rfl
  | x =>
    refine ⟨fun cast arg => itoaHex mem.malloc (castNu cast arg), rfl, fun cast arg => ?_⟩
    rw [if_pos nofun]
    exact itoaHex_eq hle (castNu_lt cast arg)
  | bigX =>
    refine ⟨fun cast arg => itoaBigHex mem.malloc (castNu cast arg), rfl, fun cast arg => ?_⟩
    rw [if_pos nofun]
    exact itoaBigHex_eq hle (castNu_lt cast arg)

end UnsignedLetter

/-- `data` with the numeral of `v`. -/
def unsignedData (c : UnsignedLetter) (cast : TCast) (flags : List UInt8) (width : Nat)
    (precision : Option Nat) (v : Nat) : TData :=
  { fieldData flags width precision with ori := numeralOf c.base v, cast }

variable {c : UnsignedLetter} {cast : TCast} {flags : List UInt8} {width : Nat}
  {precision : Option Nat} {v : Nat} {mem : Memory} {m : Buffer} {p size : Nat}
  {args args' : VaList}

/-- A conversion reads its directive and writes the argument behind it. -/
theorem con_eq (hm : ∀ n, (mem.malloc n).size = n)
    (h : setData m p size args = .ok ({ fieldData flags width precision with cast }, args')) :
    c.con mem m p size args = if c.HasRoom (castNu cast (args' 0)) then
      .ok (((unsignedData c cast flags width precision (castNu cast (args' 0))).setPrintOxuHash
          c.preFix).1,
        ((unsignedData c cast flags width precision (castNu cast (args' 0))).setPrintOxuHash
          c.preFix).2, args'.rest)
      else .fault := by
  obtain ⟨numeral, hcon, hnum⟩ := c.con_numeral hm
  rw [hcon, conUnsigned, h, ok_bind]
  simp only [hnum]
  split
  · rfl
  · rfl

/-! ## A number that is not zero -/

theorem unsignedData_field :
    (unsignedData c cast flags width precision v).HasField flags width precision := ⟨rfl, rfl, rfl⟩

theorem unsignedData_digits : (unsignedData c cast flags width precision v).digits =
    numeralOf c.base v := by
  have hminus : (unsignedData c cast flags width precision v).oriMinus = false :=
    beq_eq_false_iff_ne.mpr (numeral_numeralOf c.digitBase).head_ne_minus
  rw [TData.digits, hminus]
  rfl

theorem unsignedData_parsed (hv : v < 2 ^ 64) (hw : width < 2 ^ 31)
    (hp : ∀ p ∈ precision, p < 2 ^ 31) :
    (unsignedData c cast flags width precision v).Parsed := by
  apply unsignedData_field.parsed hw hp
  · rw [unsignedData_digits]
    exact (numeral_numeralOf c.digitBase).ne_nil
  · have := length_numeralOf c.digitBase.toAlphabet hv
    change (numeralOf c.base v).length + 2 < 2 ^ 31
    omega
  · rfl

/-- The first digit of a number is no zero. -/
theorem head_unsigned (h0 : v ≠ 0) : (numeralOf c.base v).getD 0 0 ≠ '0'.toUInt8 := by
  intro hz
  obtain ⟨k, l, hl, hk, hlt⟩ := head_numeralOf c.digitBase.toAlphabet h0
  rw [hl, List.getD_cons_zero, ← c.digitBase.zero] at hz
  have hpos := congrArg (positionInBase c.base) hz
  rw [positionInBase_getD c.digitBase.toAlphabet hlt,
    positionInBase_getD c.digitBase.toAlphabet (by omega)] at hpos
  omega

theorem ascii_zero : ascii "0" = List.replicate 1 '0'.toUInt8 := rfl

/-- A zero in front of a number is a digit of it. -/
theorem inField_zero (number : List UInt8) : inField flags width precision (ascii "0") number =
    inField flags width precision [] ('0'.toUInt8 :: number) := by
  have hpad : width - ((ascii "0").length + number.length) =
      width - (([] : List UInt8).length + ('0'.toUInt8 :: number).length) := by
    rw [List.length_nil, List.length_cons, Nat.zero_add, Nat.add_comm number.length]
    rfl
  have hcons : '0'.toUInt8 :: number = List.replicate 1 '0'.toUInt8 ++ number := rfl
  rw [inField, inField, hpad]
  simp only [ascii_zero, hcons, List.nil_append, List.append_nil]
  split_ifs
  · rfl
  · rw [← List.append_assoc, List.replicate_append_replicate, List.replicate_append_replicate,
      Nat.add_comm]
  · rw [List.append_assoc]

theorem unsignedDigits_of_ne (h0 : v ≠ 0) : unsignedDigits c precision v =
    List.replicate (precision.getD 1 - (numeralOf c.base v).length) '0'.toUInt8 ++
      numeralOf c.base v := by
  rw [unsignedDigits, if_neg fun h => h0 h.1]

/-- The prefix "0" stands in front of a number that the precision gives no zero. -/
theorem octal_number (h0 : v ≠ 0) (hv : v < 2 ^ 64) (hw : width < 2 ^ 31)
    (hp : ∀ p ∈ precision, p < 2 ^ 31) (hash : '#'.toUInt8 ∈ flags) :
    inField flags width precision
        ((unsignedData .o cast flags width precision v).hashPrefix (ascii "0"))
        (unsignedDigits .o precision v) =
      inField flags width precision [] (unsignedNumber .o flags precision v) := by
  have hparsed : (unsignedData .o cast flags width precision v).Parsed :=
    unsignedData_parsed hv hw hp
  have hne := (numeral_numeralOf (n := v) (UnsignedLetter.digitBase .o)).ne_nil
  have hflag : (unsignedData .o cast flags width precision v).flag '#' = true := by
    rw [unsignedData_field.flag (by decide)]
    exact decide_eq_true hash
  have hpadded : (unsignedData .o cast flags width precision v).octalPadded (ascii "0") =
      decide ((numeralOf (UnsignedLetter.base .o) v).length < precision.getD 1) := by
    have hpos := List.length_pos_iff.mpr hne
    rw [TData.octalPadded, hparsed.strlen, unsignedData_field.precison]
    change (true && decide _) = _
    rw [Bool.true_and, decide_eq_decide]
    change ((numeralOf (UnsignedLetter.base .o) v).length : Int) < _ ↔ _
    cases precision with
    | none =>
      change ((numeralOf (UnsignedLetter.base .o) v).length : Int) < -1 ↔
        (numeralOf (UnsignedLetter.base .o) v).length < 1
      omega
    | some p => exact Nat.cast_lt
  rw [TData.hashPrefix, hflag, hpadded, Bool.true_and, unsignedNumber, unsignedDigits_of_ne h0]
  by_cases hlt : (numeralOf (UnsignedLetter.base .o) v).length < precision.getD 1
  · obtain ⟨n, hn⟩ := Nat.exists_eq_add_of_lt hlt
    have hzeros : precision.getD 1 - (numeralOf (UnsignedLetter.base .o) v).length = n + 1 := by
      omega
    rw [if_neg (by simp [hlt]), hzeros, List.replicate_succ, List.cons_append,
      if_neg fun h => h.2.2 rfl]
  · have hzeros : precision.getD 1 - (numeralOf (UnsignedLetter.base .o) v).length = 0 := by omega
    have hhead : (numeralOf (UnsignedLetter.base .o) v).head? ≠ some '0'.toUInt8 := by
      intro hz
      refine head_unsigned (c := .o) h0 ?_
      rw [List.getD_eq_getElem?_getD, ← List.head?_eq_getElem?, hz]
      rfl
    rw [if_pos (by simp [hlt]), hzeros, List.replicate_zero, List.nil_append,
      if_pos ⟨hash, rfl, hhead⟩, inField_zero]

/-- A number that is not zero is written as C has it. -/
theorem setPrintOxuHash_unsignedData (h0 : v ≠ 0) (hv : v < 2 ^ 64) (hw : width < 2 ^ 31)
    (hp : ∀ p ∈ precision, p < 2 ^ 31) :
    ((unsignedData c cast flags width precision v).setPrintOxuHash c.preFix).1 =
      unsignedText c flags width precision v := by
  have hz : (unsignedData c cast flags width precision v).oriZero = false :=
    beq_eq_false_iff_ne.mpr (head_unsigned h0)
  have hflag : (unsignedData c cast flags width precision v).flag '#' =
      decide ('#'.toUInt8 ∈ flags) := unsignedData_field.flag (by decide)
  have hori : (unsignedData c cast flags width precision v).ori = numeralOf c.base v := rfl
  rw [TData.setPrintOxuHash_text (unsignedData_parsed hv hw hp) hz c.preFix_length, hori,
    unsignedData_field.numberText (numeral_numeralOf c.digitBase).ne_nil,
    ← unsignedDigits_of_ne (c := c) h0, unsignedText]
  by_cases hash : '#'.toUInt8 ∈ flags
  · rw [if_pos ⟨hash, h0⟩]
    cases c with
    | o => exact octal_number h0 hv hw hp hash
    | u =>
      have hfront : (unsignedData .u cast flags width precision v).hashPrefix [] = [] := ite_self _
      rw [unsignedNumber, if_neg fun h => by cases h.2.1]
      exact congrArg (fun front => inField flags width precision front _) hfront
    | x | bigX =>
      rw [unsignedNumber, if_neg fun h => (by cases h.2.1), TData.hashPrefix, hflag,
        decide_eq_true hash]
      rfl
  · rw [if_neg fun h => hash h.1, unsignedNumber, if_neg fun h => hash h.1, TData.hashPrefix, hflag,
      decide_eq_false hash]
    rfl

/-! ## The zero -/

/-- Where the zero goes wrong: zeros for the blanks behind it, or blanks for the '0' of the alternate
form. -/
def ZeroMisplaced (c : UnsignedLetter) (flags : List UInt8) (width : Nat) (precision : Option Nat) :
    Prop :=
  precision = none ∧ '-'.toUInt8 ∈ flags ∧ '0'.toUInt8 ∈ flags ∧ 1 < width ∨
    precision = some 0 ∧ c = .o ∧ '#'.toUInt8 ∈ flags ∧ 0 < width

theorem numeral_zero : numeralOf c.base 0 = ascii "0" := by
  rw [numeralOf, if_pos rfl, c.digitBase.zero]
  rfl

theorem unsignedText_zero : unsignedText c flags width precision 0 =
    inField flags width precision [] (unsignedNumber c flags precision 0) := by
  rw [unsignedText, if_neg fun h => h.2 rfl]

/-- The zero in its field: zeros for the padding with the flag '0', also behind it. -/
theorem zero_none_text (hw : width < 2 ^ 31) :
    ((unsignedData c cast flags width none 0).setPrintOxuHash c.preFix).1 =
      if '0'.toUInt8 ∈ flags then List.replicate (max width 1) '0'.toUInt8
      else if '-'.toUInt8 ∈ flags then ascii "0" ++ List.replicate (width - 1) ' '.toUInt8
      else List.replicate (width - 1) ' '.toUInt8 ++ ascii "0" := by
  have hori : (unsignedData c cast flags width none 0).ori = ascii "0" := numeral_zero
  have hlen : (max (width : Int) 1).toNat = max width 1 := by omega
  have hpad : (max (width : Int) 1 - 1).toNat = width - 1 := by omega
  have hone : ftPutnchar '0' 1 = ascii "0" := rfl
  rw [TData.setPrintOxuHash_zero (unsignedData_parsed (by decide) hw (by simp)) hori rfl,
    if_neg fun h => (by cases h.2)]
  refine (if_pos rfl).trans ?_
  rw [TData.flag_of_flags flags rfl (by decide), TData.flag_of_flags flags rfl (by decide), hone]
  simp only [decide_eq_true_eq, Bool.not_eq_true', decide_eq_false_iff_not]
  change (if _ then ftPutnchar '0' (max (width : Int) 1) else if _ then
    ftPutnchar ' ' (max (width : Int) 1 - 1) ++ _ else _ ++ ftPutnchar ' ' (max (width : Int) 1 - 1))
    = _
  rw [ftPutnchar, ftPutnchar, hlen, hpad]
  by_cases hz : '0'.toUInt8 ∈ flags
  · rw [if_pos hz, if_pos hz]
  · rw [if_neg hz, if_neg hz, ite_not]

/-- The zero without a precision. -/
theorem zero_none (hw : width < 2 ^ 31) :
    ((unsignedData c cast flags width none 0).setPrintOxuHash c.preFix).1 =
      unsignedText c flags width none 0 ↔ ¬ ZeroMisplaced c flags width none := by
  have hnumber : unsignedNumber c flags none 0 = ascii "0" := by
    have hdigits : unsignedDigits c none 0 = ascii "0" := by
      rw [unsignedDigits, if_neg fun h => (by cases h.2), numeral_zero]
      rfl
    rw [unsignedNumber, hdigits]
    exact if_neg fun h => h.2.2 rfl
  have hpad : width - (([] : List UInt8).length + (ascii "0").length) = width - 1 := rfl
  have hbad : ZeroMisplaced c flags width none ↔
      '-'.toUInt8 ∈ flags ∧ '0'.toUInt8 ∈ flags ∧ 1 < width := by simp [ZeroMisplaced]
  rw [zero_none_text hw, unsignedText_zero, hnumber, inField, hpad, hbad]
  by_cases hm : '-'.toUInt8 ∈ flags
  · rw [if_pos hm, if_pos hm]
    by_cases hz : '0'.toUInt8 ∈ flags
    · rw [if_pos hz]
      by_cases h1 : 1 < width
      · refine iff_of_false (fun h => ?_) (not_not_intro ⟨hm, hz, h1⟩)
        obtain ⟨n, rfl⟩ := Nat.exists_eq_add_of_lt h1
        have hn : max (1 + n + 1) 1 = n + 1 + 1 := by omega
        have hn' : 1 + n + 1 - 1 = n + 1 := by omega
        rw [hn, hn'] at h
        exact absurd (List.cons.inj (List.cons.inj h).2).1 (by decide)
      · have hn : width - 1 = 0 := by omega
        have hmax : max width 1 = 1 := by omega
        rw [hn, hmax]
        exact iff_of_true rfl fun h => h1 h.2.2
    · rw [if_neg hz]
      exact iff_of_true rfl fun h => hz h.2.1
  · rw [if_neg hm, if_neg hm]
    refine iff_of_true ?_ fun h => hm h.1
    by_cases hz : '0'.toUInt8 ∈ flags
    · have hmax : max width 1 = width - 1 + 1 := by omega
      rw [if_pos hz, if_pos ⟨hz, rfl⟩, List.nil_append, ascii_zero,
        List.replicate_append_replicate, hmax]
    · rw [if_neg hz, if_neg fun h => hz h.1, List.append_nil]

/-- The zero with a precision: its digits, all zeros, and blanks. -/
theorem zero_some_text {n : Nat} (hw : width < 2 ^ 31) (hn : n < 2 ^ 31) :
    ((unsignedData c cast flags width (some n) 0).setPrintOxuHash c.preFix).1 =
      if width = 0 ∧ n = 0 then if '#'.toUInt8 ∈ flags ∧ c = .o then ascii "0" else []
      else if '-'.toUInt8 ∈ flags then
        List.replicate n '0'.toUInt8 ++ List.replicate (width - n) ' '.toUInt8
      else List.replicate (width - n) ' '.toUInt8 ++ List.replicate n '0'.toUInt8 := by
  have hori : (unsignedData c cast flags width (some n) 0).ori = ascii "0" := numeral_zero
  have hpos : (n : Int) ≠ -1 := by omega
  have hcount : (unsignedData c cast flags width (some n) 0).zeroCount = n := if_neg hpos
  have hpre : ((unsignedData c cast flags width (some n) 0).precison == -1) = false :=
    beq_eq_false_iff_ne.mpr hpos
  have hpad : (max (width : Int) n - n).toNat = width - n := by omega
  have hempty : (unsignedData c cast flags width (some n) 0).width = 0 ∧
      (unsignedData c cast flags width (some n) 0).precison = 0 ↔ width = 0 ∧ n = 0 :=
    and_congr Int.natCast_eq_zero Int.natCast_eq_zero
  have hoct : (c.preFix == ascii "0") = decide (c = .o) := by
    cases c <;> decide
  rw [TData.setPrintOxuHash_zero (unsignedData_parsed (by decide) hw (by simpa using hn)) hori rfl,
    hcount, hpre]
  by_cases h0 : width = 0 ∧ n = 0
  · rw [if_pos (hempty.mpr h0), if_pos h0, TData.flag_of_flags flags rfl (by decide), hoct]
    simp only [Bool.and_eq_true, decide_eq_true_eq]
  · rw [if_neg (mt hempty.mp h0), if_neg h0]
    refine (if_neg Bool.false_ne_true).trans ?_
    rw [TData.putNopre, TData.flag_of_flags flags rfl (by decide)]
    change (if _ then ftPutnchar ' ' (max (width : Int) n - n) ++ ftPutnchar '0' n else
      ftPutnchar '0' n ++ ftPutnchar ' ' (max (width : Int) n - n)) = _
    rw [ftPutnchar, ftPutnchar, hpad, Int.toNat_natCast]
    simp only [Bool.not_eq_true', decide_eq_false_iff_not, ite_not]

/-- The digits of a zero with a precision are zeros. -/
theorem unsignedDigits_zero (n : Nat) :
    unsignedDigits c (some n) 0 = List.replicate n '0'.toUInt8 := by
  cases n with
  | zero => rw [unsignedDigits, if_pos ⟨rfl, rfl⟩]; rfl
  | succ n =>
    have hlen : (some (n + 1)).getD 1 - (List.replicate 1 '0'.toUInt8).length = n := rfl
    rw [unsignedDigits, if_neg (by simp), numeral_zero, ascii_zero, hlen,
      List.replicate_append_replicate]

/-- Zeros in their field, where the precision says how many. -/
theorem inField_zeros {n k : Nat} : inField flags width (some n) [] (List.replicate k '0'.toUInt8) =
    if '-'.toUInt8 ∈ flags then
      List.replicate k '0'.toUInt8 ++ List.replicate (width - k) ' '.toUInt8
    else List.replicate (width - k) ' '.toUInt8 ++ List.replicate k '0'.toUInt8 := by
  have hpad : width - (([] : List UInt8).length + (List.replicate k '0'.toUInt8).length) =
      width - k := by
    rw [List.length_nil, List.length_replicate, Nat.zero_add]
  rw [inField, hpad, List.nil_append, List.append_nil, if_neg (c := _ ∧ _) fun h => (by cases h.2)]

theorem mem_inField_zeros {n k : Nat} :
    '0'.toUInt8 ∈ inField flags width (some n) [] (List.replicate k '0'.toUInt8) ↔ k ≠ 0 := by
  have hne : '0'.toUInt8 ≠ ' '.toUInt8 := by decide
  rw [inField_zeros]
  split <;> simp [List.mem_replicate, hne]

/-- The zero with a precision. -/
theorem zero_some {n : Nat} (hw : width < 2 ^ 31) (hn : n < 2 ^ 31) :
    ((unsignedData c cast flags width (some n) 0).setPrintOxuHash c.preFix).1 =
      unsignedText c flags width (some n) 0 ↔ ¬ ZeroMisplaced c flags width (some n) := by
  have hbad : ZeroMisplaced c flags width (some n) ↔
      n = 0 ∧ c = .o ∧ '#'.toUInt8 ∈ flags ∧ 0 < width := by simp [ZeroMisplaced]
  rw [zero_some_text hw hn, unsignedText_zero, unsignedNumber, unsignedDigits_zero, hbad,
    ← inField_zeros (n := n)]
  cases n with
  | succ n =>
    rw [if_neg (by simp), if_neg fun h => h.2.2 rfl]
    exact iff_of_true rfl fun h => by cases h.1
  | zero =>
    by_cases hoct : '#'.toUInt8 ∈ flags ∧ c = .o
    · have hone : '0'.toUInt8 :: List.replicate 0 '0'.toUInt8 = List.replicate 1 '0'.toUInt8 := rfl
      have hhead : (List.replicate 0 '0'.toUInt8).head? ≠ some '0'.toUInt8 := by simp
      rw [if_pos (c := _ ∧ _ ∧ _) ⟨hoct.1, hoct.2, hhead⟩, hone]
      by_cases h0 : width = 0
      · subst h0
        rw [if_pos ⟨rfl, rfl⟩, if_pos hoct, inField_zeros]
        refine iff_of_true ?_ fun h => absurd h.2.2.2 (Nat.lt_irrefl 0)
        split <;> rfl
      · rw [if_neg fun h => h0 h.1]
        refine iff_of_false (fun h => ?_)
          (not_not_intro ⟨rfl, hoct.2, hoct.1, Nat.pos_of_ne_zero h0⟩)
        -- the blanks hold no '0'
        exact mem_inField_zeros.mp (h ▸ mem_inField_zeros.mpr Nat.one_ne_zero) rfl
    · rw [if_neg (c := _ ∧ _ ∧ _) fun h => hoct ⟨h.1, h.2.1⟩, if_neg hoct]
      refine iff_of_true ?_ fun h => hoct ⟨h.2.2.1, h.2.1⟩
      by_cases h0 : width = 0
      · subst h0
        rw [if_pos ⟨rfl, rfl⟩, inField_zeros]
        split <;> rfl
      · rw [if_neg fun h => h0 h.1]

/-! ## A text has one number -/

/-- The number that a text shows, read in a base over what is no digit. -/
def readText (base text : List UInt8) : Nat :=
  text.foldl (fun n b => if b ∈ base then (n * base.length + positionInBase base b) % 2 ^ 64 else n) 0

theorem skipped (c : UnsignedLetter) :
    ∀ b ∈ ascii " 0xX", b ∈ c.base → positionInBase c.base b = 0 := by
  cases c <;> decide +kernel

theorem blank_not_mem (c : UnsignedLetter) : ' '.toUInt8 ∉ c.base := by
  cases c <;> decide +kernel

theorem readText_skipped {text : List UInt8} (h : ∀ b ∈ text, b ∈ ascii " 0xX") :
    readText c.base text = 0 := by
  unfold readText
  induction text with
  | nil => rfl
  | cons b text ih =>
    have hb : (if b ∈ c.base then (0 * c.base.length + positionInBase c.base b) % 2 ^ 64 else 0) =
        0 := by
      split_ifs with hmem
      · rw [skipped c b (h b List.mem_cons_self) hmem, Nat.zero_mul]
        rfl
      · rfl
    rw [List.foldl_cons, hb]
    exact ih fun b hb => h b (List.mem_cons_of_mem _ hb)

theorem readText_append {front text : List UInt8} (h : ∀ b ∈ front, b ∈ ascii " 0xX") :
    readText c.base (front ++ text) = readText c.base text := by
  have hfront : List.foldl _ 0 front = 0 := readText_skipped (c := c) h
  rw [readText, List.foldl_append, hfront]
  rfl

theorem readText_blanks {text blanks : List UInt8} (h : ∀ b ∈ blanks, b = ' '.toUInt8) :
    readText c.base (text ++ blanks) = readText c.base text := by
  unfold readText
  rw [List.foldl_append]
  generalize List.foldl _ 0 text = n
  induction blanks with
  | nil => rfl
  | cons b blanks ih =>
    rw [List.foldl_cons, if_neg (h b List.mem_cons_self ▸ blank_not_mem c)]
    exact ih fun b hb => h b (List.mem_cons_of_mem _ hb)

theorem readText_numeralOf (hv : v < 2 ^ 64) : readText c.base (numeralOf c.base v) = v := by
  have hmem : ∀ b ∈ numeralOf c.base v, b ∈ c.base := by
    intro b hb
    unfold numeralOf at hb
    split_ifs at hb
    · rw [List.mem_singleton.mp hb, List.getD_eq_getElem _ 0 (Nat.zero_lt_of_lt c.digitBase.one_lt)]
      exact List.getElem_mem _
    · rw [List.mem_reverse, List.mem_map] at hb
      obtain ⟨k, hk, rfl⟩ := hb
      have hlt := Nat.digits_lt_base c.digitBase.one_lt hk
      rw [List.getD_eq_getElem _ 0 hlt]
      exact List.getElem_mem _
  have hfold : ∀ (l : List UInt8) (n : Nat), (∀ b ∈ l, b ∈ c.base) →
      l.foldl (fun n b =>
        if b ∈ c.base then (n * c.base.length + positionInBase c.base b) % 2 ^ 64 else n) n =
      l.foldl (fun n b => (n * c.base.length + positionInBase c.base b) % 2 ^ 64) n := by
    intro l
    induction l with
    | nil => exact fun n _ => rfl
    | cons b l ih =>
      intro n hl
      rw [List.foldl_cons, List.foldl_cons, if_pos (hl b List.mem_cons_self)]
      exact ih _ fun b hb => hl b (List.mem_cons_of_mem _ hb)
  rw [readText, hfold _ _ hmem]
  exact inTenB_numeralOf c.digitBase.toAlphabet hv

theorem blanks_skipped (k : Nat) : ∀ b ∈ List.replicate k ' '.toUInt8, b ∈ ascii " 0xX" := by
  intro b hb
  rw [List.eq_of_mem_replicate hb]
  exact List.mem_cons_self

theorem zeros_skipped (k : Nat) : ∀ b ∈ List.replicate k '0'.toUInt8, b ∈ ascii " 0xX" := by
  intro b hb
  rw [List.eq_of_mem_replicate hb]
  exact List.mem_cons_of_mem _ List.mem_cons_self

/-- A number in its field, between what is skipped and blanks. -/
theorem readText_inField {front number : List UInt8} (h : ∀ b ∈ front, b ∈ ascii " 0xX") :
    readText c.base (inField flags width precision front number) = readText c.base number := by
  unfold inField
  split_ifs
  · rw [readText_blanks fun b hb => List.eq_of_mem_replicate hb, readText_append h]
  · rw [List.append_assoc, readText_append h, readText_append (zeros_skipped _)]
  · rw [List.append_assoc, readText_append (blanks_skipped _), readText_append h]

/-- The text of a number shows it. -/
theorem readText_unsignedText (hv : v < 2 ^ 64) :
    readText c.base (unsignedText c flags width precision v) = v := by
  have hfront : ∀ b ∈ if '#'.toUInt8 ∈ flags ∧ v ≠ 0 then c.alternate else [],
      b ∈ ascii " 0xX" := by
    split_ifs
    · cases c <;> decide +kernel
    · exact List.forall_mem_nil _
  have hdigits : readText c.base (unsignedDigits c precision v) = v := by
    rw [unsignedDigits, readText_append (zeros_skipped _)]
    split_ifs with h0
    · exact h0.1.symm
    · exact readText_numeralOf hv
  rw [unsignedText, readText_inField hfront, unsignedNumber]
  split_ifs
  · have hfirst : ∀ b ∈ ascii "0", b ∈ ascii " 0xX" := zeros_skipped 1
    exact (readText_append hfirst).trans hdigits
  · exact hdigits

/-! ## Every argument -/

/-- The argument is one of the type of the length modifier, where this is narrower than an `int`. -/
def ArgumentFits (cast : TCast) (arg : BitVec 64) : Prop :=
  (cast = .hh → (arg.setWidth 32).toNat < 2 ^ 8) ∧ (cast = .h → (arg.setWidth 32).toNat < 2 ^ 16)

theorem unsignedValue_lt (cast : TCast) (arg : BitVec 64) : unsignedValue cast arg < 2 ^ 64 := by
  cases cast <;> simp only [unsignedValue] <;> omega

theorem castNu_fits {arg : BitVec 64} (h : ArgumentFits cast arg) :
    castNu cast arg = unsignedValue cast arg := by
  obtain ⟨hhh, hh⟩ := h
  cases cast with
  | hh =>
    have := hhh rfl
    simp only [castNu, unsignedValue, BitVec.toNat_setWidth] at this ⊢
    omega
  | h =>
    have := hh rfl
    simp only [castNu, unsignedValue, BitVec.toNat_setWidth] at this ⊢
    omega
  | none | l | ll | j | z => rfl

/-- The argument that does not fit is not reduced. -/
theorem unsignedValue_lt_castNu {arg : BitVec 64} (h : ¬ ArgumentFits cast arg) :
    unsignedValue cast arg < castNu cast arg := by
  cases cast with
  | hh =>
    have hge : 2 ^ 8 ≤ (arg.setWidth 32).toNat := by
      by_contra hlt
      exact h ⟨fun _ => Nat.not_le.mp hlt, nofun⟩
    have hlt := (arg.setWidth 8).isLt
    exact hlt.trans_le hge
  | h =>
    have hge : 2 ^ 16 ≤ (arg.setWidth 32).toNat := by
      by_contra hlt
      exact h ⟨nofun, fun _ => Nat.not_le.mp hlt⟩
    have hlt := (arg.setWidth 16).isLt
    exact hlt.trans_le hge
  | none | l | ll | j | z => exact absurd ⟨nofun, nofun⟩ h

/-- `%u`, `%o`, `%x` and `%X` write the text of C for every argument, flags, width and precision,
unless the argument is larger than the `hh` or `h` of the directive, or is a zero in a field that the
zero goes wrong in, or has more octal digits than its block has room for. -/
theorem con_unsignedText_iff (mem : Memory) (hm : ∀ n, (mem.malloc n).size = n)
    (c : UnsignedLetter) (cast : TCast) (flags : List UInt8) (width : Nat)
    (precision : Option Nat) (hw : width < 2 ^ 31) (hp : ∀ p ∈ precision, p < 2 ^ 31) (m : Buffer)
    (p size : Nat) (args args' : VaList)
    (h : setData m p size args = .ok ({ fieldData flags width precision with cast }, args')) :
    (∃ d rest, c.con mem m p size args =
      .ok (unsignedText c flags width precision (unsignedValue cast (args' 0)), d, rest)) ↔
      ArgumentFits cast (args' 0) ∧ (c = .o → FitsDecimal 8 (unsignedValue cast (args' 0))) ∧
        ¬ (unsignedValue cast (args' 0) = 0 ∧ ZeroMisplaced c flags width precision) := by
  have hiff : (∃ d rest, c.con mem m p size args =
      .ok (unsignedText c flags width precision (unsignedValue cast (args' 0)), d, rest)) ↔
      c.HasRoom (castNu cast (args' 0)) ∧
      ((unsignedData c cast flags width precision (castNu cast (args' 0))).setPrintOxuHash
        c.preFix).1 = unsignedText c flags width precision (unsignedValue cast (args' 0)) := by
    rw [con_eq hm h]
    split
    · next hroom =>
      rw [and_iff_right hroom]
      constructor
      · rintro ⟨d, rest, heq⟩
        exact (Prod.mk.inj (ok.inj heq)).1
      · intro heq
        exact ⟨_, _, by rw [heq]⟩
    · next hroom => exact iff_of_false nofun fun hr => hroom hr.1
  rw [hiff]
  have hlt := castNu_lt cast (args' 0)
  have hlt' := unsignedValue_lt cast (args' 0)
  by_cases hfit : ArgumentFits cast (args' 0)
  · rw [castNu_fits hfit, and_iff_right hfit]
    refine and_congr_right fun _ => ?_
    by_cases h0 : unsignedValue cast (args' 0) = 0
    · rw [h0, and_iff_right rfl]
      cases precision with
      | none => exact zero_none hw
      | some n => exact zero_some hw (hp n rfl)
    · exact iff_of_true (setPrintOxuHash_unsignedData h0 hlt' hw hp) fun hno => h0 hno.1
  · have hne := unsignedValue_lt_castNu hfit
    refine iff_of_false (fun ⟨_, heq⟩ => ?_) fun hno => hfit hno.1
    rw [setPrintOxuHash_unsignedData (by omega) hlt hw hp] at heq
    have hread := congrArg (readText c.base) heq
    rw [readText_unsignedText hlt, readText_unsignedText hlt'] at hread
    omega

theorem setData_hhx {args : VaList} : setData (formatOf (ascii "%#hhx")) 0 4 args =
    .ok ({ fieldData (ascii "#") 0 none with cast := .hh }, args) := by rfl

theorem con_unsignedText_iff_hhx :
    ∃ d rest, UnsignedLetter.x.con emptyMemory (formatOf (ascii "%#hhx")) 0 4 (fun _ => 255) =
      .ok (unsignedText .x (ascii "#") 0 none (unsignedValue .hh 255), d, rest) :=
  (con_unsignedText_iff emptyMemory (fun _ => rfl) .x .hh (ascii "#") 0 none (by decide) (by simp)
    _ _ _ _ _ setData_hhx).mpr
    ⟨⟨fun _ => by decide, nofun⟩, nofun, fun h => absurd h.1 (by decide)⟩

/-- The `unsigned char` of 256 is 0, which "%#hhx" writes as "0x100". -/
theorem con_hhx_large : ¬ ∀ (mem : Memory) (c : UnsignedLetter) (cast : TCast) (flags : List UInt8)
    (width : Nat) (precision : Option Nat), (∀ n, (mem.malloc n).size = n) → width < 2 ^ 31 →
    (∀ p ∈ precision, p < 2 ^ 31) → ∀ (m : Buffer) (p size : Nat) (args args' : VaList),
    setData m p size args = .ok ({ fieldData flags width precision with cast }, args') →
    ∃ d rest, c.con mem m p size args =
      .ok (unsignedText c flags width precision (unsignedValue cast (args' 0)), d, rest) := by
  intro h
  obtain ⟨d, rest, hok⟩ := h emptyMemory .x .hh (ascii "#") 0 none (fun _ => rfl) (by decide)
    (by simp) (formatOf (ascii "%#hhx")) 0 4 (fun _ => 256) (fun _ => 256) setData_hhx
  have hwritten : ((unsignedData .x .hh (ascii "#") 0 none 256).setPrintOxuHash (ascii "0x")).1 =
      ascii "0x100" := by decide +kernel
  have htext : unsignedText .x (ascii "#") 0 none (unsignedValue .hh 256) = ascii "0" := by
    decide +kernel
  rw [con_eq (fun _ => rfl) setData_hhx, if_pos nofun] at hok
  have heq := (Prod.mk.inj (ok.inj hok)).1
  rw [htext] at heq
  exact absurd (hwritten.symm.trans heq) (by decide)

/-- The block of 8 has room for the "8" of base ten, and `%o` writes "10" into it. -/
example : UnsignedLetter.o.con emptyMemory (formatOf (ascii "%o")) 0 1 (fun _ => 8) = .fault := by
  have hdata : setData (formatOf (ascii "%o")) 0 1 (fun _ => 8) =
      .ok ({ fieldData [] 0 none with cast := .none }, fun _ => 8) := by rfl
  have hroom : ¬ UnsignedLetter.o.HasRoom (castNu .none 8) := by decide +kernel
  rw [con_eq (fun _ => rfl) hdata, if_neg hroom]

end NmOtool
