import NmOtool.Printf.Length
import NmOtool.Printf.Directive

/-!
# ft_printf: signed decimal conversion

`signedText` is the text that C gives a number for the conversion `d`: its sign, its digits filled
up to the precision, and blanks or zeros up to the width. `con_d` writes it for every number but the
zero without digits, whose sign it puts in front of the blanks, or leaves out.
-/

namespace NmOtool

open MachO Checked

/-! ## The text of C -/

/-- The decimal digits of a number. -/
def decimal (n : Nat) : List UInt8 :=
  if n = 0 then ascii "0"
  else (Nat.digits 10 n).reverse.map fun k => '0'.toUInt8 + UInt8.ofNat k

def signText (flags : List UInt8) (v : Int) : List UInt8 :=
  if v < 0 then ascii "-"
  else if '+'.toUInt8 ∈ flags then ascii "+"
  else if ' '.toUInt8 ∈ flags then ascii " "
  else []

/-- The digits, at least as many as the precision; none for a zero with the precision 0. -/
def precisionText (precision : Option Nat) (v : Int) : List UInt8 :=
  let digits := if v = 0 ∧ precision = some 0 then [] else decimal v.natAbs
  List.replicate (precision.getD 1 - digits.length) '0'.toUInt8 ++ digits

/-- The text of `v` for the conversion `d`. -/
def signedText (flags : List UInt8) (width : Nat) (precision : Option Nat) (v : Int) :
    List UInt8 :=
  let sign := signText flags v
  let number := precisionText precision v
  let pad := width - (sign.length + number.length)
  if '-'.toUInt8 ∈ flags then sign ++ number ++ List.replicate pad ' '.toUInt8
  else if '0'.toUInt8 ∈ flags ∧ precision = none then
    sign ++ List.replicate pad '0'.toUInt8 ++ number
  else List.replicate pad ' '.toUInt8 ++ sign ++ number

/-! ## `data` -/

/-- `data` for a directive with these flags, this width and this precision. -/
def fieldData (flags : List UInt8) (width : Nat) (precision : Option Nat) : TData :=
  { TData.init with flags, width, precison := precision.elim (-1) fun n => (n : Int) }

/-- `front` and a number in their field, with the padding in front of them, behind them, or as zeros
in between. -/
def inField (flags : List UInt8) (width : Nat) (precision : Option Nat) (front number : List UInt8) :
    List UInt8 :=
  let pad := width - (front.length + number.length)
  if '-'.toUInt8 ∈ flags then front ++ number ++ List.replicate pad ' '.toUInt8
  else if '0'.toUInt8 ∈ flags ∧ precision = none then
    front ++ List.replicate pad '0'.toUInt8 ++ number
  else List.replicate pad ' '.toUInt8 ++ front ++ number

variable {flags : List UInt8} {width : Nat} {precision : Option Nat} {v : Int} {d : TData}

/-- `d` has the flags, the width and the precision of a directive. -/
structure TData.HasField (d : TData) (flags : List UInt8) (width : Nat) (precision : Option Nat) :
    Prop where
  flags : d.flags = flags
  width : d.width = width
  precison : d.precison = precision.elim (-1) fun n => (n : Int)

theorem TData.HasField.flag (h : d.HasField flags width precision) {c : Char}
    (hc : c.toUInt8 ≠ 0) : d.flag c = decide (c.toUInt8 ∈ flags) :=
  flag_of_flags flags h.flags hc

theorem TData.HasField.digitCount {digits : List UInt8} (h : d.HasField flags width precision)
    (hd : digits ≠ []) : d.digitCount digits = (max (precision.getD 1) digits.length : Nat) := by
  have hpos : 0 < digits.length := List.length_pos_iff.mpr hd
  rw [TData.digitCount, h.precison, Nat.cast_max]
  cases precision with
  | none =>
    change max (-1 : Int) _ = max ((1 : Nat) : Int) _
    omega
  | some p => rfl

theorem TData.HasField.parsed (h : d.HasField flags width precision) (hw : width < 2 ^ 31)
    (hp : ∀ p ∈ precision, p < 2 ^ 31) (hdigits : d.digits ≠ [])
    (hori : d.ori.length + 2 < 2 ^ 31) (hpre : d.noPre = false) : d.Parsed where
  width_nonneg := h.width ▸ Int.natCast_nonneg width
  width_lt := h.width ▸ Int.ofNat_lt.mpr hw
  precison_ge := by
    rw [h.precison]
    cases precision with
    | none => exact Int.le_refl _
    | some p => exact (by decide : (-1 : Int) ≤ 0).trans (Int.natCast_nonneg p)
  precison_lt := by
    rw [h.precison]
    cases precision with
    | none => exact (by decide : (-1 : Int) < 2 ^ 31)
    | some p => exact Int.ofNat_lt.mpr (hp p rfl)
  digits_ne := hdigits
  ori_lt := hori
  noPre := hpre

/-- The number that the printing functions write is one in the directive's field. -/
theorem TData.HasField.numberText {front digits : List UInt8} (h : d.HasField flags width precision)
    (hd : digits ≠ []) :
    d.numberText front digits = inField flags width precision front
      (List.replicate (precision.getD 1 - digits.length) '0'.toUInt8 ++ digits) := by
  have hcount := h.digitCount hd
  have hzeros : (((max (precision.getD 1) digits.length : Nat) : Int) - digits.length).toNat =
      precision.getD 1 - digits.length := by
    omega
  have hdigits : d.paddedDigits digits =
      List.replicate (precision.getD 1 - digits.length) '0'.toUInt8 ++ digits := by
    rw [TData.paddedDigits, ftPutnchar, hcount, hzeros]
  have hpad : (d.padCount front digits).toNat = width - (front.length +
      (List.replicate (precision.getD 1 - digits.length) '0'.toUInt8 ++ digits).length) := by
    rw [TData.padCount, TData.numberCount, hcount, h.width, List.length_append,
      List.length_replicate]
    omega
  have hpre : (d.precison == -1) = decide (precision = none) := by
    rw [h.precison]
    cases precision with
    | none => rfl
    | some p =>
      apply beq_eq_false_iff_ne.mpr
      change (p : Int) ≠ -1
      omega
  rw [TData.numberText, inField, h.flag (by decide), h.flag (by decide), hpre]
  simp only [ftPutnchar, hpad, hdigits, decide_eq_true_eq, Bool.and_eq_true]

theorem decimal_eq {n : Nat} (hn : n < 2 ^ 64) : ftItoaUnmax n = decimal n := by
  have hdigit : ∀ k < 10, (ascii "0123456789").getD k 0 = '0'.toUInt8 + UInt8.ofNat k := by decide
  rw [ftItoaUnmax_eq hn, numeralOf, decimal]
  split_ifs with h0
  · rfl
  · rw [← List.map_reverse]
    apply List.map_congr_left
    intro k hk
    exact hdigit k (Nat.digits_lt_base (b := 10) (by decide) (List.mem_reverse.mp hk))

theorem numeral_decimal {n : Nat} (hn : n < 2 ^ 64) : Numeral (decimal n) := by
  rw [← decimal_eq hn, ftItoaUnmax_eq hn]
  exact numeral_numeralOf digitBase_dec

/-- Only the zero begins with a zero. -/
theorem decimal_head {n : Nat} (hn : n < 2 ^ 64) : (decimal n).getD 0 0 = '0'.toUInt8 ↔ n = 0 := by
  constructor
  · intro h
    by_contra h0
    obtain ⟨k, l, hl, hk, hlt⟩ :=
      head_numeralOf digitBase_dec.toAlphabet h0
    rw [← decimal_eq hn, ftItoaUnmax_eq hn, hl, List.getD_cons_zero] at h
    have hne : ∀ k < 10, 0 < k → (ascii "0123456789").getD k 0 ≠ '0'.toUInt8 := by decide
    exact hne k hlt hk h
  · rintro rfl
    rfl

/-- `data` with the numeral of `v`. -/
def signedData (flags : List UInt8) (width : Nat) (precision : Option Nat) (v : Int) : TData :=
  { fieldData flags width precision with ori := ftItoa v }

theorem ftItoa_eq (hv : v.natAbs < 2 ^ 64) :
    ftItoa v = if v < 0 then '-'.toUInt8 :: decimal v.natAbs else decimal v.natAbs := by
  rw [ftItoa, itoaSigned, decimal_eq hv]

theorem signedData_flag {c : Char} (hc : c.toUInt8 ≠ 0) :
    (signedData flags width precision v).flag c = decide (c.toUInt8 ∈ flags) :=
  TData.flag_of_flags flags rfl hc

section
variable (hv : v.natAbs < 2 ^ 64)
include hv

theorem signedData_oriMinus : (signedData flags width precision v).oriMinus = decide (v < 0) := by
  change ((ftItoa v).getD 0 0 == '-'.toUInt8) = _
  rw [ftItoa_eq hv]
  split_ifs with hneg
  · rw [decide_eq_true hneg]
    rfl
  · rw [decide_eq_false hneg]
    exact beq_eq_false_iff_ne.mpr (numeral_decimal hv).head_ne_minus

theorem signedData_digits : (signedData flags width precision v).digits = decimal v.natAbs := by
  rw [TData.digits, signedData_oriMinus hv]
  change (if decide (v < 0) = true then (ftItoa v).drop 1 else ftItoa v) = _
  rw [ftItoa_eq hv]
  by_cases hneg : v < 0
  · rw [if_pos hneg, if_pos (decide_eq_true hneg)]
    rfl
  · rw [if_neg hneg, if_neg (by simpa using hneg)]

theorem signedData_oriZero : (signedData flags width precision v).oriZero = decide (v = 0) := by
  change ((ftItoa v).getD 0 0 == '0'.toUInt8) = _
  rw [ftItoa_eq hv]
  split_ifs with hneg
  · rw [decide_eq_false (by omega)]
    rfl
  · rw [Bool.beq_eq_decide_eq, decide_eq_decide, decimal_head hv, Int.natAbs_eq_zero]

theorem signedData_plusBlank :
    (signedData flags width precision v).plusBlank = signText flags v := by
  rw [TData.plusBlank, signedData_oriMinus hv, signText, signedData_flag (by decide),
    signedData_flag (by decide)]
  by_cases hneg : v < 0
  · rw [if_pos hneg, if_neg (by simp [hneg])]
  · rw [if_neg hneg, if_pos (by simpa using hneg)]
    simp only [decide_eq_true_eq]

/-- The directive's field and the numeral, as the printing function takes them. -/
theorem signedData_parsed (hw : width < 2 ^ 31) (hp : ∀ p ∈ precision, p < 2 ^ 31) :
    (signedData flags width precision v).Parsed := by
  apply TData.HasField.parsed ⟨rfl, rfl, rfl⟩ hw hp
  · rw [signedData_digits hv]
    exact (numeral_decimal hv).ne_nil
  · have := (shortNumeral_itoaSigned hv).2
    change (itoaSigned v).length + 2 < 2 ^ 31
    omega
  · rfl

end

/-! ## The two texts -/

theorem numberText_signedData (hv : v.natAbs < 2 ^ 64) (h0 : ¬ (v = 0 ∧ precision = some 0)) :
    (signedData flags width precision v).numberText (signText flags v) (decimal v.natAbs) =
      signedText flags width precision v := by
  have hnumber : precisionText precision v =
      List.replicate (precision.getD 1 - (decimal v.natAbs).length) '0'.toUInt8 ++
        decimal v.natAbs := by
    rw [precisionText, if_neg h0]
  have hfield : (signedData flags width precision v).HasField flags width precision :=
    ⟨rfl, rfl, rfl⟩
  rw [hfield.numberText (numeral_decimal hv).ne_nil, ← hnumber]
  rfl

/-- Where there is a digit, `set_print_d` writes the text of C. -/
theorem setPrintD_signedData (hv : v.natAbs < 2 ^ 64) (hw : width < 2 ^ 31)
    (hp : ∀ p ∈ precision, p < 2 ^ 31) (h0 : ¬ (v = 0 ∧ precision = some 0)) :
    (signedData flags width precision v).setPrintD.1 = signedText flags width precision v := by
  have hzero : ((signedData flags width precision v).oriZero &&
      (signedData flags width precision v).precison == 0) = false := by
    rw [signedData_oriZero hv]
    refine Bool.eq_false_iff.mpr fun h => h0 ?_
    obtain ⟨hv0, hp0⟩ := Bool.and_eq_true_iff.mp h
    refine ⟨of_decide_eq_true hv0, ?_⟩
    cases precision with
    | none => exact absurd (beq_iff_eq.mp hp0) (by decide : ¬ (-1 : Int) = 0)
    | some p =>
      have : (p : Int) = 0 := beq_iff_eq.mp hp0
      rw [Int.natCast_eq_zero.mp this]
  rw [TData.setPrintD_eq (signedData_parsed hv hw hp) hzero, signedData_plusBlank hv,
    signedData_digits hv]
  exact numberText_signedData hv h0

/-- `zero_noze` writes the sign and the blanks behind it. -/
theorem zeroNoze_eq : d.zeroNoze = signText d.flags 0 ++
    List.replicate (d.len.toNat - (signText d.flags 0).length) ' '.toUInt8 := by
  have hplus := TData.flag_of_flags d.flags rfl (by decide : '+'.toUInt8 ≠ 0)
  have hblank := TData.flag_of_flags d.flags rfl (by decide : ' '.toUInt8 ≠ 0)
  have hlen : (d.len - 1).toNat = d.len.toNat - 1 := by omega
  rw [TData.zeroNoze, signText, if_neg (Int.lt_irrefl 0), hplus, hblank, ftPutnchar,
    ftPutnchar, hlen]
  by_cases hp : '+'.toUInt8 ∈ d.flags
  · simp only [hp, decide_true, Bool.not_true, Bool.false_and, Bool.false_eq_true, if_false, if_true]
    rfl
  · by_cases hb : ' '.toUInt8 ∈ d.flags
    · simp only [hp, hb, decide_true, decide_false, Bool.not_true, Bool.and_false,
        Bool.false_eq_true, if_false, if_true]
      rfl
    · simp only [hp, hb, decide_false, Bool.not_false, Bool.and_self, if_true, if_false]
      rfl

/-- The sign of a zero without digits goes in front of the blanks, and nothing is written where there
is no width. -/
theorem setPrintD_noDigits :
    (signedData flags width (some 0) 0).setPrintD.1 =
      if width = 0 then []
      else signText flags 0 ++ List.replicate (width - (signText flags 0).length) ' '.toUInt8 := by
  have hwidth : (signedData flags width (some 0) 0).width = width := rfl
  rw [TData.setPrintD_zero rfl rfl rfl, hwidth, zeroNoze_eq]
  by_cases hw : width = 0
  · rw [if_pos hw, if_pos (Int.natCast_eq_zero.mpr hw)]
  · rw [if_neg hw, if_neg (mt Int.natCast_eq_zero.mp hw)]
    rfl

theorem signedText_noDigits : signedText flags width (some 0) 0 =
    if '-'.toUInt8 ∈ flags then
      signText flags 0 ++ List.replicate (width - (signText flags 0).length) ' '.toUInt8
    else List.replicate (width - (signText flags 0).length) ' '.toUInt8 ++ signText flags 0 := by
  have hnumber : precisionText (some 0) 0 = [] := rfl
  rw [signedText, hnumber]
  simp

/-- Where the zero without digits goes wrong: a sign that is left out, or a '+' in front of its
blanks. -/
def SignMisplaced (flags : List UInt8) (width : Nat) : Prop :=
  width = 0 ∧ ('+'.toUInt8 ∈ flags ∨ ' '.toUInt8 ∈ flags) ∨
    1 < width ∧ '+'.toUInt8 ∈ flags ∧ '-'.toUInt8 ∉ flags

theorem signText_zero : signText flags 0 =
    if '+'.toUInt8 ∈ flags then ascii "+" else if ' '.toUInt8 ∈ flags then ascii " " else [] :=
  if_neg (Int.lt_irrefl 0)

theorem noDigits_width_zero :
    (signedData flags 0 (some 0) 0).setPrintD.1 = signedText flags 0 (some 0) 0 ↔
      ¬ SignMisplaced flags 0 := by
  have htext : signedText flags 0 (some 0) 0 = signText flags 0 := by
    rw [signedText_noDigits, Nat.zero_sub]
    simp
  rw [setPrintD_noDigits, if_pos rfl, htext, signText_zero, SignMisplaced]
  by_cases hp : '+'.toUInt8 ∈ flags
  · simp [hp, ascii]
  · by_cases hb : ' '.toUInt8 ∈ flags <;> simp [hp, hb, ascii]

theorem noDigits_width_pos (hw : width ≠ 0) :
    (signedData flags width (some 0) 0).setPrintD.1 = signedText flags width (some 0) 0 ↔
      ¬ SignMisplaced flags width := by
  rw [setPrintD_noDigits, if_neg hw, signedText_noDigits, SignMisplaced]
  by_cases hm : '-'.toUInt8 ∈ flags
  · rw [if_pos hm]
    exact iff_of_true rfl (by simp [hw, hm])
  · rw [if_neg hm, signText_zero]
    by_cases hp : '+'.toUInt8 ∈ flags
    · rw [if_pos hp]
      obtain ⟨n, rfl⟩ := Nat.exists_eq_succ_of_ne_zero hw
      cases n with
      | zero => exact iff_of_true rfl (by simp)
      | succ n =>
        refine iff_of_false (fun h => ?_) (not_not_intro (.inr ⟨by omega, hp, hm⟩))
        exact absurd (List.cons.inj h).1 (by decide)
    · by_cases hb : ' '.toUInt8 ∈ flags
      · have hblank : ascii " " = List.replicate 1 ' '.toUInt8 := rfl
        rw [if_neg hp, if_pos hb, hblank, List.replicate_append_replicate,
          List.replicate_append_replicate, Nat.add_comm]
        exact iff_of_true rfl (by simp [hw, hp])
      · simp [hp, hb, hw]

/-- `con_d` reads its directive and writes the argument behind it. -/
theorem conD_eq {m : Buffer} {p size : Nat} {args args' : VaList}
    (h : setData m p size args = .ok (fieldData flags width precision, args')) :
    conD m p size args = .ok ((signedData flags width precision (vaInt args')).setPrintD.1,
      (signedData flags width precision (vaInt args')).setPrintD.2, args'.rest) := by
  rw [conD, conSigned, h]
  rfl

/-- The directives are the ones that this is about: each leaves `data` with its flags, a width and a
precision, or none. -/
theorem setData_fieldData {m : Buffer} {p : Nat} {post : List UInt8} {args : VaList}
    {dir : Directive} (h : TextAt m p (dir.text ++ post))
    (hmin : dir.width = some .star → vaInt args ≠ -2 ^ 31) :
    ∃ flags width precision, setData m p (dir.body.length + 1) args =
        .ok ({ fieldData flags width precision with cast := dir.cast }, dir.argsRest args) ∧
      (∀ c, c ∈ flags ↔ c ∈ dir.flags) ∧
      (width : Int) = dir.width.elim 0 (Field.width args) ∧
      precision.elim (-1) (fun n => (n : Int)) =
        dir.precison.elim (-1) (Field.precison (dir.widthRest args)) := by
  obtain ⟨data, hok, hmem, hdata⟩ := setData_text args h hmin
  obtain ⟨width, hwidth⟩ : ∃ n : Nat, dir.width.elim 0 (Field.width args) = n := by
    apply Int.eq_ofNat_of_zero_le
    rcases dir.width with _ | l | _
    · exact Int.le_refl 0
    · exact Int.natCast_nonneg _
    · exact abs_nonneg _
  obtain ⟨precision, hprecision⟩ : ∃ precision : Option Nat,
      dir.precison.elim (-1) (Field.precison (dir.widthRest args)) =
        precision.elim (-1) fun n => (n : Int) := by
    rcases dir.precison with _ | l | _
    · exact ⟨none, rfl⟩
    · exact ⟨some (decimalValue l), rfl⟩
    · by_cases hneg : vaInt (dir.widthRest args) < 0
      · exact ⟨none, if_pos hneg⟩
      · refine ⟨some (vaInt (dir.widthRest args)).toNat, (if_neg hneg).trans ?_⟩
        exact (Int.toNat_of_nonneg (by omega)).symm
  refine ⟨data.flags, width, precision, ?_, hmem, hwidth.symm, hprecision.symm⟩
  rw [hok, hdata, hwidth, hprecision]
  rfl

theorem natAbs_vaInt (args : VaList) : (vaInt args).natAbs < 2 ^ 64 :=
  natAbs_toInt_lt (by decide) _

/-- `con_d` writes the text of C for every number, flags, width and precision, unless the number is a
zero without digits whose sign is left out, or is a '+' in front of its blanks. -/
theorem conD_signedText_iff (flags : List UInt8) (width : Nat) (precision : Option Nat)
    (hw : width < 2 ^ 31) (hp : ∀ p ∈ precision, p < 2 ^ 31) (m : Buffer) (p size : Nat)
    (args args' : VaList)
    (h : setData m p size args = .ok (fieldData flags width precision, args')) :
    (∃ d rest, conD m p size args =
      .ok (signedText flags width precision (vaInt args'), d, rest)) ↔
      ¬ (vaInt args' = 0 ∧ precision = some 0 ∧ SignMisplaced flags width) := by
  have hiff : (∃ d rest, conD m p size args =
      .ok (signedText flags width precision (vaInt args'), d, rest)) ↔
      (signedData flags width precision (vaInt args')).setPrintD.1 =
        signedText flags width precision (vaInt args') := by
    rw [conD_eq h]
    constructor
    · rintro ⟨d, rest, heq⟩
      exact (Prod.mk.inj (ok.inj heq)).1
    · intro heq
      exact ⟨_, _, by rw [heq]⟩
  rw [hiff]
  by_cases h0 : vaInt args' = 0 ∧ precision = some 0
  · obtain ⟨hv, rfl⟩ := h0
    rw [hv]
    by_cases hwidth : width = 0
    · subst hwidth
      rw [noDigits_width_zero]
      simp
    · rw [noDigits_width_pos hwidth]
      simp
  · exact iff_of_true (setPrintD_signedData (natAbs_vaInt args') hw hp h0)
      fun hno => h0 ⟨hno.1, hno.2.1⟩

theorem setData_sign {args : VaList} : setData (formatOf (ascii "%+.d")) 0 3 args =
    .ok (fieldData (ascii "+") 0 (some 0), args) := by rfl

theorem conD_signedText_iff_seven :
    ∃ d rest, conD (formatOf (ascii "%+.d")) 0 3 (fun _ => 7) =
      .ok (signedText (ascii "+") 0 (some 0) (vaInt fun _ => 7), d, rest) :=
  (conD_signedText_iff (ascii "+") 0 (some 0) (by decide) (by rintro p ⟨⟩; decide) _ _ _ _ _
    setData_sign).mpr (fun h => absurd h.1 (by decide))

/-- The zero for "%+.d" is nothing, and not "+". -/
theorem conD_sign_zero : ¬ ∀ (flags : List UInt8) (width : Nat) (precision : Option Nat),
    width < 2 ^ 31 → (∀ p ∈ precision, p < 2 ^ 31) →
    ∀ (m : Buffer) (p size : Nat) (args args' : VaList),
    setData m p size args = .ok (fieldData flags width precision, args') →
    ∃ d rest, conD m p size args =
      .ok (signedText flags width precision (vaInt args'), d, rest) := by
  intro h
  obtain ⟨d, rest, hok⟩ := h (ascii "+") 0 (some 0) (by decide) (by rintro p ⟨⟩; decide)
    (formatOf (ascii "%+.d")) 0 3 (fun _ => 0) (fun _ => 0) setData_sign
  have hzero : vaInt (fun _ => 0) = 0 := by decide
  have htext : signedText (ascii "+") 0 (some 0) 0 = ascii "+" := by decide
  rw [conD_eq setData_sign, hzero, htext] at hok
  have hwritten := (Prod.mk.inj (ok.inj hok)).1
  rw [setPrintD_noDigits, if_pos rfl] at hwritten
  cases hwritten

end NmOtool
