import NmOtool.Common.Printf

/-!
# ft_printf: signed decimal numbers

`set_print_d.c`, the numerals of `itoa_max.c` and `ft_itoa.c`, and the zero of `con_d.c`. A numeral
may begin with a '-', which is neither a digit nor padded over.
-/

namespace NmOtool

open MachO

/-! ## Numerals -/

/-- The '-' of a negative number and the digits of its absolute value, for any of the types. -/
def itoaSigned (n : Int) : List UInt8 :=
  if n < 0 then '-'.toUInt8 :: ftItoaUnmax n.natAbs else ftItoaUnmax n.natAbs

/-- `n` is an `int`. -/
def ftItoa (n : Int) : List UInt8 := itoaSigned n

/-- `n` is an `intmax_t`. -/
def ftItoaMax (n : Int) : List UInt8 := itoaSigned n

/-- `n` is a `short`. -/
def ftItoaShort (n : Int) : List UInt8 := itoaSigned n

/-- `n` is a `char`. -/
def ftItoaSignchar (n : Int) : List UInt8 := itoaSigned n

namespace TData

/-! ## The length -/

/-- `data->ori[0] == '-'`. -/
def oriMinus (d : TData) : Bool := d.ori.getD 0 0 == '-'.toUInt8

def setDLen (d : TData) : TData :=
  if !d.oriMinus then
    let len := max3 d.width d.strlen d.precison
    let blank := len - d.precison
    if d.flag ' ' || d.flag '+' then
      if len = d.precison then { d with len := int32 (len + 1), blank }
      else { d with len, blank := blank - 1 }
    else { d with len, blank }
  else
    let len := max d.width d.precison
    let blank := len - d.precison
    if len = d.precison then { d with len := int32 (len + 1), blank }
    else { d with len, blank := blank - 1 }

def setD (d : TData) : TData :=
  let d := if d.precison = -1 then { d with noPre := true } else d
  let d :=
    if !(d.oriZero && d.precison == 0) then
      if !d.oriMinus && decide (d.precison < d.strlen) then { d with precison := d.strlen }
      else if d.oriMinus && decide (d.precison < d.strlen - 1) then
        { d with precison := int32 (d.strlen - 1) }
      else d
    else d
  if !(d.oriZero && d.precison == 0) then d.setDLen else { d with len := d.width }

/-! ## The bytes -/

def plusBlank (d : TData) : List UInt8 :=
  if !d.oriMinus then if d.flag '+' then ascii "+" else if d.flag ' ' then ascii " " else []
  else ascii "-"

/-- The digits of the numeral: `data->ori`, or `data->ori + 1` behind a '-'. -/
def digits (d : TData) : List UInt8 := if d.oriMinus then d.ori.drop 1 else d.ori

/-- The zeros in front of the digits that make up the precision. -/
def precisonZeros (d : TData) : List UInt8 :=
  if d.oriMinus then ftPutnchar '0' (int32 (d.precison - d.strlen + 1)) else ftPutnchar '0' d.zeros

def goRight (d : TData) : List UInt8 :=
  if d.flag '0' && d.noPre then d.plusBlank ++ ftPutnchar '0' d.blank ++ d.digits
  else ftPutnchar ' ' d.blank ++ d.plusBlank ++ d.precisonZeros ++ d.digits

def zeroNoze (d : TData) : List UInt8 :=
  if !d.flag '+' && !d.flag ' ' then ftPutnchar ' ' d.len
  else (if d.flag '+' then ascii "+" else ascii " ") ++ ftPutnchar ' ' (d.len - 1)

def putZeroD (d : TData) : List UInt8 :=
  if d.flag '0' && d.noPre then
    if !d.flag '+' && !d.flag ' ' then ftPutnchar '0' d.len
    else (if d.flag '+' then ascii "+" else ascii " ") ++ ftPutnchar '0' (d.len - 1)
  else d.zeroNoze

/-- The bytes written, and `data` with the length to report. -/
def setPrintD (d : TData) : List UInt8 × TData :=
  let d := d.setD
  if d.len != 0 && !(d.oriZero && d.precison == 0) then
    if !d.flag '-' then (d.goRight, d)
    else (d.plusBlank ++ d.precisonZeros ++ d.digits ++ ftPutnchar ' ' d.blank, d)
  else if d.len != 0 && d.oriZero then (d.putZeroD, d)
  else ([], d)

/-! ## The closed form

The numeral has a sign of at most one byte and its digits; `set_d` fills the digits up to the
precision with zeros, and the width leaves room for blanks. -/

variable {d : TData} {front digits : List UInt8}

/-- The number of digits written. -/
def digitCount (d : TData) (digits : List UInt8) : Int := max d.precison digits.length

/-- The number of bytes behind the padding: a sign or a prefix, and the digits. -/
def numberCount (d : TData) (front digits : List UInt8) : Int :=
  d.digitCount digits + front.length

/-- The blanks, or the zeros in their place. -/
def padCount (d : TData) (front digits : List UInt8) : Int :=
  max d.width (d.numberCount front digits) - d.numberCount front digits

/-- What `set_flags` leaves of the width and the precision, and a numeral with a digit. -/
structure Parsed (d : TData) : Prop where
  width_nonneg : 0 ≤ d.width
  width_lt : d.width < 2 ^ 31
  precison_ge : -1 ≤ d.precison
  precison_lt : d.precison < 2 ^ 31
  digits_ne : d.digits ≠ []
  ori_lt : d.ori.length + 2 < 2 ^ 31
  noPre : d.noPre = false

theorem ori_length (h : d.digits ≠ []) :
    d.ori.length = d.digits.length + if d.oriMinus then 1 else 0 := by
  unfold digits at h ⊢
  split_ifs at h ⊢ with hm
  · cases hori : d.ori with
    | nil => exact absurd (by rw [hori]; rfl) h
    | cons c t => rfl
  · rfl

theorem plusBlank_length :
    d.plusBlank.length = if d.oriMinus || d.flag ' ' || d.flag '+' then 1 else 0 := by
  unfold plusBlank
  cases d.oriMinus <;> cases d.flag '+' <;> cases d.flag ' ' <;> rfl

namespace Parsed

theorem digits_pos (h : Parsed d) : 0 < d.digits.length := List.length_pos_iff.mpr h.digits_ne

theorem digits_le (h : Parsed d) : d.digits.length ≤ d.ori.length := by
  rw [ori_length h.digits_ne]
  exact Nat.le_add_right _ _

theorem strlen_minus (h : Parsed d) (hm : d.oriMinus = true) :
    d.strlen = d.digits.length + 1 := by
  have hlen := ori_length h.digits_ne
  rw [if_pos hm] at hlen
  have hint := h.ori_lt
  rw [strlen, int32_of_lt (by omega), hlen]
  rfl

theorem strlen_plus (h : Parsed d) (hm : d.oriMinus = false) : d.strlen = d.digits.length := by
  have hlen := ori_length h.digits_ne
  rw [if_neg (by simp [hm])] at hlen
  have hint := h.ori_lt
  rw [strlen, int32_of_lt (by omega), hlen]
  rfl

theorem digitCount_pos (h : Parsed d) : 0 < d.digitCount d.digits := by
  have := h.digits_pos
  unfold digitCount
  omega

theorem digitCount_lt (h : Parsed d) : d.digitCount d.digits < 2 ^ 31 := by
  have := h.precison_lt
  have := h.ori_lt
  have := h.digits_le
  unfold digitCount
  omega

end Parsed

theorem setD_noPre (h : Parsed d) :
    (if d.precison = -1 then { d with noPre := true } else d) =
      { d with noPre := d.precison == -1 } := by
  split_ifs with hp
  · rw [hp]
    rfl
  · rw [beq_eq_false_iff_ne.mpr hp, ← h.noPre]

/-- The precision that `set_d` leaves is the number of digits. -/
theorem setD_precison (h : Parsed d) (noPre : Bool) :
    (if !d.oriMinus && decide (d.precison < d.strlen) then
        { d with noPre, precison := d.strlen }
      else if d.oriMinus && decide (d.precison < d.strlen - 1) then
        { d with noPre, precison := int32 (d.strlen - 1) }
      else { d with noPre }) = { d with noPre, precison := d.digitCount d.digits } := by
  have hint := h.ori_lt
  have hle := h.digits_le
  cases hm : d.oriMinus with
  | false =>
    rw [h.strlen_plus hm]
    by_cases hp : d.precison < d.digits.length
    · rw [if_pos (by simpa using hp), digitCount, max_eq_right (by omega)]
    · rw [if_neg (by simpa using hp), if_neg (by simp), digitCount, max_eq_left (by omega)]
  | true =>
    rw [h.strlen_minus hm, if_neg (by simp), Int.add_sub_cancel, int32_of_lt (by omega)]
    by_cases hp : d.precison < d.digits.length
    · rw [if_pos (by simpa using hp), digitCount, max_eq_right (by omega)]
    · rw [if_neg (by simpa using hp), digitCount, max_eq_left (by omega)]

/-- A width of `w` and a number of `p` digits, behind a sign. -/
theorem lenBlank_sign {w p : Int} (hw : w < 2 ^ 31) (hp : 0 ≤ p) :
    (if max w p = p then { d with len := int32 (max w p + 1), blank := max w p - p }
      else { d with len := max w p, blank := max w p - p - 1 }) =
    { d with len := int32 (max w (p + 1)), blank := max w (p + 1) - (p + 1) } := by
  split_ifs with he
  · have hle : w ≤ p := by omega
    rw [max_eq_right hle, max_eq_right (by omega), Int.sub_self, Int.sub_self]
  · have hlt : p < w := by omega
    rw [max_eq_left hlt.le, max_eq_left (by omega), int32_of_range (by omega) hw, Int.sub_sub]

/-- `set_d_len`, where the precision is the number of digits. -/
theorem setDLen_eq (hw : d.width < 2 ^ 31) (hp : 0 ≤ d.precison) (hp' : d.precison < 2 ^ 31)
    (hs : d.oriMinus = false → d.strlen ≤ d.precison) :
    d.setDLen = { d with
      len := int32 (max d.width (d.precison + d.plusBlank.length))
      blank := max d.width (d.precison + d.plusBlank.length) -
        (d.precison + d.plusBlank.length) } := by
  rw [setDLen, plusBlank_length]
  cases hm : d.oriMinus with
  | false =>
    have hmax : max3 d.width d.strlen d.precison = max d.width d.precison := by
      have := hs hm
      unfold max3
      omega
    rw [if_pos (by rfl), hmax, Bool.false_or]
    cases hsign : d.flag ' ' || d.flag '+' with
    | false =>
      simp only [Bool.false_eq_true, if_false, Nat.cast_zero, add_zero]
      rw [int32_of_range (by omega) (by omega)]
    | true =>
      simp only [if_true, Nat.cast_one]
      exact lenBlank_sign hw hp
  | true =>
    simp only [Bool.not_true, Bool.false_eq_true, if_false, Bool.true_or, if_true, Nat.cast_one]
    exact lenBlank_sign hw hp

/-- What `set_d` makes of `data`, where there are digits to write. -/
def placed (d : TData) : TData :=
  { d with
    noPre := d.precison == -1
    precison := d.digitCount d.digits
    len := int32 (max d.width (d.numberCount d.plusBlank d.digits))
    blank := d.padCount d.plusBlank d.digits }

theorem setD_eq (h : Parsed d) (h0 : (d.oriZero && d.precison == 0) = false) :
    d.setD = d.placed := by
  have hpos := h.digitCount_pos
  have hcond : (!(d.oriZero && d.precison == 0)) = true := by
    rw [h0]
    rfl
  have hne : (!(d.oriZero && d.digitCount d.digits == 0)) = true := by
    rw [beq_eq_false_iff_ne.mpr hpos.ne', Bool.and_false]
    rfl
  have hlen := setDLen_eq
    (d := { d with noPre := d.precison == -1, precison := d.digitCount d.digits })
    h.width_lt hpos.le h.digitCount_lt fun hm => by
      change d.strlen ≤ d.digitCount d.digits
      rw [h.strlen_plus hm]
      exact le_max_right _ _
  rw [setD, setD_noPre h]
  refine (congrArg (fun e : TData => if !(e.oriZero && e.precison == 0) then e.setDLen
    else { e with len := e.width })
    ((if_pos hcond).trans (setD_precison h (d.precison == -1)))).trans ?_
  exact (if_pos hne).trans hlen

/-- The digits with the zeros of the precision in front of them. -/
def paddedDigits (d : TData) (digits : List UInt8) : List UInt8 :=
  ftPutnchar '0' (d.digitCount digits - digits.length) ++ digits

theorem paddedDigits_length : (d.paddedDigits digits).length = d.digitCount digits := by
  have : (digits.length : Int) ≤ d.digitCount digits := le_max_right _ _
  simp only [paddedDigits, ftPutnchar, List.length_append, List.length_replicate]
  omega

theorem padCount_nonneg : 0 ≤ d.padCount front digits := by
  unfold padCount
  omega

/-- The zeros are counted with the '-' in `data->ori` or without it. -/
theorem precisonZeros_placed (h : Parsed d) :
    d.placed.precisonZeros = ftPutnchar '0' (d.digitCount d.digits - d.digits.length) := by
  have hlt := h.digitCount_lt
  have hle : (d.digits.length : Int) ≤ d.digitCount d.digits := le_max_right _ _
  have hminus : d.placed.oriMinus = d.oriMinus := rfl
  have hstrlen : d.placed.strlen = d.strlen := rfl
  have hp : d.placed.precison = d.digitCount d.digits := rfl
  rw [precisonZeros, hminus, zeros, hstrlen, hp]
  cases hm : d.oriMinus with
  | false =>
    rw [if_neg Bool.false_ne_true, h.strlen_plus hm, int32_of_range (by omega) (by omega)]
  | true =>
    rw [if_pos rfl, h.strlen_minus hm,
      show d.digitCount d.digits - (d.digits.length + 1 : Int) + 1 =
        d.digitCount d.digits - d.digits.length by omega,
      int32_of_range (by omega) (by omega)]

/-- A number in its field: `front` and the padded digits, with the padding in front of them, behind
them, or as zeros in between. -/
def numberText (d : TData) (front digits : List UInt8) : List UInt8 :=
  if d.flag '-' then front ++ d.paddedDigits digits ++ ftPutnchar ' ' (d.padCount front digits)
  else if d.flag '0' && d.precison == -1 then
    front ++ ftPutnchar '0' (d.padCount front digits) ++ d.paddedDigits digits
  else ftPutnchar ' ' (d.padCount front digits) ++ front ++ d.paddedDigits digits

theorem numberText_length :
    ((d.numberText front digits).length : Int) = max d.width (d.numberCount front digits) := by
  have hpad : 0 ≤ d.padCount front digits := padCount_nonneg
  have hdigits : (d.paddedDigits digits).length = d.digitCount digits := paddedDigits_length
  have hputn (c : Char) : ((ftPutnchar c (d.padCount front digits)).length : Int) =
      d.padCount front digits := by
    rw [ftPutnchar, List.length_replicate]
    omega
  have hsum : d.padCount front digits + front.length + d.digitCount digits =
      max d.width (d.numberCount front digits) := by
    unfold padCount numberCount
    omega
  unfold numberText
  split_ifs <;> (simp only [List.length_append, Nat.cast_add, hputn, hdigits]; omega)

theorem goRight_placed (h : Parsed d) :
    d.placed.goRight = if d.flag '0' && d.precison == -1 then
        d.plusBlank ++ ftPutnchar '0' (d.padCount d.plusBlank d.digits) ++ d.paddedDigits d.digits
      else ftPutnchar ' ' (d.padCount d.plusBlank d.digits) ++ d.plusBlank ++
        d.paddedDigits d.digits := by
  have hplus : d.placed.plusBlank = d.plusBlank := rfl
  have hdigits : d.placed.digits = d.digits := rfl
  have hflag : d.placed.flag '0' = d.flag '0' := rfl
  have hpre : d.placed.noPre = (d.precison == -1) := rfl
  have hblank : d.placed.blank = d.padCount d.plusBlank d.digits := rfl
  rw [goRight, hflag, hpre, hblank, hplus, hdigits, precisonZeros_placed h]
  by_cases hz : (d.flag '0' && d.precison == -1) = true
  · rw [if_pos hz, if_pos hz]
    -- without a precision there are no zeros but the padding ones
    have hp1 : d.precison = -1 := by simpa using (Bool.and_eq_true_iff.mp hz).2
    have hcount : d.digitCount d.digits - d.digits.length = 0 := by
      rw [digitCount, hp1, max_eq_right (by omega), Int.sub_self]
    rw [paddedDigits, hcount]
    rfl
  · rw [if_neg hz, if_neg hz, paddedDigits, List.append_assoc]

theorem placed_len_ne_zero (h : Parsed d) : d.placed.len ≠ 0 := by
  have hpos := h.digitCount_pos
  have hlt := h.digitCount_lt
  have hw := h.width_lt
  have hnum : d.numberCount d.plusBlank d.digits ≤ d.digitCount d.digits + 1 := by
    rw [numberCount, plusBlank_length]
    split <;> simp
  have hnum' : d.digitCount d.digits ≤ d.numberCount d.plusBlank d.digits := by
    unfold numberCount
    omega
  change int32 (max d.width (d.numberCount d.plusBlank d.digits)) ≠ 0
  unfold int32
  rw [Int.bmod_def]
  split <;> omega

/-- `set_print_d`, where there are digits to write. -/
theorem setPrintD_eq (h : Parsed d) (h0 : (d.oriZero && d.precison == 0) = false) :
    d.setPrintD = (d.numberText d.plusBlank d.digits, d.placed) := by
  have hcond : (d.placed.len != 0 && !(d.placed.oriZero && d.placed.precison == 0)) = true := by
    have hne : d.placed.precison ≠ 0 := h.digitCount_pos.ne'
    simp [placed_len_ne_zero h, hne]
  have hflag : d.placed.flag '-' = d.flag '-' := rfl
  have hplus : d.placed.plusBlank = d.plusBlank := rfl
  have hdigits : d.placed.digits = d.digits := rfl
  have hblank : d.placed.blank = d.padCount d.plusBlank d.digits := rfl
  rw [setPrintD, setD_eq h h0, if_pos hcond, hflag, goRight_placed h, hplus,
    precisonZeros_placed h, hdigits, hblank, numberText]
  cases d.flag '-' with
  | false => rfl
  | true => rw [if_neg (by decide), if_pos rfl, paddedDigits, List.append_assoc d.plusBlank]

/-- `set_print_d` on a zero that has no digit: `put_zero_d` fills the width. -/
theorem setPrintD_zero (hp : d.precison = 0) (hz : d.oriZero = true) (hpre : d.noPre = false) :
    d.setPrintD =
      (if d.width = 0 then [] else { d with len := d.width }.zeroNoze,
        { d with len := d.width }) := by
  have hset : d.setD = { d with len := d.width } := by
    have hcond : ¬ (!(d.oriZero && d.precison == 0)) = true := by
      rw [hz, hp]
      decide
    have hpre : (if d.precison = -1 then { d with noPre := true } else d) = d :=
      if_neg (by rw [hp]; decide)
    rw [setD, hpre, if_neg hcond, if_neg hcond]
  have hcond : ¬ (d.width != 0 && !(d.oriZero && d.precison == 0)) = true := by
    rw [hz, hp, show (!(true && (0 : Int) == 0)) = false from rfl, Bool.and_false]
    exact Bool.false_ne_true
  rw [setPrintD, hset]
  refine (if_neg hcond).trans ?_
  by_cases hw : d.width = 0
  · rw [if_pos hw]
    exact if_neg (by simp [hw])
  · rw [if_neg hw]
    refine (if_pos (show (d.width != 0 && d.oriZero) = true by simp [hw, hz])).trans ?_
    rw [putZeroD, if_neg (by simp [hpre])]

theorem zeroNoze_length (h : 0 < d.len) : d.zeroNoze.length = d.len := by
  unfold zeroNoze
  split_ifs <;> simp [ftPutnchar, ascii] <;> omega

/-- `set_print_d` writes as many bytes as it reports. -/
theorem setPrintD_length (h : Parsed d) (hp : d.precison < 2 ^ 30) :
    (d.setPrintD.1.length : Int) = d.setPrintD.2.len := by
  by_cases h0 : (d.oriZero && d.precison == 0) = true
  · obtain ⟨hz, hp0⟩ := Bool.and_eq_true_iff.mp h0
    rw [setPrintD_zero (beq_iff_eq.mp hp0) hz h.noPre]
    by_cases hw : d.width = 0
    · rw [if_pos hw, hw]
      rfl
    · have := h.width_nonneg
      rw [if_neg hw]
      exact zeroNoze_length (d := { d with len := d.width }) (by simp only; omega)
  · have hint : max d.width (d.numberCount d.plusBlank d.digits) < 2 ^ 31 := by
      have := h.width_lt
      have := h.ori_lt
      have := h.digits_le
      rw [numberCount, plusBlank_length, digitCount]
      split <;> simp <;> omega
    have hpos : 0 ≤ max d.width (d.numberCount d.plusBlank d.digits) :=
      le_max_of_le_left h.width_nonneg
    rw [setPrintD_eq h (Bool.not_eq_true _ ▸ h0), numberText_length]
    exact (int32_of_range (by omega) hint).symm

end TData

end NmOtool
