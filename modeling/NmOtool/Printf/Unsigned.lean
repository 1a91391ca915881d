import NmOtool.Printf.Signed

/-!
# ft_printf: unsigned numbers

`set_print_oxu_hash` with a prefix in front of a numeral that has no sign. The zero has its own
functions, `put_zero_oux` and `put_nopre`; every other number is placed as a signed one is, with the
prefix for its sign.
-/

namespace NmOtool

open MachO

namespace TData

variable {d : TData} {preFix : List UInt8}

/-- The prefix that is written: none without a '#', and no "0" where the precision gives one. -/
def hashPrefix (d : TData) (preFix : List UInt8) : List UInt8 :=
  if d.flag '#' && !d.octalPadded preFix then preFix else []

/-- What `set_oxu` makes of `data`, where the number is not zero. -/
def placedOxu (d : TData) (preFix : List UInt8) : TData :=
  { d with
    noPre := d.precison == -1
    precison := d.digitCount d.ori
    len := max d.width (d.numberCount (d.hashPrefix preFix) d.ori)
    blank := d.padCount (d.hashPrefix preFix) d.ori }

theorem hashPrefix_length (d : TData) (preFix : List UInt8) :
    (d.hashPrefix preFix).length ≤ preFix.length := by
  unfold hashPrefix
  split
  · exact Nat.le_refl _
  · exact Nat.zero_le _

theorem Parsed.strlen (h : Parsed d) : d.strlen = d.ori.length :=
  int32_of_lt (by have := h.ori_lt; omega)

theorem Parsed.digitCount_ori_lt (h : Parsed d) : d.digitCount d.ori < 2 ^ 31 := by
  have := h.precison_lt
  have := h.ori_lt
  unfold digitCount
  omega

/-- The precision in `octalPadded` may be the number of digits. -/
theorem octalPadded_digitCount (h : Parsed d) (noPre : Bool) :
    { d with noPre, precison := d.digitCount d.ori }.octalPadded preFix = d.octalPadded preFix := by
  have hiff : d.digitCount d.ori > d.strlen ↔ d.precison > d.strlen := by
    rw [h.strlen, digitCount]
    omega
  exact congrArg (_ && ·) (decide_eq_decide.mpr hiff)

/-- `for_setoux`, where the precision is the number of digits. -/
theorem forSetoux_eq {front : List UInt8} (hs : d.strlen ≤ d.precison) (hs0 : 0 ≤ d.strlen)
    (hp : d.precison + front.length < 2 ^ 31) (hw : 0 ≤ d.width) (hw' : d.width < 2 ^ 31)
    (hfront : front = if d.octalPadded preFix then [] else preFix) :
    d.forSetoux preFix = { d with
      len := max d.width (d.precison + front.length)
      blank := max d.width (d.precison + front.length) - (d.precison + front.length) } := by
  have hblank {len : Int} (hl : 0 ≤ len) (hl' : len < 2 ^ 31)
      (hp : d.precison + preFix.length < 2 ^ 31) :
      int32 (len - d.precison - preFix.length) = len - (d.precison + preFix.length) := by
    rw [int32_of_range (by omega) (by omega), Int.sub_sub]
  unfold forSetoux
  by_cases hge : d.strlen ≥ d.precison
  · have hpadded : d.octalPadded preFix = false := by
      rw [octalPadded, decide_eq_false (by omega), Bool.and_false]
    rw [hpadded, if_neg Bool.false_ne_true] at hfront
    rw [hfront] at hp
    have hlen : max3 d.width (int32 (d.strlen + preFix.length)) d.precison =
        max d.width (d.precison + preFix.length) := by
      rw [int32_of_range (by omega) (by omega), max3]
      omega
    simp only [if_pos hge]
    refine (if_pos (show (!d.octalPadded preFix) = true by rw [hpadded]; rfl)).trans ?_
    rw [hfront, hlen, hblank (by omega) (by omega) hp]
  · simp only [if_neg hge]
    cases hoct : preFix.getD 0 0 == '0'.toUInt8 && preFix.getD 1 0 == 0 with
    | false =>
      have hpadded : d.octalPadded preFix = false := by
        rw [octalPadded, hoct, Bool.false_and]
      rw [hpadded, if_neg Bool.false_ne_true] at hfront
      rw [hfront] at hp
      have hlen : max3 d.width d.strlen (int32 (d.precison + preFix.length)) =
          max d.width (d.precison + preFix.length) := by
        rw [int32_of_range (by omega) (by omega), max3]
        omega
      refine (if_pos (show (!d.octalPadded preFix) = true by rw [hpadded]; rfl)).trans ?_
      rw [hfront]
      simp only [Bool.not_false, if_true]
      rw [hlen, hblank (by omega) (by omega) hp]
    | true =>
      have hpadded : d.octalPadded preFix = true := by
        rw [octalPadded, hoct, Bool.true_and, decide_eq_true_eq]
        omega
      have hlen : max3 d.width d.strlen d.precison = max d.width d.precison := by
        unfold max3
        omega
      rw [hpadded, if_pos rfl] at hfront
      refine (if_neg (show ¬ (!d.octalPadded preFix) = true by rw [hpadded]; decide)).trans ?_
      rw [hfront]
      simp only [Bool.not_true, Bool.false_eq_true, if_false, List.length_nil, Nat.cast_zero,
        add_zero]
      rw [hlen]

/-- `set_oxu`, once the precision is the number of digits. -/
theorem setOxu_of_precison {e : TData} (h : Parsed d)
    (he : (if !(d.oriZero && d.precison == 0) && decide (d.precison < d.strlen) then
        { d with noPre := d.precison == -1, precison := d.strlen }
      else { d with noPre := d.precison == -1 }) = e) :
    d.setOxu preFix =
      if !e.oriZero && e.flag '#' then e.forSetoux preFix
      else if !(e.width == 0 && decide (e.precison ≤ 0) && e.oriZero) then
        { e with
          len := max3 e.width e.strlen e.precison
          blank := max3 e.width e.strlen e.precison - e.precison }
      else e := by
  rw [setOxu, setD_noPre h]
  subst he
  rfl

theorem setOxu_precison (h : Parsed d) (hz : d.oriZero = false) :
    (if !(d.oriZero && d.precison == 0) && decide (d.precison < d.strlen) then
        { d with noPre := d.precison == -1, precison := d.strlen }
      else { d with noPre := d.precison == -1 }) =
      { d with noPre := d.precison == -1, precison := d.digitCount d.ori } := by
  rw [hz, h.strlen]
  by_cases hp : d.precison < d.ori.length
  · rw [if_pos (by simpa using hp), digitCount, max_eq_right (by omega)]
  · rw [if_neg (by simpa using hp), digitCount, max_eq_left (by omega)]

/-- `set_oxu` on a number that is not zero. -/
theorem setOxu_eq (h : Parsed d) (hz : d.oriZero = false)
    (hp : d.precison + (d.hashPrefix preFix).length < 2 ^ 31) (hpre : preFix.length ≤ 2) :
    d.setOxu preFix = d.placedOxu preFix := by
  have hstrlen := h.strlen
  have hint := h.ori_lt
  have hle : (d.ori.length : Int) ≤ d.digitCount d.ori := le_max_right _ _
  have hlt : d.digitCount d.ori + (d.hashPrefix preFix).length < 2 ^ 31 := by
    have := hashPrefix_length d preFix
    unfold digitCount
    omega
  rw [setOxu_of_precison h (setOxu_precison h hz)]
  cases hash : d.flag '#' with
  | true =>
    refine (if_pos (show (!d.oriZero && d.flag '#') = true by rw [hz, hash]; rfl)).trans ?_
    refine (forSetoux_eq (d := { d with noPre := d.precison == -1, precison := d.digitCount d.ori })
      (hstrlen.trans_le hle) (by change 0 ≤ d.strlen; omega) hlt h.width_nonneg h.width_lt
      ?_).trans (b := d.placedOxu preFix) rfl
    rw [octalPadded_digitCount h, hashPrefix, hash, Bool.true_and]
    cases d.octalPadded preFix <;> rfl
  | false =>
    have hfront : d.hashPrefix preFix = [] := by
      rw [hashPrefix, hash]
      rfl
    have hcond : (!(d.width == 0 && decide (d.digitCount d.ori ≤ 0) && d.oriZero)) = true := by
      rw [hz, Bool.and_false]
      rfl
    have hlen : max3 d.width d.strlen (d.digitCount d.ori) =
        max d.width (d.numberCount (d.hashPrefix preFix) d.ori) := by
      rw [numberCount, hfront, hstrlen, max3]
      simp only [List.length_nil, Nat.cast_zero]
      omega
    have hblank : max d.width (d.numberCount (d.hashPrefix preFix) d.ori) - d.digitCount d.ori =
        d.padCount (d.hashPrefix preFix) d.ori := by
      rw [padCount, numberCount, hfront]
      simp
    have hash' : ¬ (!d.oriZero && d.flag '#') = true := by
      rw [hash, Bool.and_false]
      exact Bool.false_ne_true
    refine (if_neg hash').trans ?_
    refine (if_pos hcond).trans ?_
    have hstr :
        { d with noPre := d.precison == -1, precison := d.digitCount d.ori }.strlen = d.strlen :=
      rfl
    rw [hstr]
    simp only
    rw [hlen, hblank]
    rfl

theorem forRightOux_eq : d.forRightOux preFix =
    ftPutnchar ' ' d.blank ++ d.hashPrefix preFix ++ ftPutnchar '0' d.zeros ++ d.ori := rfl

theorem forPrintOux_eq : d.forPrintOux preFix =
    d.hashPrefix preFix ++ ftPutnchar '0' d.zeros ++ d.ori ++ ftPutnchar ' ' d.blank := rfl

/-- `go_right_oux` with zeros for the blanks, where the precision gives no zero of its own. -/
theorem goRightOux_zeros (h0 : (d.flag '0' && d.noPre) = true)
    (hpad : d.octalPadded preFix = false) : d.goRightOux preFix =
      d.hashPrefix preFix ++
        ftPutnchar '0' (int32 (d.len - (d.hashPrefix preFix).length - d.strlen)) ++ d.ori := by
  rw [goRightOux, if_pos h0, hashPrefix, hpad, Bool.not_false, Bool.and_true]
  cases d.flag '#' with
  | true => rfl
  | false =>
    simp only [Bool.false_eq_true, if_false, List.length_nil, Nat.cast_zero, sub_zero,
      List.nil_append]

theorem zeros_placedOxu (h : Parsed d) :
    (d.placedOxu preFix).zeros = d.digitCount d.ori - d.ori.length := by
  have hlt := h.digitCount_ori_lt
  have hle : (d.ori.length : Int) ≤ d.digitCount d.ori := le_max_right _ _
  have hstrlen : (d.placedOxu preFix).strlen = d.strlen := rfl
  have hp : (d.placedOxu preFix).precison = d.digitCount d.ori := rfl
  rw [zeros, hstrlen, hp, h.strlen, int32_of_range (by omega) (by omega)]

theorem octalPadded_placedOxu (h : Parsed d) :
    (d.placedOxu preFix).octalPadded preFix = d.octalPadded preFix :=
  octalPadded_digitCount h (d.precison == -1)

theorem hashPrefix_placedOxu (h : Parsed d) :
    (d.placedOxu preFix).hashPrefix preFix = d.hashPrefix preFix := by
  have hflag : (d.placedOxu preFix).flag '#' = d.flag '#' := rfl
  rw [hashPrefix, hflag, octalPadded_placedOxu h, hashPrefix]

theorem goRightOux_placed (h : Parsed d)
    (hlen : max d.width (d.numberCount (d.hashPrefix preFix) d.ori) < 2 ^ 31) :
    (d.placedOxu preFix).goRightOux preFix = if d.flag '0' && d.precison == -1 then
        d.hashPrefix preFix ++ ftPutnchar '0' (d.padCount (d.hashPrefix preFix) d.ori) ++
          d.paddedDigits d.ori
      else ftPutnchar ' ' (d.padCount (d.hashPrefix preFix) d.ori) ++ d.hashPrefix preFix ++
        d.paddedDigits d.ori := by
  have hstrlen : (d.placedOxu preFix).strlen = d.ori.length := h.strlen
  have hori : (d.placedOxu preFix).ori = d.ori := rfl
  have hblank : (d.placedOxu preFix).blank = d.padCount (d.hashPrefix preFix) d.ori := rfl
  have hcond : ((d.placedOxu preFix).flag '0' && (d.placedOxu preFix).noPre) =
      (d.flag '0' && d.precison == -1) := rfl
  by_cases h0 : (d.flag '0' && d.precison == -1) = true
  · have hp1 : d.precison = -1 := by simpa using (Bool.and_eq_true_iff.mp h0).2
    have hcount : d.digitCount d.ori = d.ori.length := by
      rw [digitCount, hp1, max_eq_right (by omega)]
    have hpad : (d.placedOxu preFix).octalPadded preFix = false := by
      rw [octalPadded_placedOxu h, octalPadded, h.strlen, decide_eq_false (by omega),
        Bool.and_false]
    have hnum : max d.width (d.numberCount (d.hashPrefix preFix) d.ori) -
        (d.hashPrefix preFix).length - d.ori.length = d.padCount (d.hashPrefix preFix) d.ori := by
      rw [padCount, numberCount, hcount]
      omega
    have hnonneg : 0 ≤ d.padCount (d.hashPrefix preFix) d.ori := padCount_nonneg
    have hl : (d.placedOxu preFix).len = max d.width (d.numberCount (d.hashPrefix preFix) d.ori) :=
      rfl
    rw [if_pos h0, goRightOux_zeros h0 hpad, hashPrefix_placedOxu h, hstrlen, hl, hnum, hori,
      int32_of_range (by omega) (by omega), paddedDigits, hcount, Int.sub_self]
    rfl
  · rw [if_neg h0, goRightOux, hcond, if_neg h0, forRightOux_eq, hashPrefix_placedOxu h,
      zeros_placedOxu h, hori, hblank, paddedDigits, List.append_assoc]

/-- `set_print_oxu_hash` on a number that is not zero. -/
theorem setPrintOxuHash_eq (h : Parsed d) (hz : d.oriZero = false)
    (hp : d.precison + (d.hashPrefix preFix).length < 2 ^ 31) (hpre : preFix.length ≤ 2) :
    d.setPrintOxuHash preFix =
      (d.numberText (d.hashPrefix preFix) d.ori, d.placedOxu preFix) := by
  have hset := setOxu_eq h hz hp hpre
  have hz' : (d.placedOxu preFix).oriZero = false := hz
  have hflag : (d.placedOxu preFix).flag '-' = d.flag '-' := rfl
  have hori : (d.placedOxu preFix).ori = d.ori := rfl
  have hblank : (d.placedOxu preFix).blank = d.padCount (d.hashPrefix preFix) d.ori := rfl
  have hlen : max d.width (d.numberCount (d.hashPrefix preFix) d.ori) < 2 ^ 31 := by
    have := h.width_lt
    have := h.ori_lt
    have := hashPrefix_length d preFix
    unfold numberCount digitCount
    omega
  have hcond : (!((d.placedOxu preFix).len == 0 && (d.placedOxu preFix).oriZero)) = true := by
    rw [hz', Bool.and_false]
    rfl
  rw [setPrintOxuHash, hset, if_pos hcond, hz', if_neg Bool.false_ne_true, hflag,
    goRightOux_placed h hlen, forPrintOux_eq, hashPrefix_placedOxu h, zeros_placedOxu h,
    hori, hblank, numberText]
  cases d.flag '-' with
  | false => rfl
  | true => rw [if_neg (by decide), if_pos rfl, paddedDigits, List.append_assoc (d.hashPrefix _)]

/-- `for_setoux`, where the precision and the prefix together are no `int`: there are no blanks. -/
theorem forSetoux_full (hs0 : 0 < d.strlen) (hs : d.strlen < d.precison)
    (hp : d.precison < 2 ^ 31) (hw' : d.width < 2 ^ 31) (hpre : preFix.length ≤ 2)
    (hpadded : d.octalPadded preFix = false) (hfull : 2 ^ 31 ≤ d.precison + preFix.length) :
    ∃ len blank, d.forSetoux preFix = { d with len, blank } ∧ blank ≤ 0 := by
  have hoct : (preFix.getD 0 0 == '0'.toUInt8 && preFix.getD 1 0 == 0) = false := by
    rwa [octalPadded, decide_eq_true hs, Bool.and_true] at hpadded
  have hint : int32 (d.precison + preFix.length) = d.precison + preFix.length - 2 ^ 32 := by
    rw [int32, Int.bmod_def]
    split <;> omega
  have hlen : max3 d.width d.strlen (int32 (d.precison + preFix.length)) = max d.width d.strlen := by
    rw [hint, max3]
    omega
  have hblank : int32 (max d.width d.strlen - d.precison - preFix.length) =
      max d.width d.strlen - d.precison - preFix.length :=
    int32_of_range (by omega) (by omega)
  refine ⟨max d.width d.strlen, max d.width d.strlen - d.precison - preFix.length, ?_, by omega⟩
  unfold forSetoux
  simp only [if_neg (Int.not_le.mpr hs), hoct, Bool.not_false, if_true]
  refine (if_pos (show (!d.octalPadded preFix) = true by rw [hpadded]; rfl)).trans ?_
  rw [hlen, hblank]

/-- The precision counts the digits, where it is no `int` together with the prefix. -/
theorem digitCount_full (h : Parsed d) (hpre : preFix.length ≤ 2)
    (hfull : 2 ^ 31 ≤ d.precison + preFix.length) : d.digitCount d.ori = d.precison := by
  have hori := h.ori_lt
  unfold digitCount
  omega

/-- `set_oxu`, for such a precision. -/
theorem setOxu_full (h : Parsed d) (hz : d.oriZero = false) (hash : d.flag '#' = true)
    (hpre : preFix.length ≤ 2) (hpadded : d.octalPadded preFix = false)
    (hfull : 2 ^ 31 ≤ d.precison + preFix.length) :
    ∃ len blank, d.setOxu preFix = { d with noPre := false, len, blank } ∧ blank ≤ 0 := by
  have hlt := h.precison_lt
  have hori := h.ori_lt
  have hstrlen := h.strlen
  have hpos := h.digits_pos.trans_le h.digits_le
  have hne : d.precison ≠ -1 := by omega
  have hcond : (!d.oriZero && d.flag '#') = true := by rw [hz, hash]; rfl
  obtain ⟨len, blank, heq, hle⟩ := forSetoux_full (d := { d with noPre := false })
    (by change 0 < d.strlen; omega) (by change d.strlen < d.precison; omega) hlt h.width_lt hpre
    hpadded (by simp only; omega)
  refine ⟨len, blank, ?_, hle⟩
  rw [setOxu_of_precison h (setOxu_precison h hz), digitCount_full h hpre hfull,
    beq_eq_false_iff_ne.mpr hne]
  exact (if_pos hcond).trans heq

/-- What is written for such a precision, with the blanks on either side: prefix, zeros and digits. -/
theorem oux_full (len : Int) {blank : Int} (h : Parsed d) (hpre : preFix.length ≤ 2)
    (hfull : 2 ^ 31 ≤ d.precison + preFix.length) (hfront : d.hashPrefix preFix = preFix)
    (hblank : blank ≤ 0) :
    { d with noPre := false, len, blank }.goRightOux preFix = preFix ++ d.paddedDigits d.ori ∧
      { d with noPre := false, len, blank }.forPrintOux preFix = preFix ++ d.paddedDigits d.ori := by
  have hlt := h.precison_lt
  have hori := h.ori_lt
  have hzeros : { d with noPre := false, len, blank }.zeros =
      d.digitCount d.ori - d.ori.length := by
    change int32 (d.precison - d.strlen) = _
    rw [h.strlen, digitCount_full h hpre hfull, int32_of_range (by omega) (by omega)]
  have hnil : ftPutnchar ' ' blank = [] := by
    rw [ftPutnchar, Int.toNat_of_nonpos hblank]
    rfl
  constructor
  · rw [goRightOux, if_neg (by simp), forRightOux_eq, hzeros]
    change ftPutnchar ' ' blank ++ d.hashPrefix preFix ++ _ ++ _ = _
    rw [hnil, hfront, List.nil_append, List.append_assoc]
    rfl
  · rw [forPrintOux_eq, hzeros]
    change d.hashPrefix preFix ++ _ ++ d.ori ++ ftPutnchar ' ' blank = _
    rw [hnil, hfront, List.append_nil, List.append_assoc]
    rfl

/-- The field is full, and the precision is given. -/
theorem numberText_full (h : Parsed d) (hpre : preFix.length ≤ 2)
    (hfull : 2 ^ 31 ≤ d.precison + preFix.length) :
    d.numberText preFix d.ori = preFix ++ d.paddedDigits d.ori := by
  have hw := h.width_lt
  have hpad : d.padCount preFix d.ori = 0 := by
    unfold padCount numberCount
    rw [digitCount_full h hpre hfull]
    omega
  have hne : ¬ (d.flag '0' && d.precison == -1) = true := by
    rw [beq_eq_false_iff_ne.mpr (by omega : d.precison ≠ -1), Bool.and_false]
    exact Bool.false_ne_true
  have hnil : ftPutnchar ' ' 0 = [] := rfl
  rw [numberText, hpad, hnil, if_neg hne]
  split
  · rw [List.append_nil]
  · rfl

/-- The text of a number that is not zero, for every precision. -/
theorem setPrintOxuHash_text (h : Parsed d) (hz : d.oriZero = false) (hpre : preFix.length ≤ 2) :
    (d.setPrintOxuHash preFix).1 = d.numberText (d.hashPrefix preFix) d.ori := by
  by_cases hp : d.precison + (d.hashPrefix preFix).length < 2 ^ 31
  · rw [setPrintOxuHash_eq h hz hp hpre]
  have hlt := h.precison_lt
  have hshown : d.hashPrefix preFix = preFix ∧ d.flag '#' = true ∧
      d.octalPadded preFix = false := by
    by_cases hc : (d.flag '#' && !d.octalPadded preFix) = true
    · exact ⟨if_pos hc, by simpa using hc⟩
    · rw [hashPrefix, if_neg hc, List.length_nil] at hp
      omega
  obtain ⟨hfront, hash, hpadded⟩ := hshown
  rw [hfront] at hp ⊢
  have hfull := Int.not_lt.mp hp
  obtain ⟨len, blank, hset, hblank⟩ := setOxu_full h hz hash hpre hpadded hfull
  obtain ⟨hright, hleft⟩ := oux_full len h hpre hfull hfront hblank
  have hcond : (!(len == 0 && d.oriZero)) = true := by
    rw [hz, Bool.and_false]
    rfl
  have hz' : ¬ d.oriZero = true := by
    rw [hz]
    exact Bool.false_ne_true
  rw [setPrintOxuHash, hset, numberText_full h hpre hfull]
  refine (congrArg Prod.fst ((if_pos hcond).trans (if_neg hz'))).trans ?_
  cases hminus : d.flag '-' with
  | false =>
    exact (congrArg Prod.fst (if_pos (show (!d.flag '-') = true by rw [hminus]; rfl))).trans hright
  | true =>
    have hno : ¬ (!d.flag '-') = true := by
      rw [hminus]
      exact Bool.false_ne_true
    exact (congrArg Prod.fst (if_neg hno)).trans hleft

/-! ## Zero -/

/-- The zero is a digit, unless the precision is 0. -/
def zeroCount (d : TData) : Int := if d.precison = -1 then 1 else d.precison

theorem strlen_zero (hori : d.ori = ascii "0") : d.strlen = 1 := by
  rw [TData.strlen, hori, int32_of_lt (by decide)]
  rfl

theorem oriZero_zero (hori : d.ori = ascii "0") : d.oriZero = true := by
  rw [oriZero, hori]
  rfl

/-- The precision that `set_oxu` leaves is the number of digits. -/
theorem setOxu_zeroCount (h : Parsed d) (hori : d.ori = ascii "0") :
    (if !(d.oriZero && d.precison == 0) && decide (d.precison < d.strlen) then
        { d with noPre := d.precison == -1, precison := d.strlen }
      else { d with noPre := d.precison == -1 }) =
      { d with noPre := d.precison == -1, precison := d.zeroCount } := by
  have hge := h.precison_ge
  rw [oriZero_zero hori, strlen_zero hori, zeroCount]
  by_cases hp : d.precison = -1
  · rw [if_pos (by rw [hp]; rfl), if_pos hp]
  · have hcond : ¬ (!(true && d.precison == 0) && decide (d.precison < 1)) = true := by
      intro e
      simp only [Bool.true_and, Bool.and_eq_true, Bool.not_eq_true', beq_eq_false_iff_ne,
        decide_eq_true_eq] at e
      omega
    rw [if_neg hcond, if_neg hp]

theorem setOxu_zero (preFix : List UInt8) (h : Parsed d) (hori : d.ori = ascii "0") :
    d.setOxu preFix = if d.width = 0 ∧ d.precison = 0 then d else
      { d with
        noPre := d.precison == -1
        precison := d.zeroCount
        len := max d.width d.zeroCount
        blank := max d.width d.zeroCount - d.zeroCount } := by
  have hge := h.precison_ge
  have hw := h.width_nonneg
  have hz := oriZero_zero hori
  have hmax : max3 d.width d.strlen d.zeroCount = max d.width d.zeroCount ∨
      d.width = 0 ∧ d.precison = 0 := by
    rw [strlen_zero hori, max3, zeroCount]
    split <;> omega
  rw [setOxu_of_precison h (setOxu_zeroCount h hori)]
  have hash : ¬ (!d.oriZero && d.flag '#') = true := by
    rw [hz]
    exact Bool.false_ne_true
  refine (if_neg hash).trans ?_
  have hstr : { d with noPre := d.precison == -1, precison := d.zeroCount }.strlen = d.strlen := rfl
  rw [hstr]
  have hzero : (!(d.width == 0 && decide (d.zeroCount ≤ 0) && d.oriZero)) = true ↔
      ¬ (d.width = 0 ∧ d.precison = 0) := by
    have hc : d.zeroCount ≤ 0 ↔ d.precison = 0 := by
      unfold zeroCount
      split <;> omega
    simp [hz, hc, imp_iff_not_or]
  by_cases hempty : d.width = 0 ∧ d.precison = 0
  · rw [if_pos hempty]
    refine (if_neg (mt hzero.mp (not_not_intro hempty))).trans ?_
    have hcount : d.zeroCount = d.precison := if_neg (by omega)
    have hno : (d.precison == -1) = d.noPre := by
      rw [hempty.2, h.noPre]
      rfl
    rw [hcount, hno]
  · rw [if_neg hempty]
    refine (if_pos (hzero.mpr hempty)).trans ?_
    rw [hmax.resolve_right hempty]

/-- The zero without a digit and without a width writes nothing, but for the alternate form. -/
theorem setPrintOxuHash_zero (h : Parsed d) (hori : d.ori = ascii "0") (hlen : d.len = 0) :
    (d.setPrintOxuHash preFix).1 =
      if d.width = 0 ∧ d.precison = 0 then
        if d.flag '#' && preFix == ascii "0" then ascii "0" else []
      else
        { d with
          noPre := d.precison == -1
          precison := d.zeroCount
          len := max d.width d.zeroCount
          blank := max d.width d.zeroCount - d.zeroCount }.putZeroOux := by
  have hge := h.precison_ge
  have hw := h.width_nonneg
  have hz := oriZero_zero hori
  have hset := setOxu_zero preFix h hori
  by_cases hempty : d.width = 0 ∧ d.precison = 0
  · rw [if_pos hempty] at hset ⊢
    have hcond : ¬ (!(d.len == 0 && d.oriZero)) = true := by
      rw [hlen, hz]
      decide
    have hp : (d.precison == 0) = true := beq_iff_eq.mpr hempty.2
    rw [setPrintOxuHash, hset, if_neg hcond, hp, Bool.true_and]
    split_ifs <;> rfl
  · rw [if_neg hempty] at hset ⊢
    have hpos : max d.width d.zeroCount ≠ 0 := by
      unfold zeroCount
      split <;> omega
    rw [← hset]
    have hcond : (!((d.setOxu preFix).len == 0 && (d.setOxu preFix).oriZero)) = true := by
      have hne : (d.setOxu preFix).len ≠ 0 := by
        rw [hset]
        exact hpos
      rw [beq_eq_false_iff_ne.mpr hne]
      rfl
    have hez : (d.setOxu preFix).oriZero = true := by
      rw [hset]
      exact hz
    rw [setPrintOxuHash, if_pos hcond, if_pos hez]

theorem putZeroOux_length (hp : 0 ≤ d.precison) (hl : d.precison ≤ d.len)
    (h1 : d.noPre = true → 1 ≤ d.len) : d.putZeroOux.length = d.len := by
  cases hn : d.noPre with
  | true =>
    have hlen := h1 hn
    rw [putZeroOux, if_pos hn]
    split_ifs <;> simp [ftPutnchar] <;> omega
  | false =>
    rw [putZeroOux, if_neg (by rw [hn]; decide), putNopre]
    split_ifs <;> simp [ftPutnchar] <;> omega

theorem setPrintOxuHash_zero_length (h : Parsed d) (hori : d.ori = ascii "0") (hlen : d.len = 0) :
    ((d.setPrintOxuHash preFix).1.length : Int) = (d.setPrintOxuHash preFix).2.len := by
  have hge := h.precison_ge
  have hw := h.width_nonneg
  have hz := oriZero_zero hori
  have hset := setOxu_zero preFix h hori
  by_cases hempty : d.width = 0 ∧ d.precison = 0
  · rw [if_pos hempty] at hset
    have hcond : ¬ (!(d.len == 0 && d.oriZero)) = true := by
      rw [hlen, hz]
      decide
    rw [setPrintOxuHash, hset, if_neg hcond]
    split_ifs
    · rfl
    · exact hlen.symm
  · rw [if_neg hempty] at hset
    generalize he : d.setOxu preFix = e at hset
    have hez : e.oriZero = true := by rw [hset]; exact hz
    have hpos : 0 < max d.width d.zeroCount := by
      unfold zeroCount
      split <;> omega
    have hcond : (!(e.len == 0 && e.oriZero)) = true := by
      have hne : e.len ≠ 0 := by
        rw [hset]
        exact hpos.ne'
      rw [beq_eq_false_iff_ne.mpr hne]
      rfl
    rw [setPrintOxuHash, he, if_pos hcond, if_pos hez]
    refine putZeroOux_length ?_ ?_ ?_
    · rw [hset]
      change 0 ≤ d.zeroCount
      unfold zeroCount
      split <;> omega
    · rw [hset]
      exact le_max_right _ _
    · intro _
      rw [hset]
      exact hpos

/-- `set_print_oxu_hash` writes as many bytes as it reports. -/
theorem setPrintOxuHash_length (h : Parsed d)
    (hz : d.oriZero = true → d.ori = ascii "0") (hlen : d.len = 0) (hp : d.precison < 2 ^ 30)
    (hpre : preFix.length ≤ 2) :
    ((d.setPrintOxuHash preFix).1.length : Int) = (d.setPrintOxuHash preFix).2.len := by
  cases hzero : d.oriZero with
  | true => exact setPrintOxuHash_zero_length h (hz hzero) hlen
  | false =>
    have hfront := hashPrefix_length d preFix
    rw [setPrintOxuHash_eq h hzero (by omega) hpre]
    exact numberText_length

end TData

end NmOtool
