import NmOtool.Printf.Calls
import NmOtool.Printf.Compose
import NmOtool.Printf.UnsignedText

/-!
# ft_printf: whole formats

`meaning` is the text that C gives a format of plain text, `%%`, `%c`, `%s`, `%d`, `%i`, `%u`, `%o`,
`%x` and `%X`, with all flags, widths, precisions and length modifiers. `ft_printf` writes it and
returns its length if every field is one that its conversion gets `Right`.
-/

namespace NmOtool

open MachO Checked

/-! ## The meaning of a conversion -/

/-- A conversion of C, but for those of pointers and wide characters. -/
inductive Conversion where
  | signed
  | unsigned (c : UnsignedLetter)
  | chr
  | str
  deriving DecidableEq, Repr

namespace Conversion

def letters : Conversion → List UInt8
  | signed => ascii "di"
  | unsigned .u => ascii "u"
  | unsigned .o => ascii "o"
  | unsigned .x => ascii "x"
  | unsigned .bigX => ascii "X"
  | chr => ascii "c"
  | str => ascii "s"

/-- The conversion of the table `set`. -/
def con (mem : Memory) : Conversion → Con
  | signed => conD
  | unsigned c => c.con mem
  | chr => conC
  | str => conS mem

end Conversion

/-- The argument as the signed type of the length modifier, for one of 64 bits. -/
def signedValue (cast : TCast) (arg : BitVec 64) : Int :=
  match cast with
  | .hh => (arg.setWidth 8).toInt
  | .h => (arg.setWidth 16).toInt
  | .none => (arg.setWidth 32).toInt
  | .l | .ll | .j | .z => arg.toInt

/-- `t` with blanks up to the width. -/
def blankField (flags : List UInt8) (width : Nat) (t : List UInt8) : List UInt8 :=
  let pad := List.replicate (width - t.length) ' '.toUInt8
  if '-'.toUInt8 ∈ flags then t ++ pad else pad ++ t

namespace Conversion

/-- The text of the argument `arg`. -/
def text (mem : Memory) (k : Conversion) (flags : List UInt8) (width : Nat)
    (precision : Option Nat) (cast : TCast) (arg : BitVec 64) : List UInt8 :=
  match k with
  | signed => signedText flags width precision (signedValue cast arg)
  | unsigned c => unsignedText c flags width precision (unsignedValue cast arg)
  | chr => blankField flags width [.ofBitVec (arg.setWidth 8)]
  | str => blankField flags width ((mem.str arg).take (precision.getD (mem.str arg).length))

/-- The fields in which the conversion of the table writes the text. An octal number has no more
digits than the decimal one. For `%c` and `%s` the fields are those that C gives a meaning to, and
the string has a length that is an `int`. -/
def Right (mem : Memory) (k : Conversion) (flags : List UInt8) (width : Nat)
    (precision : Option Nat) (cast : TCast) (arg : BitVec 64) : Prop :=
  match k with
  | signed => ¬ (signedValue cast arg = 0 ∧ precision = some 0 ∧ SignMisplaced flags width)
  | unsigned c => ArgumentFits cast arg ∧ c.HasRoom (unsignedValue cast arg) ∧
      ¬ (unsignedValue cast arg = 0 ∧ ZeroMisplaced c flags width precision)
  | chr => (∀ f ∈ flags, f = '-'.toUInt8) ∧ precision = none ∧ cast = .none
  | str => (∀ f ∈ flags, f = '-'.toUInt8) ∧ cast = .none ∧ arg ≠ 0 ∧
      (mem.str arg).length < 2 ^ 31

variable {mem : Memory} {k : Conversion} {flags flags' : List UInt8} {width : Nat}
  {precision : Option Nat} {cast : TCast} {arg : BitVec 64} {b : UInt8}

theorem lookup_con (h : b ∈ k.letters) : (iniSet mem).lookup b = some (k.con mem) := by
  rcases k with _ | c | _ | _
  · rcases List.mem_pair.mp h with rfl | rfl <;> rfl
  · cases c <;> cases List.mem_singleton.mp h <;> rfl
  · cases List.mem_singleton.mp h
    rfl
  · cases List.mem_singleton.mp h
    rfl

/-- Flags count as a set. -/
theorem text_congr (h : ∀ c, c ∈ flags ↔ c ∈ flags') :
    k.text mem flags width precision cast arg = k.text mem flags' width precision cast arg := by
  cases k with
  | signed => simp only [text, signedText, signText, h]
  | unsigned c => simp only [text, unsignedText, unsignedNumber, inField, h]
  | chr => simp only [text, blankField, h]
  | str => simp only [text, blankField, h]

theorem right_congr (h : ∀ c, c ∈ flags ↔ c ∈ flags') :
    k.Right mem flags width precision cast arg ↔ k.Right mem flags' width precision cast arg := by
  cases k with
  | signed => simp only [Right, SignMisplaced, h]
  | unsigned c => simp only [Right, ZeroMisplaced, h]
  | chr => simp only [Right, h]
  | str => simp only [Right, h]

end Conversion

/-! ## The conversions -/

variable {mem : Memory} {m : Buffer} {p size : Nat} {args args' : VaList} {flags : List UInt8}
  {width : Nat} {precision : Option Nat} {cast : TCast} {k : Conversion} {b : UInt8}
  {t l post out : List UInt8} {d : Directive}

theorem fits_fieldData (hw : width < 2 ^ 30) (hp : ∀ q ∈ precision, q < 2 ^ 30) :
    ({ fieldData flags width precision with cast } : TData).Fits := by
  have hwidth : (width : Int) < 2 ^ 30 := by exact_mod_cast hw
  have hprecision : -1 ≤ precision.elim (-1 : Int) (fun n => n) ∧
      precision.elim (-1 : Int) (fun n => n) < 2 ^ 30 := by
    cases precision with
    | none => exact ⟨Int.le_refl _, by decide⟩
    | some q =>
      have hq := hp q rfl
      rw [Option.elim_some]
      omega
  exact ⟨Int.natCast_nonneg width, hwidth, hprecision.1, hprecision.2⟩

/-- What is written for a signed number, a zero without digits included. -/
theorem setPrintD_right {v : Int} (hv : v.natAbs < 2 ^ 64) (hw : width < 2 ^ 31)
    (hp : ∀ q ∈ precision, q < 2 ^ 31)
    (h : ¬ (v = 0 ∧ precision = some 0 ∧ SignMisplaced flags width)) :
    (signedData flags width precision v).setPrintD.1 = signedText flags width precision v := by
  by_cases h0 : v = 0 ∧ precision = some 0
  · obtain ⟨rfl, rfl⟩ := h0
    have hsign : ¬ SignMisplaced flags width := fun hsign => h ⟨rfl, rfl, hsign⟩
    by_cases hwidth : width = 0
    · subst hwidth
      exact noDigits_width_zero.mpr hsign
    · exact (noDigits_width_pos hwidth).mpr hsign
  · exact setPrintD_signedData hv hw hp h0

theorem castNuD_eq (cast : TCast) (arg : BitVec 64) :
    castNuD cast arg = itoaSigned (signedValue cast arg) := by
  cases cast <;> rfl

theorem natAbs_signedValue (cast : TCast) (arg : BitVec 64) :
    (signedValue cast arg).natAbs < 2 ^ 64 := by
  cases cast <;> exact natAbs_toInt_lt (by decide) _

/-- The length modifier is for the argument only. -/
theorem setPrintD_cast {d : TData} (h : d.Parsed) (cast : TCast) :
    ({ d with cast } : TData).setPrintD.1 = d.setPrintD.1 := by
  have h' : ({ d with cast } : TData).Parsed :=
    ⟨h.width_nonneg, h.width_lt, h.precison_ge, h.precison_lt, h.digits_ne, h.ori_lt, h.noPre⟩
  by_cases h0 : (d.oriZero && d.precison == 0) = false
  · rw [TData.setPrintD_eq h' h0, TData.setPrintD_eq h h0]
    rfl
  · obtain ⟨hz, hp⟩ := Bool.and_eq_true_iff.mp (Bool.not_eq_false _ ▸ h0)
    have hp := beq_iff_eq.mp hp
    rw [TData.setPrintD_zero (d := { d with cast }) hp hz h.noPre,
      TData.setPrintD_zero hp hz h.noPre]
    rfl

theorem con_signed
    (hdata : setData m p size args = .ok ({ fieldData flags width precision with cast }, args'))
    (hw : width < 2 ^ 30) (hp : ∀ q ∈ precision, q < 2 ^ 30)
    (h : Conversion.signed.Right mem flags width precision cast (args' 0)) :
    ∃ d, conD m p size args =
      .ok (signedText flags width precision (signedValue cast (args' 0)), d, args'.rest) := by
  have hv := natAbs_signedValue cast (args' 0)
  have hw' : width < 2 ^ 31 := by omega
  have hp' : ∀ q ∈ precision, q < 2 ^ 31 := fun q hq => (hp q hq).trans (by decide)
  have hparsed : (signedData flags width precision (signedValue cast (args' 0))).Parsed :=
    signedData_parsed hv hw' hp'
  have hcast := setPrintD_cast hparsed cast
  rw [conD, conSigned, hdata, ok_bind, ← setPrintD_right hv hw' hp' h, ← hcast]
  simp only [castNuD_eq]
  exact ⟨_, rfl⟩

theorem con_unsigned {c : UnsignedLetter} (hm : ∀ n, (mem.malloc n).size = n)
    (hdata : setData m p size args = .ok ({ fieldData flags width precision with cast }, args'))
    (hw : width < 2 ^ 30) (hp : ∀ q ∈ precision, q < 2 ^ 30)
    (h : (Conversion.unsigned c).Right mem flags width precision cast (args' 0)) :
    ∃ d, c.con mem m p size args =
      .ok (unsignedText c flags width precision (unsignedValue cast (args' 0)), d, args'.rest) := by
  have hw' : width < 2 ^ 31 := by omega
  have hp' : ∀ q ∈ precision, q < 2 ^ 31 := fun q hq => (hp q hq).trans (by decide)
  have htext : ((unsignedData c cast flags width precision
      (unsignedValue cast (args' 0))).setPrintOxuHash c.preFix).1 =
      unsignedText c flags width precision (unsignedValue cast (args' 0)) := by
    by_cases h0 : unsignedValue cast (args' 0) = 0
    · have hzero : ¬ ZeroMisplaced c flags width precision := fun hzero => h.2.2 ⟨h0, hzero⟩
      rw [h0]
      cases precision with
      | none => exact (zero_none hw').mpr hzero
      | some q => exact (zero_some hw' (hp' q rfl)).mpr hzero
    · exact setPrintOxuHash_unsignedData h0 (unsignedValue_lt cast (args' 0)) hw' hp'
  rw [con_eq hm hdata, castNu_fits h.1, if_pos h.2.1, htext]
  exact ⟨_, rfl⟩

theorem length_blankField : (blankField flags width t).length = max width t.length := by
  unfold blankField
  simp only
  split
  · rw [List.length_append, List.length_replicate]
    omega
  · rw [List.length_append, List.length_replicate]
    omega

theorem putC_eq {d : TData} {c : UInt8} (hflags : ∀ f ∈ d.flags, f = '-'.toUInt8)
    (hlen : d.len = max 1 (width : Int)) : putC d [c] = blankField d.flags width [c] := by
  have hminus : d.flag '-' = decide ('-'.toUInt8 ∈ d.flags) :=
    TData.flag_of_flags d.flags rfl (by decide)
  have hzero : d.flag '0' = false := by
    rw [TData.flag_of_flags d.flags rfl (by decide)]
    exact decide_eq_false fun h => absurd (hflags _ h) (by decide)
  have hpad : (d.len - 1).toNat = width - 1 := by omega
  unfold putC blankField ftPutnchar
  rw [hminus, hzero, hpad, if_neg Bool.false_ne_true]
  simp only [decide_eq_true_eq]
  rfl

theorem con_chr
    (hdata : setData m p size args = .ok ({ fieldData flags width precision with cast }, args'))
    (h : Conversion.chr.Right mem flags width precision cast (args' 0)) :
    ∃ d, conC m p size args =
        .ok (blankField flags width [.ofBitVec ((args' 0).setWidth 8)], d, args'.rest) ∧
      d.len = (max width 1 : Nat) := by
  obtain ⟨hflags, -, rfl⟩ := h
  have hlen : max 1 (width : Int) = (max width 1 : Nat) := by omega
  refine ⟨{ fieldData flags width precision with len := max 1 width, cast := .none }, ?_, hlen⟩
  rw [conC, hdata, ok_bind]
  exact congrArg (fun out => Checked.ok (out, _, _)) (putC_eq hflags rfl)

/-- `set_print_s` on a string of `l` characters, of which `n` are written. -/
theorem setPrintS_eq (d : TData) (l n : Nat) (put : Int → List UInt8) (hw : width < 2 ^ 31)
    (hwidth : d.width = width) (hl : l < 2 ^ 31) (hput : (put n).length = n)
    (hn : d.precison = -1 ∧ n = l ∨ ∃ q : Nat, d.precison = q ∧ n = min q l) :
    (setPrintS d (int32 l) put).1 = blankField d.flags width (put n) ∧
      (setPrintS d (int32 l) put).2.len = (max width n : Nat) := by
  have key : ∀ e : TData, e.flags = d.flags → e.width = width →
      (if ({ e with len := max e.width (n : Int) } : TData).flag '-' then
          put n ++ ftPutnchar ' ' (int32 (max e.width (n : Int) - n))
        else ftPutnchar ' ' (int32 (max e.width (n : Int) - n)) ++ put n) =
          blankField d.flags width (put n) ∧
        max e.width (n : Int) = (max width n : Nat) := by
    intro e hflags hwidth
    have hminus : ({ e with len := max e.width (n : Int) } : TData).flag '-' =
        decide ('-'.toUInt8 ∈ d.flags) := TData.flag_of_flags d.flags hflags (by decide)
    have hpad : ftPutnchar ' ' (int32 (max e.width (n : Int) - n)) =
        List.replicate (width - n) ' '.toUInt8 := by
      rw [ftPutnchar, show max e.width (n : Int) - n = ((width - n : Nat) : Int) by omega,
        int32_of_lt (by omega), Int.toNat_natCast]
    simp only [hminus, hpad, decide_eq_true_eq, blankField, hput, true_and]
    omega
  rw [int32_of_lt hl]
  unfold setPrintS
  rcases hn with ⟨hp, rfl⟩ | ⟨q, hp, rfl⟩
  · simp only [if_pos hp, gt_iff_lt, Int.lt_irrefl, if_false]
    exact key { d with precison := n } rfl hwidth
  · have hmin : (if d.precison > l then (l : Int) else d.precison) = (min q l : Nat) := by
      rw [hp]
      split <;> omega
    have hne : ¬ d.precison = -1 := by omega
    simp only [if_neg hne, hmin]
    exact key d rfl hwidth

theorem con_str
    (hdata : setData m p size args = .ok ({ fieldData flags width precision with cast }, args'))
    (hw : width < 2 ^ 30)
    (h : Conversion.str.Right mem flags width precision cast (args' 0)) :
    ∃ d, conS mem m p size args =
        .ok (Conversion.str.text mem flags width precision cast (args' 0), d, args'.rest) ∧
      d.len = ((Conversion.str.text mem flags width precision cast (args' 0)).length : Nat) := by
  obtain ⟨-, rfl, harg, hlen⟩ := h
  have htake : ∀ k, ((mem.str (args' 0)).take k).length = min k (mem.str (args' 0)).length :=
    fun k => List.length_take
  have hwidth : (fieldData flags width precision).width = width := rfl
  have hprint := setPrintS_eq { fieldData flags width precision with ori := mem.str (args' 0) }
    (mem.str (args' 0)).length
    (min (precision.getD (mem.str (args' 0)).length) (mem.str (args' 0)).length)
    (fun nbr => (mem.str (args' 0)).take nbr.toNat) (by omega) hwidth hlen
    (by rw [Int.toNat_natCast, htake, Nat.min_assoc, Nat.min_self]) (by
      cases precision with
      | none => exact .inl ⟨rfl, Nat.min_self _⟩
      | some q => exact .inr ⟨q, rfl, rfl⟩)
  rw [conS, hdata, ok_bind]
  refine ⟨(setPrintStr { fieldData flags width precision with cast := .none }
    (mem.str (args' 0))).2, ?_, ?_⟩
  · simp only
    rw [if_neg (by decide), if_neg harg, Conversion.text, List.take_eq_take_min]
    refine congrArg (fun out => Checked.ok (out, _, _)) ?_
    rw [setPrintStr]
    exact hprint.1
  · rw [setPrintStr]
    refine hprint.2.trans ?_
    rw [Conversion.text, length_blankField, htake]

/-- A conversion writes the text of C, and reports its length. -/
theorem con_text (hm : ∀ n, (mem.malloc n).size = n) (hb : b ∈ k.letters)
    (hdata : setData m p size args = .ok ({ fieldData flags width precision with cast }, args'))
    (hw : width < 2 ^ 30) (hp : ∀ q ∈ precision, q < 2 ^ 30)
    (h : k.Right mem flags width precision cast (args' 0)) :
    ∃ d, k.con mem m p size args =
        .ok (k.text mem flags width precision cast (args' 0), d, args'.rest) ∧
      d.len = ((k.text mem flags width precision cast (args' 0)).length : Nat) := by
  have hlookup : (iniSet mem).lookup b = some (k.con mem) := Conversion.lookup_con hb
  obtain ⟨before, after, htable, -⟩ := List.lookup_eq_some_iff.mp hlookup
  have hmem : (b, k.con mem) ∈ iniSet mem :=
    htable ▸ List.mem_append_right before List.mem_cons_self
  have hfits : ({ fieldData flags width precision with cast } : TData).Fits :=
    fits_fieldData hw hp
  cases k with
  | signed =>
    have hnumeric : isNumeric b := by
      rcases List.mem_pair.mp hb with rfl | rfl <;> rfl
    obtain ⟨d, hrun⟩ := con_signed hdata hw hp h
    exact ⟨d, hrun, (iniSet_counts _ hmem hnumeric _ _ _ _ _ _ hdata hfits _ _ _ hrun).symm⟩
  | unsigned c =>
    have hnumeric : isNumeric b := by
      cases c <;> cases List.mem_singleton.mp hb <;> rfl
    obtain ⟨d, hrun⟩ := con_unsigned hm hdata hw hp h
    exact ⟨d, hrun, (iniSet_counts _ hmem hnumeric _ _ _ _ _ _ hdata hfits _ _ _ hrun).symm⟩
  | chr =>
    obtain ⟨d, hrun, hlen⟩ := con_chr hdata h
    refine ⟨d, hrun, ?_⟩
    rw [Conversion.text, length_blankField]
    exact hlen
  | str => exact con_str hdata hw h

/-! ## Directives -/

namespace Directive

/-- The flags, width and precision that C reads: a negative '*' width is a flag '-', and a negative
'*' precision none. -/
def flagsMeant (d : Directive) (args : VaList) : List UInt8 :=
  if d.negativeWidth args then '-'.toUInt8 :: d.flags else d.flags

def widthMeant (d : Directive) (args : VaList) : Nat := (d.width.elim 0 (Field.width args)).toNat

def precisionMeant (d : Directive) (args : VaList) : Option Nat :=
  match d.precison with
  | none => none
  | some (.digits l) => some (decimalValue l)
  | some .star =>
    if vaInt (d.widthRest args) < 0 then none else some (vaInt (d.widthRest args)).toNat

/-- The field fits into `int`s, with room for what is added there, and a negative '*' width stands
beside a '-'. -/
structure FieldOk (d : Directive) (args : VaList) : Prop where
  body : d.body.length + 1 < 2 ^ 31
  minus : d.negativeWidth args → '-'.toUInt8 ∈ d.flags
  width : d.widthMeant args < 2 ^ 30
  precision : ∀ q ∈ d.precisionMeant args, q < 2 ^ 30

theorem FieldOk.star (h : d.FieldOk args) (hstar : d.width = some .star) :
    vaInt args ≠ -2 ^ 31 := by
  intro hmin
  have hw := h.width
  rw [widthMeant, hstar, Option.elim_some, Field.width, hmin] at hw
  exact absurd hw (by decide)

theorem elim_precisionMeant : (d.precisionMeant args).elim (-1) (fun n => (n : Int)) =
    d.precison.elim (-1) (Field.precison (d.widthRest args)) := by
  unfold precisionMeant
  rcases d.precison with _ | l | _
  · rfl
  · rfl
  · simp only [Option.elim_some, Field.precison]
    split
    · rfl
    · rw [Option.elim_some]
      omega

/-- No byte of a directive ends the format. -/
theorem text_ne_zero (d : Directive) : ∀ b ∈ d.text, b ≠ 0 := by
  have hdigits : ∀ l : List UInt8, (∀ c ∈ l, isDigit c) → ∀ b ∈ l, b ≠ 0 := by
    rintro l hl b hb rfl
    exact absurd (hl 0 hb) (by decide)
  have hstar : ∀ b ∈ Field.star.text, b ≠ 0 := by decide +kernel
  have hwidth : ∀ b ∈ d.widthText, b ≠ 0 := by
    unfold widthText
    cases hw : d.width with
    | none => exact List.forall_mem_nil _
    | some field =>
      cases field with
      | digits l => exact hdigits l (d.width_digits l hw).2.2.1
      | star => exact hstar
  have hprecison : ∀ b ∈ d.precisonText, b ≠ 0 := by
    unfold precisonText
    cases hp : d.precison with
    | none => exact List.forall_mem_nil _
    | some field =>
      refine List.forall_mem_cons.mpr ⟨by decide, ?_⟩
      cases field with
      | digits l => exact hdigits l (d.precison_digits l hp).1
      | star => exact hstar
  have hletter : d.letter ≠ 0 := by
    intro h
    have hF := d.letter_isF
    rw [h] at hF
    exact absurd hF (by decide)
  intro b hb
  simp only [text, body, List.mem_cons, List.mem_append, List.not_mem_nil, or_false] at hb
  rcases hb with rfl | (((hb | hb) | hb) | hb) | rfl
  · decide
  · exact (flag_char (d.flags_mem b hb)).1
  · exact hwidth b hb
  · exact hprecison b hb
  · have hmodifier := (modifier_char (modifier_text _ b hb)).1
    rintro rfl
    exact absurd hmodifier (by decide)
  · exact hletter

end Directive

theorem elim_injective {a b : Option Nat}
    (h : a.elim (-1) (fun n => (n : Int)) = b.elim (-1) (fun n => (n : Int))) : a = b := by
  cases a with
  | none =>
    cases b with
    | none => rfl
    | some b =>
      simp only [Option.elim_none, Option.elim_some] at h
      omega
  | some a =>
    cases b with
    | none =>
      simp only [Option.elim_none, Option.elim_some] at h
      omega
    | some b => exact congrArg some (Int.ofNat_inj.mp h)

theorem setData_meant (h : TextAt m p (d.text ++ post)) (hd : d.FieldOk args) :
    ∃ flags, setData m p (d.body.length + 1) args =
        .ok ({ fieldData flags (d.widthMeant args) (d.precisionMeant args) with cast := d.cast },
          d.argsRest args) ∧
      ∀ c, c ∈ flags ↔ c ∈ d.flagsMeant args := by
  obtain ⟨flags, width, precision, hdata, hflags, hwidth, hprecision⟩ := setData_fieldData h hd.star
  have hw : d.widthMeant args = width := by
    rw [Directive.widthMeant, ← hwidth, Int.toNat_natCast]
  have hp : d.precisionMeant args = precision :=
    elim_injective (Directive.elim_precisionMeant.trans hprecision.symm)
  refine ⟨flags, hw ▸ hp ▸ hdata, fun c => (hflags c).trans ?_⟩
  rw [Directive.flagsMeant]
  split
  · next hneg =>
    rw [List.mem_cons]
    exact ⟨.inr, fun hc => hc.elim (fun e => e ▸ hd.minus hneg) id⟩
  · rfl

/-! ## Formats -/

inductive Piece where
  | text (l : List UInt8)
  | percent
  | directive (k : Conversion) (d : Directive)

namespace Piece

def format : Piece → List UInt8
  | text l => l
  | percent => ascii "%%"
  | directive _ d => d.text

/-- What C writes for the piece. -/
def meaning (mem : Memory) (args : VaList) : Piece → List UInt8
  | text l => l
  | percent => ascii "%"
  | directive k d =>
    k.text mem (d.flagsMeant args) (d.widthMeant args) (d.precisionMeant args) d.cast
      (d.argsRest args 0)

/-- The arguments behind the ones of the piece. -/
def rest (args : VaList) : Piece → VaList
  | text _ | percent => args
  | directive _ d => (d.argsRest args).rest

def Right (mem : Memory) (args : VaList) : Piece → Prop
  | text l => ∀ b ∈ l, b ≠ 0 ∧ b ≠ '%'.toUInt8
  | percent => True
  | directive k d => d.letter ∈ k.letters ∧ d.FieldOk args ∧
      k.Right mem (d.flagsMeant args) (d.widthMeant args) (d.precisionMeant args) d.cast
        (d.argsRest args 0)

end Piece

/-- What C writes for a format, piece by piece with the arguments that are left. -/
def meaning (mem : Memory) : List Piece → VaList → List UInt8
  | [], _ => []
  | piece :: pieces, args => piece.meaning mem args ++ meaning mem pieces (piece.rest args)

def AllRight (mem : Memory) : List Piece → VaList → Prop
  | [], _ => True
  | piece :: pieces, args => piece.Right mem args ∧ AllRight mem pieces (piece.rest args)

/-! ## Runs -/

variable {piece : Piece} {pieces : List Piece}

/-- From `p` on, with `args` left, `ft_printf` writes `out` and counts it. -/
def Prints (mem : Memory) (m : Buffer) (p : Nat) (args : VaList) (out : List UInt8) : Prop :=
  ∀ fuel nbr, m.size ≤ fuel + p →
    ftPrintfFrom mem m fuel p (int32 nbr) args = .ok (out, int32 (nbr + out.length))

theorem prints_end (h : TextAt m p []) : Prints mem m p args [] := by
  intro fuel nbr hf
  have hsize := h.size_lt
  cases fuel with
  | zero => omega
  | succ fuel =>
    rw [ftPrintfFrom, h.head, ok_bind, List.getD_nil, if_pos rfl, List.length_nil, Nat.cast_zero,
      Int.add_zero]
    rfl

theorem prints_text (h : TextAt m p (l ++ t)) (hl : ∀ b ∈ l, b ≠ 0 ∧ b ≠ '%'.toUInt8)
    (ht : Prints mem m (p + l.length) args out) : Prints mem m p args (l ++ out) := by
  induction l generalizing p with
  | nil => exact ht
  | cons c l ih =>
    obtain ⟨⟨hc, hper⟩, hl⟩ := List.forall_mem_cons.mp hl
    have htail : Prints mem m (p + 1) args (l ++ out) :=
      ih h.tail hl (by rwa [Nat.add_assoc, Nat.add_comm 1])
    intro fuel nbr hf
    have hsize := h.size_lt
    cases fuel with
    | zero => omega
    | succ fuel =>
      rw [ftPrintfFrom, h.head, ok_bind, List.cons_append, List.getD_cons_zero, if_neg hc,
        if_neg hper, int32_add, htail fuel (nbr + 1) (by omega), ok_bind]
      have hlen : nbr + 1 + ((l ++ out).length : Nat) = nbr + ((c :: (l ++ out)).length : Nat) := by
        rw [List.length_cons]
        omega
      rw [hlen]
      rfl

/-- A directive that writes `t` and reports its length. -/
theorem prints_directive {c : UInt8} {body u rest : List UInt8} {args' : VaList}
    (h : TextAt m p ('%'.toUInt8 :: (body ++ c :: u)))
    (hdir : ftPrintfDirective mem m p args = .ok (body.length + 1, t, (t.length : Int), args'))
    (hrest : Prints mem m (p + (body.length + 1) + 1) args' rest) :
    Prints mem m p args (t ++ rest) := by
  intro fuel nbr hf
  have hsize := h.size_lt
  cases fuel with
  | zero => omega
  | succ fuel =>
    rw [ftPrintfFrom, h.head, ok_bind, List.getD_cons_zero, if_neg (by decide), if_pos rfl, hdir,
      ok_bind]
    simp only
    rw [int32_add, hrest fuel (nbr + t.length) (by omega), ok_bind, List.length_append,
      Nat.cast_add, Int.add_assoc]
    rfl

/-- `con_per` of "%%". -/
theorem percent_directive {u : List UInt8} (h : TextAt m p ('%'.toUInt8 :: '%'.toUInt8 :: u)) :
    ftPrintfDirective mem m p args = .ok (1, ascii "%", 1, args) := by
  have hend : ¬ InDirective '%'.toUInt8 := by decide
  have hdata : setData m p 1 args = .ok (TData.init, args) := by
    have hself : TextAt (formatOf (ascii "%%")) 0 (['%'.toUInt8] ++ '%'.toUInt8 :: []) :=
      textAt_formatOf (by decide +kernel)
    exact setData_same (w := ['%'.toUInt8]) (stops_of_not_inDirective hend) h hself args
  have hletter : m.load (p + 1) = .ok '%'.toUInt8 := h.load 1 (by simp)
  have hbody : directiveBody ('%'.toUInt8 :: u) = [] :=
    directiveBody_append (List.forall_mem_nil _) hend
  rw [ftPrintfDirective, moveIFrom_percent h, hbody, if_pos (by decide), ok_bind]
  simp only [List.length_nil, Nat.zero_add]
  rw [hletter, ok_bind, show (iniSet mem).lookup '%'.toUInt8 = some conPer from rfl]
  simp only
  rw [conPer, hdata]
  rfl

theorem directive_meant (hm : ∀ n, (mem.malloc n).size = n) (h : TextAt m p (d.text ++ post))
    (hright : (Piece.directive k d).Right mem args) : ftPrintfDirective mem m p args =
      .ok (d.body.length + 1, (Piece.directive k d).meaning mem args,
        (((Piece.directive k d).meaning mem args).length : Nat), (d.argsRest args).rest) := by
  obtain ⟨hletter, hfield, hk⟩ := hright
  obtain ⟨flags, hdata, hflags⟩ := setData_meant h hfield
  obtain ⟨data, hrun, hlen⟩ := con_text hm hletter hdata hfield.width hfield.precision
    ((Conversion.right_congr hflags).mpr hk)
  rw [Conversion.text_congr hflags] at hrun hlen
  have hload : m.load (p + (d.body.length + 1)) = .ok d.letter := by
    rw [text_cons] at h
    rw [h.load _ (by simp)]
    simp
  rw [ftPrintfDirective, moveIFrom_text h hfield.body, ok_bind, hload, ok_bind,
    Conversion.lookup_con hletter]
  simp only
  rw [hrun, ok_bind]
  simp only
  rw [hlen]
  rfl

theorem prints_piece (hm : ∀ n, (mem.malloc n).size = n) (h : TextAt m p (piece.format ++ t))
    (hright : piece.Right mem args)
    (hrest : Prints mem m (p + piece.format.length) (piece.rest args) out) :
    Prints mem m p args (piece.meaning mem args ++ out) := by
  cases piece with
  | text l => exact prints_text h hright hrest
  | percent =>
    have hfmt : TextAt m p ('%'.toUInt8 :: ([] ++ '%'.toUInt8 :: t)) := h
    exact prints_directive hfmt (percent_directive h) hrest
  | directive k d =>
    have hlen : d.text.length = d.body.length + 1 + 1 := by
      rw [Directive.text, List.length_cons, List.length_append, List.length_singleton]
    have hfmt : TextAt m p (d.text ++ t) := h
    have hdir := directive_meant hm hfmt hright
    rw [text_cons] at hfmt
    refine prints_directive hfmt hdir ?_
    rwa [Nat.add_assoc, ← hlen]

theorem prints_pieces (hm : ∀ n, (mem.malloc n).size = n)
    (h : TextAt m p (pieces.flatMap Piece.format))
    (hright : AllRight mem pieces args) : Prints mem m p args (meaning mem pieces args) := by
  induction pieces generalizing p args with
  | nil => exact prints_end h
  | cons piece pieces ih =>
    rw [List.flatMap_cons] at h
    have hbehind := h.drop piece.format.length (by simp)
    rw [List.drop_left] at hbehind
    exact prints_piece hm h hright.1 (ih hbehind hright.2)

theorem format_ne_zero (h : AllRight mem pieces args) :
    ∀ b ∈ pieces.flatMap Piece.format, b ≠ 0 := by
  induction pieces generalizing args with
  | nil => exact List.forall_mem_nil _
  | cons piece pieces ih =>
    rw [List.flatMap_cons]
    refine List.forall_mem_append.mpr ⟨?_, ih h.2⟩
    cases piece with
    | text l => exact fun b hb => (h.1 b hb).1
    | percent => decide +kernel
    | directive k d => exact d.text_ne_zero

end NmOtool
