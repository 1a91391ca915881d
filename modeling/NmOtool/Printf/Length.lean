import NmOtool.Printf.Run

/-!
# ft_printf: the length that is reported

`set_print_d` and `set_print_oxu_hash` work the length out before they write. What they report is
what they write, for every numeral in a field below `2 ^ 30`, so that the number that `ft_printf`
returns counts the bytes of its numeric conversions.
-/

namespace NmOtool

open MachO Checked

/-- A width and a precision below `2 ^ 30`, or no precision. -/
structure TData.Fits (d : TData) : Prop where
  width_nonneg : 0 ≤ d.width
  width_lt : d.width < 2 ^ 30
  precison_ge : -1 ≤ d.precison
  precison_lt : d.precison < 2 ^ 30

/-- `data` as `set_flags` leaves it to the printing functions. -/
structure TData.Fresh (d : TData) : Prop where
  noPre : d.noPre = false
  len : d.len = 0

variable {mem : Memory} {m : Buffer} {p i f size fuel : Nat} {args args' rest : VaList} {c : UInt8}
  {s s' : FlagsRound} {d data : TData} {out preFix : List UInt8} {nbr nbr' : Int}

theorem Numeral.head_ne_minus {l : List UInt8} (h : Numeral l) : l.getD 0 0 ≠ '-'.toUInt8 := by
  intro hminus
  cases l with
  | nil => exact h.ne_nil rfl
  | cons c l =>
    have hc := h.digit c List.mem_cons_self
    rw [List.getD_cons_zero] at hminus
    rw [hminus] at hc
    exact absurd hc (by decide)

namespace TData

theorem Fits.parsed (h : d.Fits) (hfresh : d.Fresh) (hn : SignedNumeral d.ori)
    (hl : d.ori.length + 2 < 2 ^ 31) : Parsed d where
  width_nonneg := h.width_nonneg
  width_lt := h.width_lt.trans (by decide)
  precison_ge := h.precison_ge
  precison_lt := h.precison_lt.trans (by decide)
  digits_ne := by
    rcases hn with hn | ⟨digits, hori, hn⟩
    · rw [digits, oriMinus, beq_eq_false_iff_ne.mpr hn.head_ne_minus]
      exact hn.ne_nil
    · rw [TData.digits, oriMinus, hori]
      exact hn.ne_nil
  ori_lt := hl
  noPre := hfresh.noPre

/-- A zero in front is a zero. -/
theorem oriZero_of_signedNumeral (hn : SignedNumeral d.ori) (hz : d.oriZero = true) :
    d.ori = ascii "0" := by
  rw [oriZero, beq_iff_eq] at hz
  rcases hn with hn | ⟨digits, hori, -⟩
  · exact hn.zero hz
  · rw [hori, List.getD_cons_zero] at hz
    exact absurd hz (by decide)

theorem setPrintD_length_of_numeral (h : d.Fits) (hfresh : d.Fresh) (hn : SignedNumeral d.ori)
    (hl : d.ori.length + 2 < 2 ^ 31) : (d.setPrintD.1.length : Int) = d.setPrintD.2.len :=
  setPrintD_length (h.parsed hfresh hn hl) h.precison_lt

theorem setPrintOxuHash_length_of_numeral (h : d.Fits) (hfresh : d.Fresh)
    (hn : SignedNumeral d.ori) (hl : d.ori.length + 2 < 2 ^ 31) (hpre : preFix.length ≤ 2) :
    ((d.setPrintOxuHash preFix).1.length : Int) = (d.setPrintOxuHash preFix).2.len :=
  setPrintOxuHash_length (h.parsed hfresh hn hl) (oriZero_of_signedNumeral hn) hfresh.len
    h.precison_lt hpre

end TData

/-! ## What `set_flags` leaves alone -/

theorem FlagsRound.flag_fresh (h : s.data.Fresh) : (s.flag c).data.Fresh := by
  unfold FlagsRound.flag
  split
  · exact h
  · exact ⟨h.noPre, h.len⟩

theorem setZeroFlag_fresh (hs : setZeroFlag m f s = .ok s') (h : s.data.Fresh) :
    s'.data.Fresh := by
  obtain ⟨c, -, hs⟩ := bind_eq_ok.mp hs
  split_ifs at hs
  · obtain ⟨precison, -, hs⟩ := bind_eq_ok.mp hs
    obtain ⟨n, -, hs⟩ := bind_eq_ok.mp hs
    cases hs
    exact ⟨h.noPre, h.len⟩
  · cases hs
    exact FlagsRound.flag_fresh h
  · cases hs
    exact h

theorem flagsStar_fresh (hs : flagsStar m f s = .ok s') (h : s.data.Fresh) : s'.data.Fresh := by
  obtain ⟨c, -, hs⟩ := bind_eq_ok.mp hs
  simp only at hs
  split_ifs at hs <;> cases hs <;> exact ⟨h.noPre, h.len⟩

theorem star_fresh (star : Bool)
    (hs : (if star then flagsStar m f s else setZeroFlag m f s) = .ok s') (h : s.data.Fresh) :
    s'.data.Fresh := by
  split at hs
  · exact flagsStar_fresh hs h
  · exact setZeroFlag_fresh hs h

theorem setFlagsRound_fresh (hs : setFlagsRound m f s = .ok s') (h : s.data.Fresh) :
    s'.data.Fresh := by
  obtain ⟨c, -, hs⟩ := bind_eq_ok.mp hs
  split at hs
  · cases hs
    exact FlagsRound.flag_fresh h
  · obtain ⟨dot, -, hs⟩ := bind_eq_ok.mp hs
    split at hs
    · obtain ⟨width, -, hs⟩ := bind_eq_ok.mp hs
      obtain ⟨n, -, hs⟩ := bind_eq_ok.mp hs
      cases hs
      exact ⟨h.noPre, h.len⟩
    · simp only at hs
      split at hs
      · exact star_fresh true hs h
      · split at hs
        · obtain ⟨d, -, hs⟩ := bind_eq_ok.mp hs
          exact star_fresh (d == '*'.toUInt8) hs h
        · exact star_fresh false hs h

theorem setFlagsFrom_fresh (hs : setFlagsFrom m f size fuel s = .ok s') (h : s.data.Fresh) :
    s'.data.Fresh := by
  induction fuel generalizing s with
  | zero => cases hs
  | succ fuel ih =>
    unfold setFlagsFrom at hs
    split_ifs at hs
    · obtain ⟨s₁, hs₁, hs⟩ := bind_eq_ok.mp hs
      exact ih hs (setFlagsRound_fresh hs₁ h)
    · cases hs
      exact h

theorem setCast_fresh (hs : setCast d m p size = .ok data) (h : d.Fresh) : data.Fresh := by
  have hcast (cast : TCast) : { d with cast }.Fresh := ⟨h.noPre, h.len⟩
  obtain ⟨found, -, hs⟩ := bind_eq_ok.mp hs
  split at hs
  · obtain ⟨double, -, hs⟩ := bind_eq_ok.mp hs
    cases hs
    exact hcast _
  obtain ⟨found, -, hs⟩ := bind_eq_ok.mp hs
  split at hs
  · obtain ⟨double, -, hs⟩ := bind_eq_ok.mp hs
    cases hs
    exact hcast _
  obtain ⟨found, -, hs⟩ := bind_eq_ok.mp hs
  split at hs
  · cases hs
    exact hcast _
  obtain ⟨found, -, hs⟩ := bind_eq_ok.mp hs
  split at hs <;> cases hs <;> exact hcast _

theorem setData_fresh (h : setData m p size args = .ok (data, rest)) : data.Fresh := by
  obtain ⟨⟨data₁, args₁⟩, hflags, h⟩ := bind_eq_ok.mp h
  obtain ⟨s, hs, hflags⟩ := bind_eq_ok.mp hflags
  obtain ⟨data₂, hcast, h⟩ := bind_eq_ok.mp h
  cases h
  cases hflags
  exact setCast_fresh hcast (setFlagsFrom_fresh hs ⟨rfl, rfl⟩)

/-! ## The numeric conversions -/

/-- The letters of the numeric conversions. -/
def isNumeric (c : UInt8) : Bool := (ascii "oOdDiuUpxXb").contains c

/-- A conversion that reports what it writes, where its field is below `2 ^ 30`. -/
def Counts (con : Con) : Prop :=
  ∀ m p size args data args', setData m p size args = .ok (data, args') → data.Fits →
    ∀ out d rest, con m p size args = .ok (out, d, rest) → (out.length : Int) = d.len

theorem ShortNumeral.ori_lt {l : List UInt8} (h : ShortNumeral l) : l.length + 2 < 2 ^ 31 := by
  have := h.2
  omega

theorem conSigned_counts {numeral : TCast → BitVec 64 → List UInt8}
    (hn : ∀ cast arg, ShortNumeral (numeral cast arg)) : Counts (conSigned numeral) := by
  intro m p size args data args' hdata hfit out d rest h
  have hfresh := setData_fresh hdata
  have hnum := hn data.cast (args' 0)
  rw [conSigned, hdata, ok_bind] at h
  cases h
  exact TData.setPrintD_length_of_numeral ⟨hfit.1, hfit.2, hfit.3, hfit.4⟩ ⟨hfresh.1, hfresh.2⟩
    hnum.1 hnum.ori_lt

theorem conUnsigned_counts {numeral : TCast → BitVec 64 → Checked (List UInt8)}
    (hn : ∀ cast arg l, numeral cast arg = .ok l → ShortNumeral l) (hpre : preFix.length ≤ 2) :
    Counts (conUnsigned numeral preFix) := by
  intro m p size args data args' hdata hfit out d rest h
  have hfresh := setData_fresh hdata
  rw [conUnsigned, hdata, ok_bind] at h
  obtain ⟨l, hl, h⟩ := bind_eq_ok.mp h
  have hnum := hn _ _ _ hl
  cases h
  exact TData.setPrintOxuHash_length_of_numeral ⟨hfit.1, hfit.2, hfit.3, hfit.4⟩
    ⟨hfresh.1, hfresh.2⟩ hnum.1 hnum.ori_lt hpre

/-- The text of `ft_convert_base`, where it returns, is a numeral. -/
theorem shortNumeral_ftConvertBase {malloc : Nat → Buffer} {base l : List UInt8} {n : Nat}
    (hb : DigitBase base) (hn : n < 2 ^ 64)
    (h : ftConvertBase malloc (ftItoaUnmax n) (ascii "0123456789") base = .ok l) :
    ShortNumeral l := by
  rw [ftItoaUnmax_eq hn,
    ftConvertBase_numeralOf malloc digitBase_dec.toAlphabet hb.toAlphabet hb.nul_not_mem hn] at h
  split at h
  · cases h
    exact shortNumeral_numeralOf hb hn
  · cases h

theorem shortNumeral_itoaBase {malloc : Nat → Buffer} {l : List UInt8} {n k : Nat} (h2 : 2 ≤ k)
    (h10 : k ≤ 10) (hn : n < 2 ^ 64) (h : itoaBase malloc n 10 k = .ok l) : ShortNumeral l := by
  have hten : setBase 10 = ascii "0123456789" := by decide +kernel
  rw [itoaBase, hten] at h
  exact shortNumeral_ftConvertBase (digitBase_setBase h2 h10) hn h

theorem conP_counts : Counts (conP mem) := by
  intro m p size args data args' hdata hfit out d rest h
  have hfresh := setData_fresh hdata
  rw [conP, hdata, ok_bind] at h
  obtain ⟨l, hl, h⟩ := bind_eq_ok.mp h
  have hnum : ShortNumeral l := shortNumeral_ftConvertBase digitBase_hex (args' 0).isLt hl
  simp only [pure_eq] at h
  split at h
  · cases h
    exact TData.setPrintOxuHash_length_of_numeral ⟨hfit.1, hfit.2, hfit.3, hfit.4⟩
      ⟨hfresh.1, hfresh.2⟩ hnum.1 hnum.ori_lt (by decide)
  · cases h
    have hthree : (ascii "0x0").length = 3 := rfl
    split <;> simp only [List.length_append, ftPutnchar, List.length_replicate, hthree] <;> omega

/-- Every numeric conversion of the table reports what it writes. -/
theorem iniSet_counts : ∀ e ∈ iniSet mem, isNumeric e.1 → Counts e.2 := by
  simp only [iniSet, List.forall_mem_cons]
  refine ⟨?s, ?S, ?o, ?O, ?d, ?D, ?i, ?c, ?C, ?u, ?U, ?per, ?p, ?x, ?X, ?b, List.forall_mem_nil _⟩
  case s | S | c | C | per => exact fun h => absurd h (by decide)
  case d | i => exact fun _ => conSigned_counts shortNumeral_castNuD
  case D =>
    refine fun _ => conSigned_counts fun _ arg => ?_
    exact shortNumeral_itoaSigned (natAbs_toInt_lt (Nat.le_refl _) arg)
  case o | b =>
    refine fun _ => conUnsigned_counts (fun cast arg l => ?_) (by decide)
    exact shortNumeral_itoaBase (by decide) (by decide) (castNu_lt cast arg)
  case O =>
    refine fun _ => conUnsigned_counts (fun _ arg l => ?_) (by decide)
    exact shortNumeral_itoaBase (by decide) (by decide) arg.isLt
  case u =>
    refine fun _ => conUnsigned_counts (fun cast arg l h => ?_) (by decide)
    exact ok.inj h ▸ shortNumeral_ftItoaUnmax (castNu_lt cast arg)
  case U =>
    refine fun _ => conUnsigned_counts (fun _ arg l h => ?_) (by decide)
    exact ok.inj h ▸ shortNumeral_itoaSigned (natAbs_toInt_lt (Nat.le_refl _) arg)
  case x =>
    refine fun _ => conUnsigned_counts (fun cast arg l => ?_) (by decide)
    exact shortNumeral_ftConvertBase digitBase_hex (castNu_lt cast arg)
  case X =>
    refine fun _ => conUnsigned_counts (fun cast arg l => ?_) (by decide)
    exact shortNumeral_ftConvertBase digitBase_bigHex (castNu_lt cast arg)
  case p => exact fun _ => conP_counts

/-! ## The return value -/

/-- The places of the format, with the arguments left there, that a run of `ft_printf` gets to. -/
inductive Reached (mem : Memory) (m : Buffer) (args₀ : VaList) : Nat → VaList → Prop where
  | start : Reached mem m args₀ 0 args₀
  | char {p : Nat} {args : VaList} {c : UInt8} : Reached mem m args₀ p args →
      m.load p = .ok c → c ≠ 0 → c ≠ '%'.toUInt8 → Reached mem m args₀ (p + 1) args
  | directive {p i : Nat} {args args' : VaList} {out : List UInt8} {len : Int} :
      Reached mem m args₀ p args → m.load p = .ok '%'.toUInt8 →
      ftPrintfDirective mem m p args = .ok (i, out, len, args') →
      Reached mem m args₀ (p + i + 1) args'

/-- The directive at `p` is a numeric conversion, in a field below `2 ^ 30`. -/
def NumericAt (m : Buffer) (p : Nat) (args : VaList) : Prop :=
  ∃ i c data args', moveIFrom m p (m.size + 1) 0 false = .ok i ∧ m.load (p + i) = .ok c ∧
    isNumeric c ∧ setData m p i args = .ok (data, args') ∧ data.Fits

variable {len : Int}

theorem lookup_ne_none (h : isNumeric c) : (iniSet mem).lookup c ≠ none := by
  have hkeys : (iniSet mem).map Prod.fst = ascii "sSoOdDicCuU%pxXb" := rfl
  have hsub : ∀ c ∈ ascii "oOdDiuUpxXb", c ∈ ascii "sSoOdDicCuU%pxXb" := by decide +kernel
  have hmem := hsub c (by simpa [isNumeric] using h)
  rw [← hkeys, List.mem_map] at hmem
  obtain ⟨e, he, rfl⟩ := hmem
  intro hnone
  simpa using List.lookup_eq_none_iff.mp hnone e he

/-- What `ft_printf` adds to `m.nbr` for a numeric conversion is the number of its bytes. -/
theorem ftPrintfDirective_length (hnum : NumericAt m p args)
    (h : ftPrintfDirective mem m p args = .ok (i, out, len, args')) : (out.length : Int) = len := by
  obtain ⟨i, c, data, rest, hi, hc, hnumeric, hdata, hfit⟩ := hnum
  rw [ftPrintfDirective, hi, ok_bind, hc, ok_bind] at h
  cases hcon : (iniSet mem).lookup c with
  | none => exact absurd hcon (lookup_ne_none hnumeric)
  | some con =>
    rw [hcon] at h
    obtain ⟨before, after, htable, -⟩ := List.lookup_eq_some_iff.mp hcon
    have hmem : (c, con) ∈ iniSet mem := htable ▸ List.mem_append_right before List.mem_cons_self
    obtain ⟨⟨out, d, args'⟩, hout, h⟩ := bind_eq_ok.mp h
    cases h
    exact iniSet_counts _ hmem hnumeric _ _ _ _ _ _ hdata hfit _ _ _ hout

theorem int32_add (a b : Int) : int32 (int32 a + b) = int32 (a + b) := by
  unfold int32
  exact Int.bmod_add_bmod

/-- The number is the one of the bytes, as an `int`, on a run whose directives all are numeric. -/
theorem ftPrintfFrom_nbr {args₀ : VaList}
    (hnum : ∀ p args, Reached mem m args₀ p args → m.load p = .ok '%'.toUInt8 →
      NumericAt m p args)
    (hp : Reached mem m args₀ p args)
    (h : ftPrintfFrom mem m fuel p (int32 nbr) args = .ok (out, nbr')) :
    nbr' = int32 (nbr + out.length) := by
  induction fuel generalizing p args nbr out nbr' with
  | zero => cases h
  | succ fuel ih =>
    obtain ⟨c, hc, h⟩ := bind_eq_ok.mp h
    split at h
    · cases h
      exact congrArg int32 (Int.add_zero nbr).symm
    next hne =>
      split at h
      next hpercent =>
        subst hpercent
        obtain ⟨⟨i, out₁, len, args₁⟩, hdir, h⟩ := bind_eq_ok.mp h
        obtain ⟨⟨out₂, nbr₂⟩, hrun, h⟩ := bind_eq_ok.mp h
        have hlen := ftPrintfDirective_length (hnum p args hp hc) hdir
        rw [int32_add] at hrun
        have hrest := ih (.directive hp hc hdir) hrun
        cases h
        rw [hrest, ← hlen, List.length_append, Nat.cast_add, Int.add_assoc]
      next hpercent =>
        obtain ⟨⟨out₂, nbr₂⟩, hrun, h⟩ := bind_eq_ok.mp h
        rw [int32_add] at hrun
        have hrest := ih (.char hp hc hne hpercent) hrun
        cases h
        rw [hrest, List.length_cons]
        congr 1
        omega

/-- `set_print_d` and `set_print_oxu_hash` leave in `data->len` the number of bytes they write, for
every numeral, every flags and every field below `2 ^ 30`. What `ft_printf` adds for a numeric
conversion, and what it returns where there is no other one, is the number of bytes. -/
theorem numeric_length (mem : Memory) :
    (∀ d : TData, SignedNumeral d.ori → d.ori.length + 2 < 2 ^ 31 → d.Fresh → d.Fits →
      (d.setPrintD.1.length : Int) = d.setPrintD.2.len) ∧
    (∀ (d : TData) (preFix : List UInt8), preFix ∈ [[], ascii "0", ascii "0x", ascii "0X"] →
      Numeral d.ori → d.ori.length + 2 < 2 ^ 31 → d.Fresh → d.Fits →
      ((d.setPrintOxuHash preFix).1.length : Int) = (d.setPrintOxuHash preFix).2.len) ∧
    (∀ m p args i out len args', NumericAt m p args →
      ftPrintfDirective mem m p args = .ok (i, out, len, args') → (out.length : Int) = len) ∧
    ∀ format args out nbr,
      (∀ p args', Reached mem (formatOf format) args p args' →
        (formatOf format).load p = .ok '%'.toUInt8 → NumericAt (formatOf format) p args') →
      ftPrintf mem format args = .ok (out, nbr) → nbr = int32 out.length := by
  refine ⟨fun d hn hl hfresh hfit => ?_, fun d preFix hpre hn hl hfresh hfit => ?_,
    fun m p args i out len args' hnum h => ?_, fun format args out nbr hnum h => ?_⟩
  · exact TData.setPrintD_length_of_numeral hfit hfresh hn hl
  · have hshort : ∀ preFix ∈ [[], ascii "0", ascii "0x", ascii "0X"],
        preFix.length ≤ 2 := by decide
    exact TData.setPrintOxuHash_length_of_numeral hfit hfresh (.inl hn) hl (hshort preFix hpre)
  · exact ftPrintfDirective_length hnum h
  · have hrun : nbr = int32 (0 + out.length) := ftPrintfFrom_nbr hnum .start h
    rwa [Int.zero_add] at hrun

/-- On "%+d" the run gets to the directive and to the end. -/
theorem reached_sign (h : Reached mem (formatOf (ascii "%+d")) args p args') :
    p = 0 ∧ args' = args ∨ p = 3 := by
  induction h with
  | start => exact .inl ⟨rfl, rfl⟩
  | char _ hc hne hp ih =>
    rcases ih with ⟨rfl, -⟩ | rfl <;> cases hc
    · exact absurd rfl hp
    · exact absurd rfl hne
  | directive _ hc hdir ih =>
    rcases ih with ⟨rfl, -⟩ | rfl
    · have hformat : TextAt (formatOf (ascii "%+d")) 0 (ascii "%+d") :=
        textAt_formatOf (by decide +kernel)
      exact .inr (congrArg (0 + · + 1) (ftPrintfDirective_index hformat hdir).2)
    · cases hc

theorem numericAt_sign : NumericAt (formatOf (ascii "%+d")) 0 args :=
  ⟨2, 'd'.toUInt8, { ori := [], flags := ascii "+" }, args, rfl, rfl, rfl, rfl,
    ⟨by decide, by decide, by decide, by decide⟩⟩

/-- The parts at the numerals "-42" and "2a", at the directive "%+d" and at a run of it. -/
theorem numeric_length_sign :
    ((TData.setPrintD { ori := ascii "-42", flags := ascii "0", width := 6 }).1.length : Int) =
      (TData.setPrintD { ori := ascii "-42", flags := ascii "0", width := 6 }).2.len ∧
    ((TData.setPrintOxuHash { ori := ascii "2a", flags := ascii "#" } (ascii "0x")).1.length : Int) =
      (TData.setPrintOxuHash { ori := ascii "2a", flags := ascii "#" } (ascii "0x")).2.len ∧
    (∀ i out len args', ftPrintfDirective emptyMemory (formatOf (ascii "%+d")) 0 (fun _ => 7) =
      .ok (i, out, len, args') → (out.length : Int) = len) ∧
    ∀ out nbr, ftPrintf emptyMemory (ascii "%+d") (fun _ => 7) = .ok (out, nbr) →
      nbr = int32 out.length := by
  have h42 : Numeral (ascii "42") := ⟨by decide, by decide, by decide +kernel⟩
  have h2a : Numeral (ascii "2a") := ⟨by decide, by decide, by decide +kernel⟩
  obtain ⟨hd, hoxu, hdir, hrun⟩ := numeric_length emptyMemory
  refine ⟨hd _ (.inr ⟨_, rfl, h42⟩) (by decide) ⟨rfl, rfl⟩ ⟨?_, ?_, ?_, ?_⟩,
    hoxu _ _ (by decide) h2a (by decide) ⟨rfl, rfl⟩ ⟨?_, ?_, ?_, ?_⟩,
    fun i out len args' => hdir _ _ _ i out len args' numericAt_sign,
    fun out nbr => hrun _ _ out nbr fun p args' hp hc => ?_⟩
  case refine_9 =>
    rcases reached_sign hp with ⟨rfl, rfl⟩ | rfl
    · exact numericAt_sign
    · cases hc
  all_goals decide

end NmOtool
