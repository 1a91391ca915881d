import NmOtool.Printf.Directive

/-!
# ft_printf: the calls of the two programs

What `ft_printf` writes for a format of plain text around directives, from the place it is at on. The
formats that the programs hand over write what `ftPrintfS` and `ftPrintfX2` say.
-/

namespace NmOtool

open MachO Checked

/-- From `p` on, with `args` left, `ft_printf` writes `out`. -/
def Writes (mem : Memory) (m : Buffer) (p : Nat) (args : VaList) (out : List UInt8) : Prop :=
  ∀ fuel nbr, m.size ≤ fuel + p →
    ∃ nbr', ftPrintfFrom mem m fuel p nbr args = .ok (out, nbr')

variable {mem : Memory} {m : Buffer} {p size : Nat} {t l out rest : List UInt8} {c : UInt8}
  {args args' : VaList} {con : Con} {data : TData} {d : Directive} {body pre post : List UInt8}

theorem writes_end (h : TextAt m p []) : Writes mem m p args [] := by
  intro fuel nbr hf
  have hsize := h.size_lt
  cases fuel with
  | zero => omega
  | succ fuel =>
    refine ⟨nbr, ?_⟩
    rw [ftPrintfFrom, h.head]
    rfl

theorem writes_char (h : TextAt m p (c :: t)) (hc : c ≠ '%'.toUInt8)
    (hw : Writes mem m (p + 1) args out) : Writes mem m p args (c :: out) := by
  intro fuel nbr hf
  have hsize := h.size_lt
  cases fuel with
  | zero => omega
  | succ fuel =>
    obtain ⟨nbr', hrun⟩ := hw fuel (int32 (nbr + 1)) (by omega)
    refine ⟨nbr', ?_⟩
    rw [ftPrintfFrom, h.head, ok_bind, List.getD_cons_zero,
      if_neg (h.ne_zero c List.mem_cons_self), if_neg hc, hrun]
    rfl

theorem writes_text (h : TextAt m p (l ++ t)) (hl : '%'.toUInt8 ∉ l)
    (hw : Writes mem m (p + l.length) args out) : Writes mem m p args (l ++ out) := by
  induction l generalizing p with
  | nil => exact hw
  | cons c l ih =>
    rw [List.mem_cons, not_or] at hl
    refine writes_char h (Ne.symm hl.1) (ih h.tail hl.2 ?_)
    rwa [Nat.add_assoc, Nat.add_comm 1]

theorem writes_tail (h : TextAt m p l) (hl : '%'.toUInt8 ∉ l) : Writes mem m p args l := by
  have hend := h.drop l.length (Nat.le_refl _)
  rw [List.drop_length] at hend
  rw [← l.append_nil] at h
  exact l.append_nil ▸ writes_text h hl (writes_end hend)

/-- A directive with its letter, and what the conversion of the letter writes. -/
theorem writes_directive (h : TextAt m p ('%'.toUInt8 :: (body ++ c :: t)))
    (hbody : ∀ b ∈ body, InDirective b) (hc : ¬ InDirective c) (hlen : body.length + 1 < 2 ^ 31)
    (hcon : (iniSet mem).lookup c = some con)
    (hrun : con m p (body.length + 1) args = .ok (out, data, args'))
    (hw : Writes mem m (p + (body.length + 1) + 1) args' rest) :
    Writes mem m p args (out ++ rest) := by
  intro fuel nbr hf
  have hsize := h.size_lt
  have hletter : m.load (p + (body.length + 1)) = .ok c := by
    rw [h.load _ (by simp)]
    simp
  have hdir : ftPrintfDirective mem m p args = .ok (body.length + 1, out, data.len, args') := by
    rw [ftPrintfDirective, moveIFrom_percent h, directiveBody_append hbody hc, if_pos hlen, ok_bind,
      hletter, ok_bind, hcon]
    simp only
    rw [hrun]
    rfl
  cases fuel with
  | zero => omega
  | succ fuel =>
    obtain ⟨nbr', hrest⟩ := hw fuel (int32 (nbr + data.len)) (by omega)
    refine ⟨nbr', ?_⟩
    rw [ftPrintfFrom, h.head, ok_bind, List.getD_cons_zero, if_neg (by decide), if_pos rfl, hdir,
      ok_bind]
    simp only
    rw [hrest]
    rfl

/-- A format of one directive in plain text. -/
theorem ftPrintf_text (hpre : '%'.toUInt8 ∉ pre) (hpost : '%'.toUInt8 ∉ post)
    (hlen : d.body.length + 1 < 2 ^ 31) (hne : ∀ b ∈ pre ++ (d.text ++ post), b ≠ 0)
    (hcon : (iniSet mem).lookup d.letter = some con)
    (hrun : con (formatOf (pre ++ (d.text ++ post))) pre.length (d.body.length + 1) args =
      .ok (out, data, args')) :
    ∃ nbr, ftPrintf mem (pre ++ (d.text ++ post)) args = .ok (pre ++ (out ++ post), nbr) := by
  have htext := textAt_formatOf hne
  have hsize : (formatOf (pre ++ (d.text ++ post))).size ≤ (pre ++ (d.text ++ post)).length + 1 :=
    Nat.le_refl _
  unfold ftPrintf
  generalize formatOf (pre ++ (d.text ++ post)) = m at htext hrun hsize ⊢
  have hdir := htext.drop pre.length (by simp)
  rw [Nat.zero_add, List.drop_left] at hdir
  have htail := hdir.drop d.text.length (by simp)
  rw [List.drop_left] at htail
  have hlength : d.text.length = d.body.length + 1 + 1 := by
    rw [Directive.text, List.length_cons, List.length_append, List.length_singleton]
  rw [hlength] at htail
  rw [text_cons] at hdir
  refine writes_text htext hpre ?_ _ 0 hsize
  rw [Nat.zero_add]
  exact writes_directive hdir inDirective_body not_inDirective_letter hlen hcon hrun
    (writes_tail htail hpost)

/-! ## The formats of the programs -/

/-- The directive "%s". -/
def strDirective : Directive where
  flags := []
  width := none
  precison := none
  cast := .none
  letter := 's'.toUInt8
  flags_mem := List.forall_mem_nil _
  width_digits := by rintro l ⟨⟩
  precison_digits := by rintro l ⟨⟩
  letter_isF := rfl

/-- The directive "%.2x". -/
def byteDirective : Directive where
  flags := []
  width := none
  precison := some (.digits (ascii "2"))
  cast := .none
  letter := 'x'.toUInt8
  flags_mem := List.forall_mem_nil _
  width_digits := by rintro l ⟨⟩
  precison_digits := by
    rintro l ⟨⟩
    decide +kernel
  letter_isF := rfl

/-- What is read of a directive without flags. -/
theorem setData_noFlags (args : VaList) (h : TextAt m p (d.text ++ post)) (hflags : d.flags = [])
    (hwidth : d.width = none) :
    setData m p (d.body.length + 1) args = .ok ({ TData.init with
      precison := d.precison.elim (-1) (Field.precison args)
      cast := d.cast }, d.argsRest args) := by
  obtain ⟨data, hok, hmem, hdata⟩ := setData_text args h (by simp [hwidth])
  have hnil : data.flags = [] :=
    List.eq_nil_iff_forall_not_mem.mpr fun c hc => by simpa [hflags] using (hmem c).mp hc
  rw [hok, hdata, hnil, hwidth, Directive.widthRest, hwidth]
  rfl

theorem conS_writes (h : setData m p size args = .ok (data, args')) (hcast : data.cast ≠ .l)
    (harg : args' 0 ≠ 0) (hout : (setPrintStr data (mem.str (args' 0))).1 = out) :
    ∃ d, conS mem m p size args = .ok (out, d, args'.rest) := by
  rw [conS, h, ok_bind]
  simp only
  rw [if_neg hcast, if_neg harg, ← hout]
  exact ⟨_, rfl⟩

theorem conUnsigned_writes {numeral : TCast → BitVec 64 → Checked (List UInt8)}
    {preFix l : List UInt8} (h : setData m p size args = .ok (data, args'))
    (hl : numeral data.cast (args' 0) = .ok l)
    (hout : ({ data with ori := l }.setPrintOxuHash preFix).1 = out) :
    ∃ d, conUnsigned numeral preFix m p size args = .ok (out, d, args'.rest) := by
  rw [conUnsigned, h, ok_bind]
  simp only
  rw [hl, ok_bind, ← hout]
  exact ⟨_, rfl⟩

/-- A string without a field, as a whole. -/
theorem setPrintStr_init (s : List UInt8) : (setPrintStr TData.init s).1 = ftPrintfS s := by
  rw [setPrintStr, setPrintS, ftPrintfS]
  simp only [TData.init, ite_true, ite_self]
  rfl

/-- `ft_printf` of "%s" in plain text writes the string. -/
theorem ftPrintf_s (hpre : '%'.toUInt8 ∉ pre) (hpost : '%'.toUInt8 ∉ post)
    (hne : ∀ b ∈ pre ++ (strDirective.text ++ post), b ≠ 0) (harg : args 0 ≠ 0) :
    ∃ nbr, ftPrintf mem (pre ++ (strDirective.text ++ post)) args =
      .ok (pre ++ (ftPrintfS (mem.str (args 0)) ++ post), nbr) := by
  have hdir := (textAt_formatOf hne).drop pre.length (by simp)
  rw [Nat.zero_add, List.drop_left] at hdir
  have hdata := setData_noFlags args hdir rfl rfl
  have hcon : (iniSet mem).lookup strDirective.letter = some (conS mem) := rfl
  have hargs : strDirective.argsRest args = args := rfl
  rw [hargs] at hdata
  obtain ⟨d, hrun⟩ : ∃ d, conS mem _ _ _ args = .ok (ftPrintfS (mem.str (args 0)), d, args.rest) :=
    conS_writes hdata (fun h => nomatch (h : TCast.none = TCast.l)) harg (setPrintStr_init _)
  exact ftPrintf_text hpre hpost (by decide) hne hcon hrun

/-- `ft_printf` of "%.2x" in plain text writes the two digits of a byte. -/
theorem ftPrintf_x2 {b : UInt8} (hm : ∀ n, n ≤ (mem.malloc n).size) (hpre : '%'.toUInt8 ∉ pre)
    (hpost : '%'.toUInt8 ∉ post) (hne : ∀ c ∈ pre ++ (byteDirective.text ++ post), c ≠ 0)
    (harg : args 0 = b.toBitVec.setWidth 64) :
    ∃ nbr, ftPrintf mem (pre ++ (byteDirective.text ++ post)) args =
      .ok (pre ++ (ftPrintfX2 b ++ post), nbr) := by
  have hdir := (textAt_formatOf hne).drop pre.length (by simp)
  rw [Nat.zero_add, List.drop_left] at hdir
  have hdata := setData_noFlags args hdir rfl rfl
  have hcon : (iniSet mem).lookup byteDirective.letter = some (conX mem) := rfl
  have hargs : byteDirective.argsRest args = args := rfl
  have hnu : castNu byteDirective.cast (args 0) = b.toNat := by
    rw [show byteDirective.cast = .none from rfl, castNu, harg]
    simp
  have hb : b.toNat < 2 ^ 64 := b.toNat_lt.trans (by decide)
  have hnumeral : itoaHex mem.malloc (castNu byteDirective.cast (args 0)) =
      .ok (hexNumeral b.toNat) := by
    rw [hnu, itoaHex_eq hm hb, hexNumeral_eq hb]
  rw [hargs] at hdata
  obtain ⟨d, hrun⟩ : ∃ d, conX mem _ _ _ args = .ok (ftPrintfX2 b, d, args.rest) :=
    conUnsigned_writes hdata hnumeral rfl
  exact ftPrintf_text hpre hpost (by decide) hne hcon hrun

end NmOtool
