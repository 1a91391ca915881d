import NmOtool.Nm.Filter

/-!
# ft_nm: the lines of the default listing

Without 'u' and 'j' a line is an address field, the letter and the name. `DefaultLine` says how
the reference listings write it: blanks for an undefined symbol, and otherwise a numeral that
reads back to the value at the record's address. The code writes the numeral for every symbol.
-/

namespace NmOtool.Nm

open MachO Checked

variable {m : Buffer} {flags : List UInt8} {list : List TNm} {r : TNm}

/-! ## Numerals -/

def lowerHexDigits : List UInt8 := ascii "0123456789abcdef"

/-- The value of a lower-case hexadecimal digit. -/
def hexValue (c : UInt8) : Nat :=
  if c ≤ '9'.toUInt8 then c.toNat - '0'.toNat else c.toNat - 'a'.toNat + 10

/-- The value of a numeral, most significant digit first. -/
def readHex (s : List UInt8) : Nat := s.foldl (fun v c => 16 * v + hexValue c) 0

/-- `s` is a numeral of `n` digits, zeros in front, for the value `v`. -/
structure Numeral (n v : Nat) (s : List UInt8) : Prop where
  length : s.length = n
  digits : ∀ c ∈ s, c ∈ lowerHexDigits
  value : readHex s = v

theorem hexDigit_mem {n : Nat} (h : n < 16) : hexDigit n ∈ lowerHexDigits := by
  have key : ∀ n : Fin 16, hexDigit n ∈ lowerHexDigits := by decide
  exact key ⟨n, h⟩

theorem hexValue_hexDigit {n : Nat} (h : n < 16) : hexValue (hexDigit n) = n := by
  have key : ∀ n : Fin 16, hexValue (hexDigit n) = n := by decide
  exact key ⟨n, h⟩

theorem readHex_append (s : List UInt8) (b : UInt8) :
    readHex (s ++ ftPrintfX2 b) = 256 * readHex s + b.toNat := by
  have hb := b.toNat_lt
  unfold readHex
  rw [List.foldl_append, ftPrintfX2_eq]
  simp only [List.foldl_cons, List.foldl_nil]
  rw [hexValue_hexDigit (by omega), hexValue_hexDigit (by omega)]
  omega

/-- Two digits a byte, the highest byte first, read back to the little-endian value. -/
theorem readHex_bytes (bs : List UInt8) : readHex (bs.reverse.flatMap ftPrintfX2) = ofLE bs := by
  induction bs with
  | nil => rfl
  | cons b bs ih =>
    rw [List.reverse_cons, List.flatMap_append, List.flatMap_singleton, readHex_append, ih,
      ofLE_cons, Nat.add_comm]

theorem hexWord_numeral {w v : Nat} (hv : v < 256 ^ w) : Numeral (2 * w) v (hexWord w v) where
  length := length_hexWord w v
  digits c hc := by
    obtain ⟨b, -, hc⟩ := List.mem_flatMap.mp hc
    have hb := b.toNat_lt
    rw [ftPrintfX2_eq] at hc
    simp only [List.mem_cons, List.not_mem_nil, or_false] at hc
    obtain rfl | rfl := hc
    · exact hexDigit_mem (by omega)
    · exact hexDigit_mem (by omega)
  value := by rw [hexWord, readHex_bytes, ofLE_toLE hv]

/-- A numeral is not blank. -/
theorem Numeral.ne_blanks {n v : Nat} {s : List UInt8} (h : Numeral n v s) (hn : 0 < n) :
    s ≠ List.replicate n ' '.toUInt8 := by
  rintro rfl
  have hmem := h.digits ' '.toUInt8 (List.mem_replicate.mpr ⟨by omega, rfl⟩)
  exact absurd hmem (by decide)

/-! ## Lines -/

/-- A line of the reference listings for the record `r`. -/
def DefaultLine (m : Buffer) (r : TNm) (line : List UInt8) : Prop :=
  let columns := 2 * wordSize r.is64
  ∃ field, line = field ++ ascii " " ++ [r.type] ++ ascii " " ++ m.cstr r.name ++ ascii "\n" ∧
    if isUndefined r.type then field = List.replicate columns ' '.toUInt8
    else Numeral columns (m.le (wordSize r.is64) r.add) field

/-- The line that the code prints. -/
def codeLine (m : Buffer) (r : TNm) : List UInt8 :=
  hexWord (wordSize r.is64) (m.le (wordSize r.is64) r.add) ++ ascii " " ++ [r.type] ++ ascii " " ++
    ftPrintfS (m.cstr r.name) ++ ascii "\n"

theorem wordSize_pos (x : Bool) : 0 < wordSize x := by cases x <;> decide

theorem printOne_default {line : List UInt8} (hu : ftStrchr flags 'u'.toUInt8 = false)
    (hj : ftStrchr flags 'j'.toUInt8 = false) (h : printOne m flags r = .ok line) :
    line = codeLine m r := by
  rw [printOne, hu, hj, if_pos (by decide)] at h
  obtain ⟨address, ha, h⟩ := bind_eq_ok.mp h
  rw [hexdumpAddress_ok (hexdumpAddress_le ha)] at ha
  cases ha
  rw [pure_eq, ok_bind] at h
  obtain ⟨name, hn, h⟩ := bind_eq_ok.mp h
  cases h
  rw [eq_cstr_of_ftStr hn]
  rfl

theorem printAll_default {lines : List UInt8} (hu : ftStrchr flags 'u'.toUInt8 = false)
    (hj : ftStrchr flags 'j'.toUInt8 = false) (h : printAll m flags list = .ok lines) :
    lines = (list.map (codeLine m)).flatten := by
  induction list generalizing lines with
  | nil =>
    cases h
    rfl
  | cons r list ih =>
    unfold printAll at h
    obtain ⟨line, hl, h⟩ := bind_eq_ok.mp h
    obtain ⟨rest, hr, h⟩ := bind_eq_ok.mp h
    cases h
    rw [printOne_default hu hj hl, ih hr]
    rfl

theorem DefaultLine.length_le {line : List UInt8} (h : DefaultLine m r line) :
    (codeLine m r).length ≤ line.length := by
  obtain ⟨field, rfl, hf⟩ := h
  have hfield : field.length = 2 * wordSize r.is64 := by
    split at hf
    · rw [hf, List.length_replicate]
    · exact hf.length
  have hname := (ftPrintfS_length (m.cstr r.name)).1
  simp only [codeLine, List.length_append, length_hexWord, hfield]
  omega

/-- The code's line is the reference's exactly for a defined symbol of a name below 2 GiB. -/
theorem defaultLine_codeLine : DefaultLine m r (codeLine m r) ↔
    isUndefined r.type = false ∧ (m.cstr r.name).length < 2 ^ 31 := by
  have hnum := hexWord_numeral (m.le_lt (n := wordSize r.is64) (p := r.add))
  have hpos := wordSize_pos r.is64
  constructor
  · rintro ⟨field, he, hf⟩
    have hlen : field.length = 2 * wordSize r.is64 := by
      split at hf
      · rw [hf, List.length_replicate]
      · exact hf.length
    simp only [codeLine, List.append_assoc] at he
    obtain ⟨rfl, he⟩ := List.append_inj he (by rw [hlen, length_hexWord])
    simp only [List.append_cancel_left_eq, List.append_cancel_right_eq] at he
    refine ⟨?_, ftPrintfS_eq_iff.mp he⟩
    by_contra hu
    rw [if_pos (Bool.eq_true_of_not_eq_false hu)] at hf
    exact hnum.ne_blanks (by omega) hf
  · rintro ⟨hu, hname⟩
    refine ⟨hexWord (wordSize r.is64) (m.le (wordSize r.is64) r.add), ?_, ?_⟩
    · rw [codeLine, ftPrintfS_eq hname]
    · rw [hu]
      exact hnum

/-! ## Listings -/

/-- Texts whose parts are no longer than those of another text are the same text only part by
part. -/
theorem flatten_inj_of_le {as bs : List (List UInt8)}
    (hle : List.Forall₂ (fun a b => a.length ≤ b.length) as bs) (h : as.flatten = bs.flatten) :
    as = bs := by
  have hflat : ∀ {as bs : List (List UInt8)},
      List.Forall₂ (fun a b => a.length ≤ b.length) as bs → as.flatten.length ≤ bs.flatten.length := by
    intro as bs hle
    induction hle with
    | nil => exact Nat.le_refl _
    | cons hab _ ih =>
      rw [List.flatten_cons, List.flatten_cons, List.length_append, List.length_append]
      omega
  induction hle with
  | nil => rfl
  | @cons a b as bs hab hrest ih =>
    rw [List.flatten_cons, List.flatten_cons] at h
    have hsum := congrArg List.length h
    rw [List.length_append, List.length_append] at hsum
    have hlen := hflat hrest
    obtain ⟨rfl, htail⟩ := List.append_inj h (by omega)
    rw [ih htail]

/-- The default listing is that of the reference exactly if no record of it is undefined, and no
name has 2 GiB. -/
theorem default_rendering {name : List UInt8} {mu : Bool} {o : Outcome}
    (h : printNmList m list name mu flags = .ok o) (hu : ftStrchr flags 'u'.toUInt8 = false)
    (hj : ftStrchr flags 'j'.toUInt8 = false) :
    let printed := list.filter fun r => canShowList r.type flags
    (∃ lines, List.Forall₂ (DefaultLine m) printed lines ∧
        o.out = heading name mu list ++ lines.flatten) ↔
      ∀ r ∈ printed, isUndefined r.type = false ∧ (m.cstr r.name).length < 2 ^ 31 := by
  obtain ⟨text, htext, ho⟩ := printNmList_prints h
  rw [ho, printAll_default hu hj htext]
  generalize list.filter (fun r => canShowList r.type flags) = printed
  constructor
  · rintro ⟨lines, hlines, he⟩
    have hle : List.Forall₂ (fun a b => a.length ≤ b.length) (printed.map (codeLine m)) lines :=
      List.forall₂_map_left_iff.mpr (hlines.imp fun r line => DefaultLine.length_le)
    rw [← flatten_inj_of_le hle (List.append_cancel_left he),
      List.forall₂_map_right_iff, List.forall₂_same] at hlines
    exact fun r hr => defaultLine_codeLine.mp (hlines r hr)
  · intro hall
    refine ⟨printed.map (codeLine m), ?_, rfl⟩
    rw [List.forall₂_map_right_iff, List.forall₂_same]
    exact fun r hr => defaultLine_codeLine.mpr (hall r hr)

theorem default_rendering_localSymbol : ∃ lines, List.Forall₂ (DefaultLine oneName)
      ([localSymbol].filter fun r => canShowList r.type []) lines ∧
    ascii "0000000000000001 t _local\n" = heading [] false [localSymbol] ++ lines.flatten :=
  (default_rendering (show printNmList oneName [localSymbol] [] false [] =
    .ok ⟨0, ascii "0000000000000001 t _local\n", []⟩ by decide +kernel) rfl rfl).mpr
    (by decide +kernel)

/-- An external undefined symbol, whose value the reference listing leaves blank. -/
def undefinedSymbol : TNm := { localSymbol with type := 'U'.toUInt8 }

theorem default_rendering_undefined :
    ¬ ∀ m list flags name mu o, printNmList m list name mu flags = .ok o →
      ftStrchr flags 'u'.toUInt8 = false → ftStrchr flags 'j'.toUInt8 = false →
      ∃ lines, List.Forall₂ (DefaultLine m)
          (list.filter fun r => canShowList r.type flags) lines ∧
        o.out = heading name mu list ++ lines.flatten := by
  intro h
  obtain ⟨lines, hlines, he⟩ := h oneName [undefinedSymbol] [] [] false
    ⟨0, ascii "0000000000000001 U _local\n", []⟩ (by decide +kernel) rfl rfl
  obtain _ | ⟨⟨field, rfl, hf⟩, hnil⟩ := hlines
  cases hnil
  rw [if_pos (by decide)] at hf
  subst hf
  exact absurd he (by decide +kernel)

end NmOtool.Nm
