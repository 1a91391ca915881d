import NmOtool.Common.Libft

/-!
# The conversions of `ft_printf` that the two programs use

The programs call `ft_printf` with `%s`, `%c` and `%.2x`. The unsigned conversions are modelled
whole, from the numeral to its padding (`set_print_oux.c`, `for_print_oux.c`); a printing function is
the bytes it writes. `ftPrintfX2_eq` reads the `%.2x` of a byte back as its two hexadecimal digits.
-/

namespace NmOtool

open MachO

/-! ## Numerals: `itoa_hexbase.c` -/

/-- The digits of `n`, least significant first; `fuel` bounds their number. -/
def digitsFrom (base : List UInt8) : Nat → Nat → List UInt8
  | 0, _ => []
  | fuel + 1, n =>
    if 0 < n then base.getD (n % base.length) 0 :: digitsFrom base fuel (n / base.length)
    else []

def ftItoaUnmax (n : Nat) : List UInt8 :=
  if n = 0 then ascii "0" else (digitsFrom (ascii "0123456789") 64 n).reverse

/-- `position_in_base`, for a character of the base. -/
def positionInBase (base : List UInt8) (search : UInt8) : Nat := base.idxOf search

/-- The text of `itoa_hex(nb, 'x')`. -/
def hexNumeral (nb : Nat) : List UInt8 :=
  if nb = 0 then ascii "0" else (digitsFrom (ascii "0123456789abcdef") 64 nb).reverse

/-! ## Padding: `set_print_oux.c`, `for_print_oux.c` -/

/-- `t_cast`, the length modifier. -/
inductive TCast where
  | none | hh | h | l | ll | j | z
  deriving DecidableEq, Repr

/-- `t_data`; `flags` is the string in the array. -/
structure TData where
  ori : List UInt8
  flags : List UInt8 := []
  width : Int := 0
  precison : Int := -1
  noPre : Bool := false
  len : Int := 0
  blank : Int := 0
  cast : TCast := .none

/-- `ft_putnchar`. -/
def ftPutnchar (c : Char) (nbr : Int) : List UInt8 := List.replicate nbr.toNat c.toUInt8

def max3 (x y z : Int) : Int := max (max x y) z

namespace TData

/-- `(int)ft_strlen(data->ori)`. -/
def strlen (d : TData) : Int := int32 d.ori.length

def flag (d : TData) (c : Char) : Bool := ftStrchr d.flags c.toUInt8

theorem flag_of_flags (flags : List UInt8) {d : TData} {c : Char} (hd : d.flags = flags)
    (hc : c.toUInt8 ≠ 0) : d.flag c = decide (c.toUInt8 ∈ flags) := by
  rw [flag, hd, ftStrchr_eq hc]

/-- `data->ori[0] == '0'`. -/
def oriZero (d : TData) : Bool := d.ori.getD 0 0 == '0'.toUInt8

/-- The prefix is `"0"` and the precision already gives a leading zero. -/
def octalPadded (d : TData) (preFix : List UInt8) : Bool :=
  preFix.getD 0 0 == '0'.toUInt8 && preFix.getD 1 0 == 0 && decide (d.precison > d.strlen)

def forSetoux (d : TData) (preFix : List UInt8) : TData :=
  let pre : Int := preFix.length
  let d :=
    if d.strlen ≥ d.precison then { d with len := max3 d.width (int32 (d.strlen + pre)) d.precison }
    else if !(preFix.getD 0 0 == '0'.toUInt8 && preFix.getD 1 0 == 0) then
      { d with len := max3 d.width d.strlen (int32 (d.precison + pre)) }
    else
      let len := max3 d.width d.strlen d.precison
      { d with len, blank := len - d.precison }
  if !d.octalPadded preFix then { d with blank := int32 (d.len - d.precison - pre) } else d

def setOxu (d : TData) (preFix : List UInt8) : TData :=
  let d := if d.precison = -1 then { d with noPre := true } else d
  let d :=
    if !(d.oriZero && d.precison == 0) && decide (d.precison < d.strlen) then
      { d with precison := d.strlen }
    else d
  if !d.oriZero && d.flag '#' then d.forSetoux preFix
  else if !(d.width == 0 && decide (d.precison ≤ 0) && d.oriZero) then
    let len := max3 d.width d.strlen d.precison
    { d with len, blank := len - d.precison }
  else d

/-- `data->precison - ft_strlen(data->ori)`, as the `int` that `ft_putnchar` takes. -/
def zeros (d : TData) : Int := int32 (d.precison - d.strlen)

def forRightOux (d : TData) (preFix : List UInt8) : List UInt8 :=
  ftPutnchar ' ' d.blank ++
    (if d.flag '#' && !d.octalPadded preFix then preFix else []) ++
    ftPutnchar '0' d.zeros ++ d.ori

def goRightOux (d : TData) (preFix : List UInt8) : List UInt8 :=
  if d.flag '0' && d.noPre then
    (if d.flag '#' then
      (if !d.octalPadded preFix then preFix else []) ++
        ftPutnchar '0' (int32 (d.len - preFix.length - d.strlen))
    else
      ftPutnchar '0' (int32 (d.len - d.strlen))) ++ d.ori
  else d.forRightOux preFix

def putNopre (d : TData) : List UInt8 :=
  if !d.flag '-' then ftPutnchar ' ' (d.len - d.precison) ++ ftPutnchar '0' d.precison
  else ftPutnchar '0' d.precison ++ ftPutnchar ' ' (d.len - d.precison)

def putZeroOux (d : TData) : List UInt8 :=
  if d.noPre then
    if d.flag '0' then ftPutnchar '0' d.len
    else if !d.flag '-' then ftPutnchar ' ' (d.len - 1) ++ ftPutnchar '0' 1
    else ftPutnchar '0' 1 ++ ftPutnchar ' ' (d.len - 1)
  else d.putNopre

def forPrintOux (d : TData) (preFix : List UInt8) : List UInt8 :=
  (if d.flag '#' && !d.octalPadded preFix then preFix else []) ++
    ftPutnchar '0' d.zeros ++ d.ori ++ ftPutnchar ' ' d.blank

/-- The bytes written, and `data` with the length to report. -/
def setPrintOxuHash (d : TData) (preFix : List UInt8) : List UInt8 × TData :=
  let d := d.setOxu preFix
  if !(d.len == 0 && d.oriZero) then
    if d.oriZero then (d.putZeroOux, d)
    else if !d.flag '-' then (d.goRightOux preFix, d)
    else (d.forPrintOux preFix, d)
  else if d.precison == 0 && d.flag '#' && preFix == ascii "0" then
    (ascii "0", { d with len := 1 })
  else ([], d)

end TData

/-! ## The calls -/

/-- `ft_printf("%.2x", b)`. -/
def ftPrintfX2 (b : UInt8) : List UInt8 :=
  (TData.setPrintOxuHash { ori := hexNumeral b.toNat, precison := 2 } (ascii "0x")).1

/-- `ft_printf("%s", s)`: `set_print_s` keeps the length in an `int`. -/
def ftPrintfS (s : List UInt8) : List UInt8 :=
  let nbrL := int32 s.length
  let len := max 0 nbrL
  ftPutnchar ' ' (int32 (len - nbrL)) ++ s.take nbrL.toNat

theorem ftPrintfS_eq {s : List UInt8} (h : s.length < 2 ^ 31) : ftPrintfS s = s := by
  simp only [ftPrintfS, int32_of_lt h]
  rw [show max (0 : Int) s.length - s.length = 0 by omega]
  simp [int32, ftPutnchar]

/-- A string of 2 GiB or more is cut, or replaced by fewer blanks than it has bytes. -/
theorem ftPrintfS_length (s : List UInt8) :
    (ftPrintfS s).length ≤ s.length ∧ (2 ^ 31 ≤ s.length → (ftPrintfS s).length < s.length) := by
  have hlen : (ftPrintfS s).length =
      (int32 (max 0 (int32 s.length) - int32 s.length)).toNat +
        min (int32 s.length).toNat s.length := by
    simp [ftPrintfS, ftPutnchar]
  rw [hlen]
  unfold int32
  simp only [Int.bmod_def]
  constructor
  · split_ifs <;> omega
  · intro h
    split_ifs <;> omega

theorem ftPrintfS_eq_iff {s : List UInt8} : ftPrintfS s = s ↔ s.length < 2 ^ 31 := by
  constructor
  · intro h
    by_contra hge
    have hlt := (ftPrintfS_length s).2 (by omega)
    rw [h] at hlt
    exact Nat.lt_irrefl _ hlt
  · exact ftPrintfS_eq

/-- The lower-case hexadecimal digit of `n < 16`. -/
def hexDigit (n : Nat) : UInt8 := if n < 10 then UInt8.ofNat (48 + n) else UInt8.ofNat (87 + n)

theorem ftPrintfX2_eq (b : UInt8) :
    ftPrintfX2 b = [hexDigit (b.toNat / 16), hexDigit (b.toNat % 16)] := by
  have key : ∀ n : Fin 256, ftPrintfX2 (UInt8.ofNat n) =
      [hexDigit (n.val / 16), hexDigit (n.val % 16)] := by decide +kernel
  simpa using key ⟨b.toNat, b.toNat_lt⟩

theorem hexDigit_inj {a b : Nat} (ha : a < 16) (hb : b < 16) (h : hexDigit a = hexDigit b) :
    a = b := by
  have key : ∀ a b : Fin 16, hexDigit a = hexDigit b → a = b := by decide
  exact Fin.mk.inj (key ⟨a, ha⟩ ⟨b, hb⟩ h)

theorem hexDigit_ne_newline {n : Nat} (h : n < 16) : hexDigit n ≠ '\n'.toUInt8 := by
  have key : ∀ n : Fin 16, hexDigit n ≠ '\n'.toUInt8 := by decide
  exact key ⟨n, h⟩

theorem ftPrintfX2_inj {a b : UInt8} (h : ftPrintfX2 a = ftPrintfX2 b) : a = b := by
  rw [ftPrintfX2_eq, ftPrintfX2_eq, List.cons.injEq, List.cons.injEq] at h
  obtain ⟨h1, h2, -⟩ := h
  have ha := a.toNat_lt
  have hb := b.toNat_lt
  have hhigh := hexDigit_inj (by omega) (by omega) h1
  have hlow := hexDigit_inj (by omega) (by omega) h2
  exact UInt8.toNat_inj.mp (by omega)

end NmOtool
