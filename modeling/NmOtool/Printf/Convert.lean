import NmOtool.Printf.ConvertBase
import NmOtool.Printf.Text
import NmOtool.Printf.Unsigned

/-!
# ft_printf: the conversions

The sixteen functions of the table `set` of `ini_set.c`. Each reads its directive, `size` bytes from
`format` on, takes its argument and gives the bytes it writes, `data` with the length to report, and
the arguments that are left. The strings that the arguments point to are a parameter, and so are the
blocks that `malloc` gives for the numerals.
-/

namespace NmOtool

open MachO Checked

/-- The strings of the caller by their address, and the block that `malloc` gives for a size. -/
structure Memory where
  str : BitVec 64 → List UInt8
  wstr : BitVec 64 → List Int
  malloc : Nat → Buffer

/-- No strings, and blocks of the size that was asked for. -/
def emptyMemory : Memory where
  str _ := []
  wstr _ := []
  malloc n := .ofBytes n []

/-- A conversion: the bytes written, `data`, and the arguments left. -/
abbrev Con := Buffer → Nat → Nat → VaList → Checked (List UInt8 × TData × VaList)

/-- `set_flags` and `set_cast`. -/
def setData (m : Buffer) (format size : Nat) (args : VaList) : Checked (TData × VaList) := do
  let (data, args) ← setFlags m format size args
  let data ← setCast data m format size
  pure (data, args)

/-! ## Numerals -/

def castNuD (cast : TCast) (arg : BitVec 64) : List UInt8 :=
  match cast with
  | .none => ftItoa (arg.setWidth 32).toInt
  | .hh => ftItoaSignchar (arg.setWidth 8).toInt
  | .h => ftItoaShort (arg.setWidth 16).toInt
  | .l | .ll | .j | .z => ftItoaMax arg.toInt

/-- The argument of `cast_nu_u`, `cast_nu_x`, `cast_nu_bigx`, `con_o` and `con_b`. -/
def castNu (cast : TCast) (arg : BitVec 64) : Nat :=
  match cast with
  | .none | .hh | .h => (arg.setWidth 32).toNat
  | .l | .ll | .j | .z => arg.toNat

/-! ## Integers -/

/-- A signed conversion with its numeral. -/
def conSigned (numeral : TCast → BitVec 64 → List UInt8) : Con := fun m format size args => do
  let (data, args) ← setData m format size args
  let (out, data) := { data with ori := numeral data.cast (args 0) }.setPrintD
  pure (out, data, args.rest)

def conD : Con := conSigned castNuD

def conBigd : Con := conSigned fun _ arg => ftItoaMax arg.toInt

/-- An unsigned conversion with its numeral and its prefix. -/
def conUnsigned (numeral : TCast → BitVec 64 → Checked (List UInt8)) (preFix : List UInt8) : Con :=
  fun m format size args => do
    let (data, args) ← setData m format size args
    let ori ← numeral data.cast (args 0)
    let (out, data) := { data with ori }.setPrintOxuHash preFix
    pure (out, data, args.rest)

def conU : Con := conUnsigned (fun cast arg => pure (ftItoaUnmax (castNu cast arg))) []

/-- The argument is an `unsigned long`, the numeral that of an `intmax_t`. -/
def conBigu : Con := conUnsigned (fun _ arg => pure (ftItoaMax arg.toInt)) []

section
variable (mem : Memory)

def conO : Con :=
  conUnsigned (fun cast arg => itoaBase mem.malloc (castNu cast arg) 10 8) (ascii "0")

def conBigo : Con := conUnsigned (fun _ arg => itoaBase mem.malloc arg.toNat 10 8) (ascii "0")

def conB : Con :=
  conUnsigned (fun cast arg => itoaBase mem.malloc (castNu cast arg) 10 2) (ascii "0")

def conX : Con := conUnsigned (fun cast arg => itoaHex mem.malloc (castNu cast arg)) (ascii "0x")

def conBigx : Con :=
  conUnsigned (fun cast arg => itoaBigHex mem.malloc (castNu cast arg)) (ascii "0X")

end

/-! ## Pointers, characters and strings: `con_cp.c`, `con_s.c` -/

/-- `add_hash_p`. -/
def addHashP (data : TData) : TData := { data with flags := data.flags ++ ascii "#" }

def conP (mem : Memory) : Con := fun m format size args => do
  let (data, args) ← setData m format size args
  let ori ← itoaHex mem.malloc (args 0).toNat
  let data := addHashP { data with ori }
  if !data.oriZero then
    let (out, data) := data.setPrintOxuHash (ascii "0x")
    pure (out, data, args.rest)
  else
    let data := { data with len := max data.width 3 }
    let out :=
      if data.flag '-' then ascii "0x0" ++ ftPutnchar ' ' (data.len - 3)
      else ftPutnchar ' ' (data.len - 3) ++ ascii "0x0"
    pure (out, data, args.rest)

/-- `we_to_char`, the bytes in front of the zeros. -/
def weToChar (we : Int) : List UInt8 :=
  if we ≤ 0x7f then [.ofInt we]
  else if we ≤ 0x7ff then [.ofInt (we / 2 ^ 6 + 192), .ofInt (we % 64 + 128)]
  else if we ≤ 0xffff then
    [.ofInt (we / 2 ^ 12 + 224), .ofInt (we / 2 ^ 6 + 192), .ofInt (we % 64 + 128)]
  else if we ≤ 0x1fffff then
    [.ofInt (we / 2 ^ 18 + 240), .ofInt (we / 2 ^ 12 + 224), .ofInt (we / 2 ^ 6 + 192),
      .ofInt (we % 64 + 128)]
  else []

def ftPutwchar (we : Int) : List UInt8 := (weToChar we).takeWhile (· != 0)

/-- A character in its field, for `set_print_c` and `con_per`. -/
def putC (data : TData) (c : List UInt8) : List UInt8 :=
  if data.flag '-' then c ++ ftPutnchar ' ' (data.len - 1)
  else (if data.flag '0' then ftPutnchar '0' (data.len - 1) else ftPutnchar ' ' (data.len - 1)) ++ c

def setPrintC (data : TData) (args : VaList) : List UInt8 × TData × VaList :=
  let data := { data with len := max 1 data.width }
  let c := if data.cast = .l then ftPutwchar (vaInt args) else [.ofBitVec ((args 0).setWidth 8)]
  (putC data c, data, args.rest)

def conC : Con := fun m format size args => do
  let (data, args) ← setData m format size args
  pure (setPrintC data args)

def conBigc : Con := fun m format size args => do
  let (data, args) ← setData m format size args
  pure (setPrintC { data with cast := .l } args)

def conPer : Con := fun m format size args => do
  let (data, args) ← setData m format size args
  let data := { data with ori := ascii "%", len := max 1 data.width }
  pure (putC data (ascii "%"), data, args)

/-- `set_print_s` and `set_print_bigs`: `l` is the length, and `put` writes that many characters. -/
def setPrintS (data : TData) (l : Int) (put : Int → List UInt8) : List UInt8 × TData :=
  let data := if data.precison = -1 then { data with precison := l } else data
  let nbrL := if data.precison > l then l else data.precison
  let data := { data with len := max data.width nbrL }
  let pad := ftPutnchar ' ' (int32 (data.len - nbrL))
  (if data.flag '-' then put nbrL ++ pad else pad ++ put nbrL, data)

/-- `set_print_s`. -/
def setPrintStr (data : TData) (s : List UInt8) : List UInt8 × TData :=
  setPrintS { data with ori := s } (int32 s.length) fun nbr => s.take nbr.toNat

def setPrintBigs (data : TData) (we : List Int) : List UInt8 × TData :=
  setPrintS data (int32 we.length) fun nbr => (we.take nbr.toNat).flatMap ftPutwchar

variable (mem : Memory)

def conS : Con := fun m format size args => do
  let (data, args) ← setData m format size args
  let (out, data) :=
    if data.cast = .l then setPrintBigs data (mem.wstr (args 0))
    else setPrintStr data (if args 0 = 0 then ascii "(null)" else mem.str (args 0))
  pure (out, data, args.rest)

/-- The string is taken before `set_flags` takes a '*'. -/
def conBigs : Con := fun m format size args => do
  let we := mem.wstr (args 0)
  let (data, args) ← setData m format size args.rest
  let (out, data) := setPrintBigs data we
  pure (out, data, args)

/-! ## The table -/

/-- `ini_set`. -/
def iniSet : List (UInt8 × Con) :=
  [('s'.toUInt8, conS mem), ('S'.toUInt8, conBigs mem), ('o'.toUInt8, conO mem),
    ('O'.toUInt8, conBigo mem), ('d'.toUInt8, conD), ('D'.toUInt8, conBigd), ('i'.toUInt8, conD),
    ('c'.toUInt8, conC), ('C'.toUInt8, conBigc), ('u'.toUInt8, conU), ('U'.toUInt8, conBigu),
    ('%'.toUInt8, conPer), ('p'.toUInt8, conP mem), ('x'.toUInt8, conX mem),
    ('X'.toUInt8, conBigx mem), ('b'.toUInt8, conB mem)]

/-! ## The numerals of the conversions -/

variable {mem : Memory} {m : Buffer} {p size n : Nat} {t : List UInt8} {args : VaList} {con : Con}

theorem shortNumeral_itoaSigned {n : Int} (hn : n.natAbs < 2 ^ 64) :
    ShortNumeral (itoaSigned n) := by
  have hdigits : Numeral (ftItoaUnmax n.natAbs) := by
    rw [ftItoaUnmax_eq hn]
    exact numeral_numeralOf digitBase_dec
  have hlen : (ftItoaUnmax n.natAbs).length ≤ 64 := by
    rw [ftItoaUnmax_eq hn]
    exact length_numeralOf digitBase_dec.toAlphabet hn
  unfold itoaSigned
  split_ifs
  · exact ⟨.inr ⟨_, rfl, hdigits⟩, Nat.succ_le_succ hlen⟩
  · exact ⟨.inl hdigits, Nat.le_succ_of_le hlen⟩

theorem natAbs_toInt_lt {w : Nat} (hw : w ≤ 64) (x : BitVec w) : x.toInt.natAbs < 2 ^ 64 := by
  have hpow : 2 ^ w ≤ 2 ^ 64 := Nat.pow_le_pow_right (by decide) hw
  rw [BitVec.toInt_eq_toNat_cond]
  split <;> omega

theorem shortNumeral_castNuD (cast : TCast) (arg : BitVec 64) :
    ShortNumeral (castNuD cast arg) := by
  cases cast <;> exact shortNumeral_itoaSigned (natAbs_toInt_lt (by decide) _)

theorem castNu_lt (cast : TCast) (arg : BitVec 64) : castNu cast arg < 2 ^ 64 := by
  have h32 := (arg.setWidth 32).isLt
  cases cast <;> first | exact arg.isLt | exact h32.trans (by decide)

/-! ## No conversion reads behind its directive -/

/-- Every block holds what was asked for, and one for the directive `c` also the binary digits of any
number. -/
def Memory.HasRoom (mem : Memory) (c : UInt8) : Prop :=
  (∀ n, n ≤ (mem.malloc n).size) ∧ (c ∈ ascii "oOb" → ∀ n, 65 ≤ (mem.malloc n).size)

theorem itoaHex_eq (hm : ∀ n, n ≤ (mem.malloc n).size) (hn : n < 2 ^ 64) :
    itoaHex mem.malloc n = .ok (numeralOf (ascii "0123456789abcdef") n) :=
  ftConvertBase_hex hm digitBase_hex (by decide) hn

theorem itoaBigHex_eq (hm : ∀ n, n ≤ (mem.malloc n).size) (hn : n < 2 ^ 64) :
    itoaBigHex mem.malloc n = .ok (numeralOf (ascii "0123456789ABCDEF") n) :=
  ftConvertBase_hex hm digitBase_bigHex (by decide) hn

end NmOtool
