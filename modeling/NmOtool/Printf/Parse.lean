import NmOtool.Common.Printf

/-!
# ft_printf: reading a directive

`set_castflag.c`, with `ft_strnchr`, `nb_digit` and `ft_atoi`. The format is a buffer that ends with
its NUL, and a pointer into it is a position, so that a read behind the NUL is a fault. The arguments
are the words that `va_arg` takes one after the other.
-/

namespace NmOtool

open MachO Checked

/-! ## Arguments -/

/-- The arguments that are left, each in a 64-bit word. -/
abbrev VaList := Nat → BitVec 64

def VaList.rest (args : VaList) : VaList := fun n => args (n + 1)

/-- `va_arg(args, int)`. -/
def vaInt (args : VaList) : Int := ((args 0).setWidth 32).toInt

/-! ## Reading the format -/

/-- `ft_strnchr`, whether it finds the byte. -/
def ftStrnchr (m : Buffer) (c : UInt8) : Nat → Nat → Checked Bool
  | 0, s => do
    let b ← m.load s
    pure (c == b)
  | size + 1, s => do
    let b ← m.load s
    if c ≠ b ∧ b ≠ 0 then ftStrnchr m c size (s + 1) else pure (c == b)

/-- The first loop of `ftStrnchrDouble`: the size and the position it gets to. -/
def ftStrnchrSkip (m : Buffer) (c : UInt8) : Nat → Nat → Checked (Nat × Nat)
  | 0, s => do
    let _ ← m.load s
    pure (0, s)
  | size + 1, s => do
    let b ← m.load s
    if c ≠ b ∧ b ≠ 0 then ftStrnchrSkip m c size (s + 1) else pure (size + 1, s)

/-- The second loop of `ftStrnchrDouble`: how often the byte stands there. -/
def ftStrnchrCount (m : Buffer) (c : UInt8) : Nat → Nat → Checked Nat
  | 0, s => do
    let _ ← m.load s
    pure 0
  | size + 1, s => do
    let b ← m.load s
    if c = b ∧ b ≠ 0 then do
      let i ← ftStrnchrCount m c size (s + 1)
      pure (i + 1)
    else pure 0

def ftStrnchrDouble (m : Buffer) (c : UInt8) (size s : Nat) : Checked Bool := do
  let (size, s) ← ftStrnchrSkip m c size s
  let i ← ftStrnchrCount m c size s
  pure (i % 2 == 0)

def isDigit (c : UInt8) : Bool := '0'.toUInt8 ≤ c && c ≤ '9'.toUInt8

def isSpace (c : UInt8) : Bool :=
  c == '\t'.toUInt8 || c == 11 || c == 12 || c == '\n'.toUInt8 || c == '\r'.toUInt8 ||
    c == ' '.toUInt8

/-- The loop of `nb_digit`. -/
def nbDigitFrom (m : Buffer) : Nat → Nat → Checked Nat
  | 0, _ => .fault
  | fuel + 1, str => do
    let c ← m.load str
    if isDigit c then do
      let i ← nbDigitFrom m fuel (str + 1)
      pure (i + 1)
    else pure 0

def nbDigit (m : Buffer) (str : Nat) : Checked Nat := nbDigitFrom m (m.size + 1) str

/-- The loop of `ft_atoi` over the blanks. -/
def ftAtoiSkip (m : Buffer) : Nat → Nat → Checked Nat
  | 0, _ => .fault
  | fuel + 1, s => do
    let c ← m.load s
    if isSpace c then ftAtoiSkip m fuel (s + 1) else pure s

/-- The loop of `ft_atoi` over the digits; `result` is a `long`. -/
def ftAtoiDigits (m : Buffer) : Nat → Nat → Int → Checked Int
  | 0, _, _ => .fault
  | fuel + 1, s, result => do
    let c ← m.load s
    if isDigit c && 0 ≤ result then
      ftAtoiDigits m fuel (s + 1) (int64 (result * 10 + (c.toNat - '0'.toNat)))
    else pure result

def ftAtoi (m : Buffer) (nptr : Nat) : Checked Int := do
  let s ← ftAtoiSkip m (m.size + 1) nptr
  let c ← m.load s
  let signed := c == '-'.toUInt8 || c == '+'.toUInt8
  let negOrPos : Int := if c == '-'.toUInt8 then -1 else 1
  let result ← ftAtoiDigits m (m.size + 1) (if signed then s + 1 else s) 0
  if result < 0 ∧ negOrPos = 1 then pure (-1)
  else if result < 0 ∧ negOrPos = -1 then pure 0
  else pure (int32 (result * negOrPos))

/-! ## `set_cast` -/

def setCast (data : TData) (m : Buffer) (format size : Nat) : Checked TData := do
  if ← ftStrnchr m 'h'.toUInt8 size format then do
    let double ← ftStrnchrDouble m 'h'.toUInt8 size format
    pure { data with cast := if double then .hh else .h }
  else if ← ftStrnchr m 'l'.toUInt8 size format then do
    let double ← ftStrnchrDouble m 'l'.toUInt8 size format
    pure { data with cast := if double then .ll else .l }
  else if ← ftStrnchr m 'j'.toUInt8 size format then pure { data with cast := .j }
  else if ← ftStrnchr m 'z'.toUInt8 size format then pure { data with cast := .z }
  else pure { data with cast := .none }

/-! ## `set_flags` -/

/-- `init`. -/
def TData.init : TData := { ori := [] }

/-- `set_flags` between two rounds: the indices into the directive and into `flags`. -/
structure FlagsRound where
  i : Nat
  j : Nat
  data : TData
  args : VaList

/-- `data->flags[j++] = c`, unless the flag is there. -/
def FlagsRound.flag (s : FlagsRound) (c : UInt8) : FlagsRound :=
  if ftStrchr s.data.flags c then s
  else { s with data := { s.data with flags := s.data.flags ++ [c] }, j := s.j + 1 }

@[simp] theorem FlagsRound.flag_i (s : FlagsRound) (c : UInt8) : (s.flag c).i = s.i := by
  unfold flag
  split <;> rfl

def setZeroFlag (m : Buffer) (format : Nat) (s : FlagsRound) : Checked FlagsRound := do
  let c ← m.load (format + s.i)
  if c = '.'.toUInt8 then do
    let precison ← ftAtoi m (format + 1 + s.i)
    let n ← nbDigit m (format + s.i + 1)
    pure { s with data := { s.data with precison }, i := s.i + n + 1 + 1 }
  else
    let s := if ftStrchr (ascii "#-+ ") c then s.flag c else s
    pure { s with i := s.i + 1 }

def flagsStar (m : Buffer) (format : Nat) (s : FlagsRound) : Checked FlagsRound := do
  let c ← m.load (format + s.i)
  let arg := vaInt s.args
  if c = '*'.toUInt8 then
    let width := if arg < 0 then int32 (arg * -1) else arg
    pure { s with data := { s.data with width }, args := s.args.rest, i := s.i + 1 }
  else
    let precison := if arg < 0 then -1 else arg
    pure { s with data := { s.data with precison }, args := s.args.rest, i := s.i + 2 }

/-- The body of the loop of `setFlags`. -/
def setFlagsRound (m : Buffer) (f : Nat) (s : FlagsRound) : Checked FlagsRound := do
  let c ← m.load (f + s.i)
  if c = '0'.toUInt8 then
    let s := s.flag '0'.toUInt8
    pure { s with i := s.i + 1 }
  else do
    let dot ← ftStrnchr m '.'.toUInt8 s.i f
    if !dot && '0'.toUInt8 < c && c ≤ '9'.toUInt8 then do
      let width ← ftAtoi m (f + s.i)
      let n ← nbDigit m (f + s.i)
      pure { s with data := { s.data with width }, i := s.i + n }
    else do
      let star ←
        if c = '*'.toUInt8 then pure true
        else if c = '.'.toUInt8 then do
          let d ← m.load (f + s.i + 1)
          pure (d == '*'.toUInt8)
        else pure false
      if star then flagsStar m f s else setZeroFlag m f s

def setFlagsFrom (m : Buffer) (f size : Nat) : Nat → FlagsRound → Checked FlagsRound
  | 0, _ => .fault
  | fuel + 1, s =>
    if s.i < size ∧ s.j < 10 then do
      let s ← setFlagsRound m f s
      setFlagsFrom m f size fuel s
    else pure s

/-- `set_flags`; every round moves on, so that `size` rounds are enough. -/
def setFlags (m : Buffer) (f size : Nat) (args : VaList) : Checked (TData × VaList) := do
  let s ← setFlagsFrom m f size (size + 1) { i := 1, j := 0, data := .init, args }
  pure (s.data, s.args)

end NmOtool
