import NmOtool.Common.SectionName

/-!
# ft_nm: the letter of a symbol

`get_symbol_letter.c` with the helpers it calls (`init_helper`, `get_add`). `getSection` walks
the load commands for the section header with a given global index, and `symbol` compares its
names with the four it knows. In a swapped image both rewrite what they read, in place.
-/

namespace NmOtool.Nm

open MachO

/-! ## `get_section` -/

/-- `get_add`: the number of sections of the segment command at `lc`. -/
def getAdd (m : Buffer) (is64 : Bool) (lc : Nat) : Checked Nat := m.field 4 (lc + nsectsOffset is64)

/-- The loop of `getSection` at the command `lc`, with `n` commands left and `count` sections
behind it. -/
def getSectionFrom (s is64 : Bool) (i : Nat) :
    Nat → Nat → Nat → Buffer → Checked (Option Nat × Buffer)
  | 0, _, _, m => pure (none, m)
  | n + 1, lc, count, m =>
    if isSafe m lc then do
      let cmd ← m.field 4 lc
      if cmd = LC_SEGMENT ∨ cmd = LC_SEGMENT_64 then
        if isSegmantSafe m lc is64 then do
          let m ← if s then swapSegmentCommand m lc is64 else pure m
          let add ← getAdd m is64 lc
          if i ≤ u32 (count + add) then
            pure (some (lc + segmentSize is64 +
              u32 (u32 ((i : Int) - count - 1) * sectionSize is64)), m)
          else do
            let cmdsize ← m.field 4 (lc + 4)
            getSectionFrom s is64 i n (lc + cmdsize) (u32 (count + add)) m
        else
          pure (none, m)
      else do
        let cmdsize ← m.field 4 (lc + 4)
        getSectionFrom s is64 i n (lc + cmdsize) count m
    else
      pure (none, m)

def getSection (m : Buffer) (ptr : Nat) (s is64 : Bool) (i : Nat) :
    Checked (Option Nat × Buffer) := do
  let (lcInfo, m) ← getLc m is64 false ptr
  match lcInfo with
  | none => pure (none, m)
  | some lcInfo => getSectionFrom s is64 i lcInfo.numberCmds (ptr + lcInfo.offsetCmds) 0 m

/-! ## `symbol` -/

def sectionLetter (m : Buffer) (sec : Nat) : Checked UInt8 := do
  if ← isNamed m sec SECT_TEXT SEG_TEXT then pure 't'.toUInt8
  else if ← isNamed m sec SECT_DATA SEG_DATA then pure 'd'.toUInt8
  else if ← isNamed m sec SECT_BSS SEG_DATA then pure 'b'.toUInt8
  else pure 's'.toUInt8

def symbol (m : Buffer) (ptr a : Nat) (shouldSwap is64 : Bool) : Checked (UInt8 × Buffer) := do
  let index ← m.load (a + 5)
  let (sectionsAdd, m) ← getSection m ptr shouldSwap is64 index.toNat
  match sectionsAdd with
  | none => pure ('s'.toUInt8, m)
  | some sec => do
    let m ← if shouldSwap then swapSection m sec is64 else pure m
    let letter ← sectionLetter m sec
    pure (letter, m)

/-! ## `get_symbol_letter` -/

/-- The classification that `pre_symbol_letter` and `pre_64` share; `weak` is the
`N_WEAK_REF` bit of `n_desc`. -/
def preLetter (nType : UInt8) (weak : Bool) (value : Nat) : UInt8 :=
  let typeField := nType &&& N_TYPE
  if N_STAB &&& nType ≠ 0 then '-'.toUInt8
  else if typeField = N_UNDF then (if value ≠ 0 then 'c'.toUInt8 else 'u'.toUInt8)
  else if typeField = N_ABS then 'a'.toUInt8
  else if typeField = N_SECT then 's'.toUInt8
  else if typeField = N_PBUD then 'u'.toUInt8
  else if typeField = N_INDR then 'i'.toUInt8
  else if weak then 'w'.toUInt8
  else '?'.toUInt8

/-- The arguments are `n_type`, an `int16_t` `n_desc` and a 32-bit value. -/
def preSymbolLetter (n : UInt8) (nDesc : Nat) (va : Nat) : UInt8 :=
  preLetter n (nDesc &&& N_WEAK_REF != 0) va

/-- The arguments are `n_type`, a `uint16_t` `n_desc` and a 64-bit value. -/
def pre64 (nType : UInt8) (n : Nat) (va : Nat) : UInt8 :=
  preLetter nType (n &&& N_WEAK_REF != 0) va

def getSymbolLetter (m : Buffer) (ptr list : Nat) (s is64 : Bool) : Checked (UInt8 × Buffer) := do
  let nType ← m.load (list + 4)
  let nDesc ← m.field 2 (list + 6)
  let nValue ← m.field (wordSize is64) (list + 8)
  let letter := if is64 then pre64 nType nDesc nValue else preSymbolLetter nType nDesc nValue
  let (letter, m) ← if letter = 's'.toUInt8 then symbol m ptr list s is64 else pure (letter, m)
  -- `l->n_type` is read again: `symbol` may have rewritten it
  let nType ← m.load (list + 4)
  if letter ≠ '?'.toUInt8 ∧ N_EXT &&& nType ≠ 0 then
    pure (letter - ('a'.toUInt8 - 'A'.toUInt8), m)
  else
    pure (letter, m)

end NmOtool.Nm
