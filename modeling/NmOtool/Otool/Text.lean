import NmOtool.Otool.Dump
import NmOtool.Common.SectionName

/-!
# ft_otool: the text section of a thin file

`helper.c` and `handle_not_fat.c`: the walk to the section `(__TEXT,__text)`, and its dump. A
printing function returns what its source returns, the bytes it writes and the image.
-/

namespace NmOtool.Otool

open MachO

/-- The loop of `textInSeg` from section `i`, with `n` sections left. -/
def textInSegFrom (m : Buffer) (lc : Nat) (is64 : Bool) : Nat → Nat → Checked (Option Nat)
  | 0, _ => pure none
  | n + 1, i =>
    let array := lc + segmentSize is64 + u32 ((i * sectionSize is64 : Nat) : Int)
    if isSafe m array then do
      if ← isNamed m array SECT_TEXT SEG_TEXT then pure (some array)
      else textInSegFrom m lc is64 n (i + 1)
    else
      pure none

def textInSeg (m : Buffer) (lc : Nat) (is64 : Bool) : Checked (Option Nat) := do
  let nb ← m.field 4 (lc + nsectsOffset is64)
  textInSegFrom m lc is64 nb 0

/-- The loop of `getTextSection` at the command `lc`, with `n` commands left. -/
def getTextSectionFrom (shouldSwap is64 : Bool) :
    Nat → Nat → Buffer → Checked (Option Nat × Buffer)
  | 0, _, m => pure (none, m)
  | n + 1, lc, m =>
    if isSafe m lc then do
      let m ← if shouldSwap then swapLoadcommand m lc else pure m
      let cmd ← m.field 4 lc
      if cmd = LC_SEGMENT ∨ cmd = LC_SEGMENT_64 then
        if isSegmantSafe m lc is64 then do
          let m ← if shouldSwap then swapSegmentCommand m lc is64 else pure m
          let res ← textInSeg m lc is64
          match res with
          | some res => pure (some res, m)
          | none => do
            let cmdsize ← m.field 4 (lc + 4)
            getTextSectionFrom shouldSwap is64 n (lc + cmdsize) m
        else
          pure (none, m)
      else do
        let cmdsize ← m.field 4 (lc + 4)
        getTextSectionFrom shouldSwap is64 n (lc + cmdsize) m
    else
      pure (none, m)

def getTextSection (lcInfo : Lc) (ptr : Nat) (shouldSwap is64 : Bool) (m : Buffer) :
    Checked (Option Nat × Buffer) :=
  getTextSectionFrom shouldSwap is64 lcInfo.numberCmds (ptr + lcInfo.offsetCmds) m

def heading : List UInt8 := ascii "Contents of (__TEXT,__text) section\n"

/-- `none` is a null pointer, which with the size of a section header still lies below the map. -/
def putTextSection (m : Buffer) (sec : Option Nat) (shouldSwap is64 : Bool) (ptr : Nat) :
    Checked (Int × List UInt8 × Buffer) :=
  match sec with
  | none => pure (-1, [], m)
  | some sec =>
    if isSafe m (sec + sectionSize is64 : Nat) then do
      let m ← if shouldSwap then swapSection m sec is64 else pure m
      let size ← m.field (wordSize is64) (sec + 32 + wordSize is64)
      let offset ← m.field 4 (sec + 32 + 2 * wordSize is64)
      let (_, out, m) ← dumpSection m (sec + 32) is64 { size, offset } ptr
      pure (0, heading ++ out, m)
    else
      pure (-1, [], m)

def handleNotFat (m : Buffer) (is64 shouldSwap : Bool) (ptr : Nat) :
    Checked (Int × List UInt8 × Buffer) :=
  if isSafe m ptr then do
    let (lcInfo, m) ← getLc m is64 shouldSwap ptr
    match lcInfo with
    | none => pure (-1, [], m)
    | some lcInfo => do
      let (sec, m) ← getTextSection lcInfo ptr shouldSwap is64 m
      let (_, out, m) ← putTextSection m sec shouldSwap is64 ptr
      pure (0, out, m)
  else
    pure (-1, [], m)

end NmOtool.Otool
