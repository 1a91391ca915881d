import NmOtool.Nm.Fat
import NmOtool.Nm.Print
import NmOtool.Otool.Text

/-!
# ft_otool: fat files, and one file

`handle_otool.c`, `handle_each_arch` of `helper.c` and `otool` of `main.c`. The two programs share
`t_fat` and `init_t_fat`, but here the loop goes over all entries: every slice for the host is
dumped.
-/

namespace NmOtool.Otool

open MachO
open Nm (TFat Outcome nfatArch initTFat)

/-! ## `handle_each_arch` -/

def handleEachArch (m : Buffer) (array ptr : Nat) (fat : TFat) :
    Checked (Int × List UInt8 × Buffer × TFat) :=
  if isSafe m array then do
    let arch ← isHostarch m array fat.shouldSwap
    if arch = 0 then pure (-1, [], m, fat)
    else if fat.found64 ∧ arch = MY_CPU_I386 then pure (-1, [], m, fat)
    else do
      let offset ← getOffsizeArch m array fat.shouldSwap fat.is64
      let magicNumber ← m.field 4 (ptr + offset)
      if notValidHeader magicNumber then pure (-1, [], m, fat)
      else do
        let is64 := is64File magicNumber
        let shouldSwap := shouldSwapFile magicNumber
        let fat := if arch = MY_CPU_X86_64 then { fat with found64 := true } else fat
        let (ret, out, m) ← handleNotFat m is64 shouldSwap (ptr + offset)
        pure (ret, out, m, fat)
  else
    pure (-1, [], m, fat)

/-! ## `handle_fat` -/

/-- The loop of `handleFat` from entry `i`, with `n` entries left. -/
def handleFatFrom (ptr size : Nat) :
    Nat → Nat → TFat → Buffer → Checked (List UInt8 × Buffer)
  | 0, _, _, m => pure ([], m)
  | n + 1, i, fat, m => do
    let (_, out, m, fat) ← handleEachArch m (ptr + i * size + fatHeaderSize) ptr fat
    let (rest, m) ← handleFatFrom ptr size n (i + 1) fat m
    pure (out ++ rest, m)

def handleFat (m : Buffer) (is64 shouldSwap : Bool) (ptr : Nat) :
    Checked (Int × List UInt8 × Buffer) :=
  if isSafe m (ptr + fatHeaderSize : Nat) then do
    let nb ← nfatArch m shouldSwap ptr
    let fat ← initTFat m is64 shouldSwap ptr
    let (out, m) ← handleFatFrom ptr (fatArchSize is64) nb 0 fat m
    pure (0, out, m)
  else
    pure (-1, [], m)

def handleOtool (m : Buffer) (isFat is64 shouldSwap : Bool) (ptr : Nat) :
    Checked (Int × List UInt8 × Buffer) :=
  if isFat then handleFat m is64 shouldSwap ptr else handleNotFat m is64 shouldSwap ptr

/-! ## `otool` -/

/-- `ptr` is `g_begin`: the offset 0 of the map. -/
def otool (m : Buffer) (name : List UInt8) : Checked Outcome :=
  if isSafe m (32 : Nat) then do
    let magicNumber ← m.field 4 0
    if notValidFile magicNumber then
      pure { ret := -1, out := [], err := name ++ ascii ": is not an object file\n" }
    else do
      let isFat := isFatFile magicNumber
      let is64 := is64File magicNumber
      let shouldSwap := shouldSwapFile magicNumber
      let (ret, out, _) ← handleOtool m isFat is64 shouldSwap 0
      pure { ret, out := ftPrintfS name ++ ascii ":\n" ++ out, err := [] }
  else
    pure { ret := -1, out := [], err := name ++ ascii ": is not an object file\n" }

end NmOtool.Otool
