import NmOtool.Nm.Fat
import NmOtool.Nm.Sort
import NmOtool.Nm.Print

/-!
# ft_nm: one file

`nm.c`: the run of `ft_nm` on a mapped file, from the magic number to the listing.
-/

namespace NmOtool.Nm

open MachO

/-- `t_nu`: is this one of several files, and the first one? -/
structure TNu where
  multi : Bool
  first : Bool
  deriving DecidableEq, Repr

def sortNmList (m : Buffer) (list : List TNm) (flags : List UInt8) : Checked (List TNm) :=
  if ftStrchr flags 'p'.toUInt8 then pure list
  else if list ≠ [] then sortListByName m list flags
  else pure list

def printNewLine (multiArg firstArg : Bool) : List UInt8 :=
  if !firstArg && multiArg then ascii "\n" else []

/-- `put_error_with_return`. -/
def putErrorWithReturn (name : List UInt8) (s : String) : Outcome :=
  { ret := -1, out := [], err := name ++ ascii s }

/-- `ptr` is `g_begin`: the offset 0 of the map. -/
def nm (m : Buffer) (name : List UInt8) (num : TNu) (flags : List UInt8) : Checked Outcome :=
  if isSafe m (32 : Nat) then do
    let magicNumber ← m.field 4 0
    if notValidFile magicNumber then pure (putErrorWithReturn name ": is not an object file.\n")
    else do
      let isFat := isFatFile magicNumber
      let is64 := is64File magicNumber
      let shouldSwap := shouldSwapFile magicNumber
      let (nmList, m) ← handleNm m isFat is64 shouldSwap 0
      let nmList ← sortNmList m nmList flags
      let line := printNewLine num.multi num.first
      let res ← printNmList m nmList name num.multi flags
      pure { res with out := line ++ res.out }
  else
    pure (putErrorWithReturn name ": is not an object file.\n")

end NmOtool.Nm
