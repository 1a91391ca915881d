import NmOtool.Nm.Symtab
import NmOtool.Common.Dump

/-!
# ft_nm: printing

`print_nm_list.c`. A printing function returns the bytes it writes to the standard output.
-/

namespace NmOtool.Nm

open MachO

def isExtern (c : UInt8) : Bool := decide ('A'.toUInt8 ≤ c ∧ c ≤ 'Z'.toUInt8)

def canShowList (type : UInt8) (flags : List UInt8) : Bool :=
  let flag (c : Char) := ftStrchr flags c.toUInt8
  if type == '-'.toUInt8 then false
  else if flag 'u' && flag 'U' then false
  else if flag 'u' then
    if flag 'g' then type == 'U'.toUInt8
    else type == 'u'.toUInt8 || type == 'U'.toUInt8
  else if flag 'U' then
    if flag 'g' then isExtern type && type != 'U'.toUInt8
    else type != 'u'.toUInt8 && type != 'U'.toUInt8
  else true

/-- What the loop of `printNmList` writes for a record it shows. -/
def printOne (m : Buffer) (flags : List UInt8) (list : TNm) : Checked (List UInt8) := do
  let fields ←
    if !ftStrchr flags 'u'.toUInt8 && !ftStrchr flags 'j'.toUInt8 then do
      let address ← hexdumpAddress m list.add list.is64
      pure (address ++ ascii " " ++ [list.type] ++ ascii " ")
    else
      pure []
  let name ← ftStr m list.name
  pure (fields ++ ftPrintfS name ++ ascii "\n")

/-- The loop of `printNmList`. -/
def printRecords (m : Buffer) (flags : List UInt8) : List TNm → Checked (List UInt8)
  | [] => pure []
  | list :: next => do
    let line ← if canShowList list.type flags then printOne m flags list else pure []
    let rest ← printRecords m flags next
    pure (line ++ rest)

/-- What a run of `nm` returns and writes. -/
structure Outcome where
  ret : Int
  out : List UInt8
  err : List UInt8
  deriving DecidableEq, Repr

def printNmList (m : Buffer) (list : List TNm) (name : List UInt8) (mu : Bool)
    (flags : List UInt8) : Checked Outcome :=
  if list = [] then
    pure { ret := -1, out := [], err := name ++ ascii ": Is malformed file.\n" }
  else do
    let heading := if mu then ftPrintfS name ++ ascii ":\n" else []
    let lines ← printRecords m flags list
    pure { ret := 0, out := heading ++ lines, err := [] }

end NmOtool.Nm
