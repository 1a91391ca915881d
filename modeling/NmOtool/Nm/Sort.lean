import NmOtool.Nm.Symtab
import NmOtool.Base.Exchange

/-!
# ft_nm: sorting

`sort_list_by_name.c`: an exchange sort of the records by name, then by address. The source
exchanges the four fields of two nodes one by one; here the two records change places.
-/

namespace NmOtool.Nm

/-- `compare_add`: the unsigned difference of the two addresses, narrowed to `int`. -/
def compareAdd (m : Buffer) (cp jump : TNm) : Checked Int := do
  let w := MachO.wordSize cp.is64
  let a ← m.field w cp.add
  let b ← m.field w jump.add
  pure (int32 ((a : Int) - b))

def compareExchange (m : Buffer) (cp jump : TNm) : Checked (TNm × TNm) := do
  let c ← ftStrcmp m cp.name (strAt m jump.name)
  if c > 0 then pure (jump, cp)
  else if c = 0 then do
    let d ← compareAdd m cp jump
    if d > 0 then pure (jump, cp) else pure (cp, jump)
  else pure (cp, jump)

def compareExchangeReverse (m : Buffer) (cp jump : TNm) : Checked (TNm × TNm) := do
  let c ← ftStrcmp m cp.name (strAt m jump.name)
  if c < 0 then pure (jump, cp)
  else if c = 0 then do
    let d ← compareAdd m cp jump
    if d < 0 then pure (jump, cp) else pure (cp, jump)
  else pure (cp, jump)

def sortListByName (m : Buffer) (list : List TNm) (flags : List UInt8) : Checked (List TNm) :=
  exchangeSort
    (if ftStrchr flags 'r'.toUInt8 then compareExchangeReverse m else compareExchange m) list

end NmOtool.Nm
