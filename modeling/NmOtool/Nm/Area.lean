import NmOtool.Nm.InBounds

/-!
# ft_nm: the load-command area of an accepted file

The walk of `get_nm_list` never looks at `sizeofcmds` and takes every `cmdsize` as it comes; what it
looks at is `g_map_size`. In an accepted file the commands it visits follow one another up to an
LC_SYMTAB (`WalkArea`), but they need be neither of a sensible size nor in their area.
-/

namespace NmOtool.Nm

open MachO Checked

variable {m : Buffer} {s x : Bool} {lc n : Nat} {name flags : List UInt8} {num : TNu}

/-! ## The area -/

end NmOtool.Nm
