import Mathlib.Tactic.Common

/-!
# Mach-O layouts

The constants of `<mach-o/loader.h>`, `<mach-o/fat.h>`, `<mach-o/nlist.h>` and `<mach/machine.h>`
that the two programs use, and the sizes and field offsets of the structures they read. `is64`
selects between a structure and its `_64` form.
-/

namespace NmOtool.MachO

/-! ## Magic numbers, as a little-endian host reads them -/

def MH_MAGIC : Nat := 0xfeedface
def MH_CIGAM : Nat := 0xcefaedfe
def MH_MAGIC_64 : Nat := 0xfeedfacf
def MH_CIGAM_64 : Nat := 0xcffaedfe
def FAT_MAGIC : Nat := 0xcafebabe
def FAT_CIGAM : Nat := 0xbebafeca
def FAT_MAGIC_64 : Nat := 0xcafebabf
def FAT_CIGAM_64 : Nat := 0xbfbafeca

def CPU_TYPE_I386 : Nat := 7
def CPU_TYPE_X86_64 : Nat := 0x01000007

/-! ## Load commands -/

def LC_SEGMENT : Nat := 0x1
def LC_SYMTAB : Nat := 0x2
def LC_SEGMENT_64 : Nat := 0x19

/-! ## `n_type` -/

def N_STAB : UInt8 := 0xe0
def N_TYPE : UInt8 := 0x0e
def N_EXT : UInt8 := 0x01
def N_UNDF : UInt8 := 0x0
def N_ABS : UInt8 := 0x2
def N_INDR : UInt8 := 0xa
def N_PBUD : UInt8 := 0xc
def N_SECT : UInt8 := 0xe

/-- The `n_desc` bit of a weak reference. -/
def N_WEAK_REF : Nat := 0x0040

/-! ## Names -/

/-- The bytes of an ASCII text. -/
def ascii (s : String) : List UInt8 := s.toList.map Char.toUInt8

def SEG_TEXT : List UInt8 := ascii "__TEXT"
def SECT_TEXT : List UInt8 := ascii "__text"
def SEG_DATA : List UInt8 := ascii "__DATA"
def SECT_DATA : List UInt8 := ascii "__data"
def SECT_BSS : List UInt8 := ascii "__bss"

/-! ## Sizes and offsets

`mach_header`: `magic` 0, `ncmds` 16, `sizeofcmds` 20. `load_command`: `cmd` 0, `cmdsize` 4.
`symtab_command`: `symoff` 8, `nsyms` 12, `stroff` 16, `strsize` 20. `nlist`: `n_strx` 0,
`n_type` 4, `n_sect` 5, `n_desc` 6, `n_value` 8. `section`: `sectname` 0, `segname` 16, `addr` 32.
`fat_header`: `nfat_arch` 4. `fat_arch`: `cputype` 0, `offset` 8. -/

/-- `sizeof(struct mach_header)` or `sizeof(struct mach_header_64)`. -/
def headerSize (is64 : Bool) : Nat := if is64 then 32 else 28

/-- `sizeof(struct segment_command)` or `sizeof(struct segment_command_64)`. -/
def segmentSize (is64 : Bool) : Nat := if is64 then 72 else 56

/-- The offset of `nsects` in a segment command. -/
def nsectsOffset (is64 : Bool) : Nat := if is64 then 64 else 48

theorem nsectsOffset_lt (x : Bool) : nsectsOffset x + 4 ≤ segmentSize x := by
  cases x <;> decide

/-- `sizeof(struct section)` or `sizeof(struct section_64)`. -/
def sectionSize (is64 : Bool) : Nat := if is64 then 80 else 68

/-- The width of an address: `addr` and `size` of a section, `n_value` of a symbol. -/
def wordSize (is64 : Bool) : Nat := if is64 then 8 else 4

/-- `sizeof(struct nlist)` or `sizeof(struct nlist_64)`. -/
def nlistSize (is64 : Bool) : Nat := if is64 then 16 else 12

theorem nlistSize_eq (x : Bool) : nlistSize x = 8 + wordSize x := by cases x <;> rfl

/-! The least of the two widths. -/

theorem le_headerSize (x : Bool) : 28 ≤ headerSize x := by cases x <;> decide

theorem le_nsectsOffset (x : Bool) : 48 ≤ nsectsOffset x := by cases x <;> decide

theorem le_segmentSize (x : Bool) : 56 ≤ segmentSize x := by cases x <;> decide

theorem le_sectionSize (x : Bool) : 68 ≤ sectionSize x := by cases x <;> decide

theorem le_wordSize (x : Bool) : 4 ≤ wordSize x := by cases x <;> decide

/-- The fields up to `offset` lie in a section header. -/
theorem words_le_sectionSize (x : Bool) : 36 + 2 * wordSize x ≤ sectionSize x := by
  cases x <;> decide

/-- `sizeof(struct symtab_command)`. -/
def symtabSize : Nat := 24

/-- `sizeof(struct fat_header)`. -/
def fatHeaderSize : Nat := 8

/-- `sizeof(struct fat_arch)` or `sizeof(struct fat_arch_64)`. -/
def fatArchSize (is64 : Bool) : Nat := if is64 then 32 else 20

/-- The segment command of the width. -/
def segmentCmd (is64 : Bool) : Nat := if is64 then LC_SEGMENT_64 else LC_SEGMENT

end NmOtool.MachO
