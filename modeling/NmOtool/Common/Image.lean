import NmOtool.Common.Swap

/-!
# The mapped image

`is_safe.c`, `question.c` and the readers of `get.c`, shared by the two programs. A pointer into
the map is its offset from `g_begin`; `g_map_size` is the `uint32_t` that `handle_each_arg`
fills from `st_size`, so it is the size of the map modulo `2 ^ 32`.
-/

namespace NmOtool

open MachO

/-- The value of an expression of type `unsigned int`. -/
def u32 (z : Int) : Nat := (z % 2 ^ 32).toNat

/-- The value of an expression converted to `int`. -/
def int32 (z : Int) : Int := Int.bmod z (2 ^ 32)

/-- The value of an expression of type `long`, or of a pointer difference. -/
def int64 (z : Int) : Int := Int.bmod z (2 ^ 64)

theorem u32_natCast {n : Nat} (h : n < 2 ^ 32) : u32 n = n := by
  unfold u32; omega

theorem int32_of_lt {n : Nat} (h : n < 2 ^ 31) : int32 n = n := by
  unfold int32; rw [Int.bmod_def]; split <;> omega

theorem int32_of_ge {n : Nat} (h : 2 ^ 31 ≤ n) (hlt : n < 2 ^ 32) : int32 n = (n : Int) - 2 ^ 32 := by
  unfold int32; rw [Int.bmod_def]; split <;> omega

theorem int32_of_range {z : Int} (hl : -2 ^ 31 ≤ z) (hu : z < 2 ^ 31) : int32 z = z := by
  unfold int32; rw [Int.bmod_def]; split <;> omega

theorem int32_range (z : Int) : -2 ^ 31 ≤ int32 z ∧ int32 z < 2 ^ 31 := by
  rw [int32, Int.bmod_def]
  split <;> omega

theorem int32_le (n : Nat) : int32 n ≤ n := by
  rw [int32, Int.bmod_def]
  split <;> omega

/-! ## `is_safe.c` -/

/-- `g_map_size`. -/
def mapSize (m : Buffer) : Nat := m.size % 2 ^ 32

def isSafe (m : Buffer) (ptr : Int) : Prop := 0 ≤ ptr ∧ ptr ≤ mapSize m

instance (m : Buffer) (ptr : Int) : Decidable (isSafe m ptr) :=
  inferInstanceAs (Decidable (0 ≤ ptr ∧ ptr ≤ mapSize m))

/-- The two header sizes stand in each other's place in the source. -/
def isLcSafe (m : Buffer) (ptr : Nat) (is64 : Bool) : Prop :=
  if is64 then isSafe m (ptr + headerSize false : Nat) else isSafe m (ptr + headerSize true : Nat)

instance (m : Buffer) (ptr : Nat) (is64 : Bool) : Decidable (isLcSafe m ptr is64) :=
  inferInstanceAs (Decidable (if is64 then _ else _))

def isSegmantSafe (m : Buffer) (ptr : Nat) (is64 : Bool) : Prop :=
  isSafe m (ptr + segmentSize is64 : Nat)

instance (m : Buffer) (ptr : Nat) (is64 : Bool) : Decidable (isSegmantSafe m ptr is64) :=
  inferInstanceAs (Decidable (isSafe _ _))

def notValidHeader (magic : Nat) : Bool :=
  magic != MH_CIGAM_64 && magic != MH_CIGAM && magic != MH_MAGIC_64 && magic != MH_CIGAM_64 &&
    magic != MH_MAGIC && magic != MH_CIGAM

def notValidFile (magic : Nat) : Bool :=
  magic != FAT_MAGIC && magic != FAT_MAGIC_64 && magic != FAT_CIGAM && magic != FAT_CIGAM_64 &&
    magic != MH_CIGAM_64 && magic != MH_CIGAM && magic != MH_MAGIC_64 && magic != MH_CIGAM_64 &&
    magic != MH_MAGIC && magic != MH_CIGAM

theorem mapSize_le (m : Buffer) : mapSize m ≤ m.size := Nat.mod_le _ _

theorem mapSize_lt (m : Buffer) : mapSize m < 2 ^ 32 := Nat.mod_lt _ (by decide)

theorem mapSize_eq {m : Buffer} (h : m.size < 2 ^ 32) : mapSize m = m.size := Nat.mod_eq_of_lt h

section
variable {m : Buffer} {s x : Bool} {p : Nat}

@[simp] theorem mapSize_headerImage : mapSize (headerImage s m p) = mapSize m := by simp [mapSize]

@[simp] theorem mapSize_commandImage : mapSize (commandImage s m p) = mapSize m := by simp [mapSize]

@[simp] theorem mapSize_symtabImage : mapSize (symtabImage s m p) = mapSize m := by simp [mapSize]

@[simp] theorem mapSize_segmentImage : mapSize (segmentImage s x m p) = mapSize m := by
  simp [mapSize]

@[simp] theorem mapSize_entryImage : mapSize (entryImage s x m p) = mapSize m := by simp [mapSize]

end

theorem isSafe_natCast (m : Buffer) (p : Nat) : isSafe m p ↔ p ≤ mapSize m := by
  unfold isSafe; omega

theorem isLcSafe_iff (m : Buffer) (p : Nat) (is64 : Bool) :
    isLcSafe m p is64 ↔ p + (if is64 then 28 else 32) ≤ mapSize m := by
  cases is64 <;> exact isSafe_natCast m _

theorem isSegmantSafe_iff (m : Buffer) (p : Nat) (is64 : Bool) :
    isSegmantSafe m p is64 ↔ p + segmentSize is64 ≤ mapSize m := isSafe_natCast m _

/-! ## `question.c` -/

def isFatFile (magic : Nat) : Bool :=
  magic == FAT_CIGAM || magic == FAT_MAGIC || magic == FAT_CIGAM_64 || magic == FAT_MAGIC_64

def is64Arch (magic : Nat) : Bool := magic == FAT_CIGAM_64 || magic == FAT_MAGIC_64

def is64File (magic : Nat) : Bool :=
  if isFatFile magic then is64Arch magic else magic == MH_CIGAM_64 || magic == MH_MAGIC_64

def MY_CPU_X86_64 : Nat := 1
def MY_CPU_I386 : Nat := 2

def isHostarch (m : Buffer) (array : Nat) (shouldSwapArch : Bool) : Checked Nat := do
  let type ← m.field 4 array
  let type := if shouldSwapArch then (swapUint32 (.ofNat 32 type)).toNat else type
  if type = CPU_TYPE_X86_64 then pure MY_CPU_X86_64
  else if type = CPU_TYPE_I386 then pure MY_CPU_I386
  else pure 0

/-! ## The byte order of a file, from its magic number -/

def shouldSwapArch (magic : Nat) : Bool := magic == FAT_CIGAM || magic == FAT_CIGAM_64

def shouldSwapFile (magic : Nat) : Bool :=
  if isFatFile magic then shouldSwapArch magic else magic == MH_CIGAM || magic == MH_CIGAM_64

/-! ## `get.c` -/

/-- `t_lc`: the load commands' count and the offset of the first. -/
structure Lc where
  numberCmds : Nat
  offsetCmds : Nat
  deriving DecidableEq, Repr

/-- `none` is the return value `-1`. -/
def getLc (m : Buffer) (is64 shouldSwap : Bool) (ptr : Nat) : Checked (Option Lc × Buffer) :=
  if isLcSafe m ptr is64 then do
    let m ← if shouldSwap then swapMachHeader m ptr else pure m
    let ncmds ← m.field 4 (ptr + 16)
    pure (some ⟨ncmds, headerSize is64⟩, m)
  else
    pure (none, m)

def getOffsizeArch (m : Buffer) (array : Nat) (shouldSwapArch is64Arch : Bool) : Checked Nat :=
  if is64Arch then do
    let offset ← m.field 8 (array + 8)
    pure (if shouldSwapArch then (swapUint64 (.ofNat 64 offset)).toNat else offset)
  else do
    let offset ← m.field 4 (array + 8)
    pure (if shouldSwapArch then (swapUint32 (.ofNat 32 offset)).toNat else offset)

theorem getLc_ok {m : Buffer} {is64 s : Bool} {ptr : Nat} (h : isLcSafe m ptr is64) :
    getLc m is64 s ptr =
      .ok (some ⟨(headerImage s m ptr).le 4 (ptr + 16), headerSize is64⟩, headerImage s m ptr) := by
  have hs : ptr + 20 ≤ m.size := by
    have := (isLcSafe_iff m ptr is64).mp h
    have := mapSize_le m
    split at * <;> omega
  rw [getLc, if_pos h]
  simp only [Checked.ite_bind]
  rw [headerImage_ok hs, Checked.ok_bind, Buffer.field_ok (by simp; omega), Checked.ok_bind,
    Checked.pure_eq]

theorem getLc_host {m : Buffer} {is64 : Bool} {ptr : Nat} (h : isLcSafe m ptr is64) :
    getLc m is64 false ptr = .ok (some ⟨m.le 4 (ptr + 16), headerSize is64⟩, m) :=
  getLc_ok h

theorem getLc_none {m : Buffer} {is64 shouldSwap : Bool} {ptr : Nat} (h : ¬ isLcSafe m ptr is64) :
    getLc m is64 shouldSwap ptr = .ok (none, m) := if_neg h

end NmOtool
