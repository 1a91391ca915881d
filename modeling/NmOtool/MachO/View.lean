import NmOtool.Base.Buffer
import NmOtool.MachO.Layout

/-!
# A thin image, as its format defines it

What a host-order thin image at `ptr` says, read with the whole file in view and without any
of the programs' checks: its load commands, its sections in load-command order, the entries of
its symbol table. `WellFormed` collects what the format asks of an image.
-/

namespace NmOtool.MachO

variable {m : Buffer} {x : Bool} {ptr lc c n : Nat}

/-! ## Load commands -/

def ncmds (m : Buffer) (ptr : Nat) : Nat := m.le 4 (ptr + 16)

def cmd (m : Buffer) (lc : Nat) : Nat := m.le 4 lc

def cmdsize (m : Buffer) (lc : Nat) : Nat := m.le 4 (lc + 4)

/-- The offsets of `n` load commands laid end to end from `lc`. -/
def commandsFrom (m : Buffer) : Nat → Nat → List Nat
  | 0, _ => []
  | n + 1, lc => lc :: commandsFrom m n (lc + cmdsize m lc)

def commands (m : Buffer) (x : Bool) (ptr : Nat) : List Nat :=
  commandsFrom m (ncmds m ptr) (ptr + headerSize x)

/-- The first LC_SYMTAB command. -/
def symtabCommand (m : Buffer) (x : Bool) (ptr : Nat) : Option Nat :=
  (commands m x ptr).find? fun lc => cmd m lc == LC_SYMTAB

/-! ## Sections -/

def IsSegment (m : Buffer) (lc : Nat) : Prop := cmd m lc = LC_SEGMENT ∨ cmd m lc = LC_SEGMENT_64

instance (m : Buffer) (lc : Nat) : Decidable (IsSegment m lc) :=
  inferInstanceAs (Decidable (_ ∨ _))

theorem isSegment_of_cmd {x : Bool} {lc : Nat} (h : cmd m lc = segmentCmd x) : IsSegment m lc := by
  unfold IsSegment
  rw [h]
  cases x
  · exact .inl rfl
  · exact .inr rfl

theorem not_isSegment_of_cmd {n lc : Nat} (h : cmd m lc = n) (h1 : n ≠ LC_SEGMENT)
    (h2 : n ≠ LC_SEGMENT_64) : ¬ IsSegment m lc := by
  unfold IsSegment
  rw [h]
  exact not_or.mpr ⟨h1, h2⟩

def nsects (m : Buffer) (x : Bool) (lc : Nat) : Nat := m.le 4 (lc + nsectsOffset x)

/-- The section headers of the command at `lc`: none unless it is a segment. -/
def sectionsAt (m : Buffer) (x : Bool) (lc : Nat) : List Nat :=
  if IsSegment m lc then
    (List.range (nsects m x lc)).map fun k => lc + segmentSize x + k * sectionSize x
  else []

/-- The section headers of the image, in load-command order. -/
def sections (m : Buffer) (x : Bool) (ptr : Nat) : List Nat :=
  (commands m x ptr).flatMap (sectionsAt m x)

/-- The address of the section whose header is at `sec`. -/
def secAddr (m : Buffer) (x : Bool) (sec : Nat) : Nat := m.le (wordSize x) (sec + 32)

def secSize (m : Buffer) (x : Bool) (sec : Nat) : Nat := m.le (wordSize x) (sec + 32 + wordSize x)

def secOffset (m : Buffer) (x : Bool) (sec : Nat) : Nat := m.le 4 (sec + 32 + 2 * wordSize x)

/-- The fixed-width name field at `p` holds the name `s`, which is shorter than the field. -/
def HasName (m : Buffer) (p : Nat) (s : List UInt8) : Prop := m.bytes p (s.length + 1) = s ++ [0]

instance (m : Buffer) (p : Nat) (s : List UInt8) : Decidable (HasName m p s) :=
  inferInstanceAs (Decidable (_ = _))

theorem hasName_iff {p k : Nat} {s : List UInt8} (h : s.length + 1 ≤ k) :
    HasName m p s ↔ (m.bytes p k).take (s.length + 1) = s ++ [0] := by
  rw [Buffer.take_bytes h, HasName]

/-- The section header at `sec` is called `(seg,sect)`. -/
def IsNamed (m : Buffer) (sec : Nat) (seg sect : List UInt8) : Prop :=
  HasName m sec sect ∧ HasName m (sec + 16) seg

instance (m : Buffer) (sec : Nat) (seg sect : List UInt8) : Decidable (IsNamed m sec seg sect) :=
  inferInstanceAs (Decidable (_ ∧ _))

/-! ## The symbol table of the LC_SYMTAB command at `sym` -/

def symoff (m : Buffer) (sym : Nat) : Nat := m.le 4 (sym + 8)

def nsyms (m : Buffer) (sym : Nat) : Nat := m.le 4 (sym + 12)

def stroff (m : Buffer) (sym : Nat) : Nat := m.le 4 (sym + 16)

def strsize (m : Buffer) (sym : Nat) : Nat := m.le 4 (sym + 20)

/-- The address of entry `i`. -/
def nlistAt (m : Buffer) (x : Bool) (ptr sym i : Nat) : Nat :=
  ptr + symoff m sym + i * nlistSize x

def strx (m : Buffer) (e : Nat) : Nat := m.le 4 e

def nType (m : Buffer) (e : Nat) : UInt8 := m.byte (e + 4)

def nSect (m : Buffer) (e : Nat) : Nat := (m.byte (e + 5)).toNat

def nDesc (m : Buffer) (e : Nat) : Nat := m.le 2 (e + 6)

def nValue (m : Buffer) (x : Bool) (e : Nat) : Nat := m.le (wordSize x) (e + 8)

/-- The address of the name of entry `i`. -/
def nameAt (m : Buffer) (x : Bool) (ptr sym i : Nat) : Nat :=
  ptr + stroff m sym + strx m (nlistAt m x ptr sym i)

/-- A symbol defined in a section, and not a debugger's. -/
def InSection (t : UInt8) : Prop := N_STAB &&& t = 0 ∧ t &&& N_TYPE = N_SECT

instance (t : UInt8) : Decidable (InSection t) := inferInstanceAs (Decidable (_ ∧ _))

/-! ## Well-formed images -/

/-- A load command inside the file; a segment command is of the image's width, and its section
headers lie in the file. -/
structure WfCommand (m : Buffer) (x : Bool) (lc : Nat) : Prop where
  atLeast : 8 ≤ cmdsize m lc
  inside : lc + cmdsize m lc ≤ m.size
  width : IsSegment m lc → cmd m lc = segmentCmd x
  sections : IsSegment m lc → lc + segmentSize x + nsects m x lc * sectionSize x ≤ m.size

/-- The section headers of a segment command lie in the command. -/
def Covers (m : Buffer) (x : Bool) (lc : Nat) : Prop :=
  IsSegment m lc → segmentSize x + nsects m x lc * sectionSize x ≤ cmdsize m lc

instance (m : Buffer) (x : Bool) (lc : Nat) : Decidable (Covers m x lc) :=
  inferInstanceAs (Decidable (_ → _))

/-- The load commands of a well-formed host-order image at `ptr`. -/
structure WfSegments (m : Buffer) (x : Bool) (ptr : Nat) : Prop where
  header : ptr + 32 ≤ m.size
  command : ∀ lc ∈ commands m x ptr, WfCommand m x lc
  covers : ∀ lc ∈ commands m x ptr, Covers m x lc

/-- The tables of the LC_SYMTAB command at `sym`: both inside the file, every name NUL-terminated
within the string table, every symbol in a section that the image has. -/
structure WfSymtab (m : Buffer) (x : Bool) (ptr sym : Nat) : Prop where
  inside : sym + symtabSize ≤ m.size
  entries : ptr + symoff m sym + nsyms m sym * nlistSize x ≤ m.size
  strings : ptr + stroff m sym + strsize m sym ≤ m.size
  strx : ∀ i < nsyms m sym, strx m (nlistAt m x ptr sym i) < strsize m sym
  name : ∀ i < nsyms m sym, ∃ q, nameAt m x ptr sym i ≤ q ∧
    q < ptr + stroff m sym + strsize m sym ∧ m.byte q = 0
  sect : ∀ i < nsyms m sym, InSection (nType m (nlistAt m x ptr sym i)) →
    1 ≤ nSect m (nlistAt m x ptr sym i) ∧
      nSect m (nlistAt m x ptr sym i) ≤ (MachO.sections m x ptr).length

/-- A well-formed host-order thin image at `ptr` whose LC_SYMTAB command is at `sym`. -/
structure WellFormed (m : Buffer) (x : Bool) (ptr sym : Nat) : Prop where
  header : ptr + 32 ≤ m.size
  magic : m.le 4 ptr = if x then MH_MAGIC_64 else MH_MAGIC
  command : ∀ lc ∈ commands m x ptr, WfCommand m x lc
  symtab : symtabCommand m x ptr = some sym
  table : WfSymtab m x ptr sym

/-! ## The table of a fat file

The table lies at the start of the file; `s` says that its fields are in the other byte order. -/

/-- The value of a table field that a little-endian read finds to be `v`. -/
def fatWord (s : Bool) (w v : Nat) : Nat := if s then byteSwap w v else v

def nfatArchs (m : Buffer) (s : Bool) : Nat := fatWord s 4 (m.le 4 4)

/-- The address of entry `k`. -/
def archAt (x : Bool) (k : Nat) : Nat := fatHeaderSize + k * fatArchSize x

def archType (m : Buffer) (x s : Bool) (k : Nat) : Nat := fatWord s 4 (m.le 4 (archAt x k))

def archOffset (m : Buffer) (x s : Bool) (k : Nat) : Nat :=
  fatWord s (wordSize x) (m.le (wordSize x) (archAt x k + 8))

/-- Some entry of the table is for x86_64. -/
def HasX86 (m : Buffer) (x s : Bool) : Prop :=
  ∃ k, k < nfatArchs m s ∧ archType m x s k = CPU_TYPE_X86_64

instance (m : Buffer) (x s : Bool) : Decidable (HasX86 m x s) :=
  inferInstanceAs (Decidable (∃ k, k < _ ∧ _))

/-- Entry `k` is for the host: x86_64, or i386 in a table without x86_64. -/
def Eligible (m : Buffer) (x s : Bool) (k : Nat) : Prop :=
  archType m x s k = CPU_TYPE_X86_64 ∨ archType m x s k = CPU_TYPE_I386 ∧ ¬ HasX86 m x s

instance (m : Buffer) (x s : Bool) (k : Nat) : Decidable (Eligible m x s k) :=
  inferInstanceAs (Decidable (_ ∨ _))

/-! ## Facts about the views -/

theorem WfCommand.lt (h : WfCommand m x lc) : lc + 8 ≤ m.size := by
  have := h.atLeast; have := h.inside; omega

/-- A walk only goes forward, whatever the sizes say. -/
theorem commandsFrom_ge (hc : c ∈ commandsFrom m n lc) : lc ≤ c := by
  induction n generalizing lc with
  | zero => simp [commandsFrom] at hc
  | succ n ih =>
    rcases List.mem_cons.mp hc with rfl | hc
    · exact Nat.le_refl _
    · exact (Nat.le_add_right _ _).trans (ih hc)

/-- Every section header lies behind the command that starts the walk. -/
theorem sections_le {a : Nat}
    (ha : a ∈ (commandsFrom m n lc).flatMap (sectionsAt m x)) : lc + segmentSize x ≤ a := by
  obtain ⟨c, hc, ha⟩ := List.mem_flatMap.mp ha
  have hle := commandsFrom_ge hc
  unfold sectionsAt at ha
  split at ha
  · obtain ⟨k, -, rfl⟩ := List.mem_map.mp ha
    omega
  · simp at ha

theorem nlistAt_add_le {sym i : Nat} (h : WfSymtab m x ptr sym) (hi : i < nsyms m sym) :
    nlistAt m x ptr sym i + nlistSize x ≤ m.size := by
  have h1 := h.entries
  have h2 : (i + 1) * nlistSize x ≤ nsyms m sym * nlistSize x := Nat.mul_le_mul_right _ hi
  unfold nlistAt
  rw [Nat.add_mul] at h2
  omega

theorem WfSymtab.terminated {sym i : Nat} (h : WfSymtab m x ptr sym) (hi : i < nsyms m sym) :
    m.Terminated (nameAt m x ptr sym i) := by
  obtain ⟨q, h1, h2, h3⟩ := h.name i hi
  have := h.strings
  exact ⟨q, h1, by omega, h3⟩

theorem WellFormed.symtab_le {sym : Nat} (hwf : WellFormed m x ptr sym) : ptr + headerSize x ≤ sym :=
  commandsFrom_ge (List.mem_of_find?_eq_some hwf.symtab)

/-- Entry `k` lies in a table with more than `k` entries. -/
theorem archAt_succ_le {k : Nat} (h : k < n) : archAt x k + fatArchSize x ≤ archAt x n := by
  have : (k + 1) * fatArchSize x ≤ n * fatArchSize x := Nat.mul_le_mul_right _ h
  rw [Nat.add_mul] at this
  unfold archAt
  omega

theorem wordSize_le_fatArch (x : Bool) : 8 + wordSize x ≤ fatArchSize x := by cases x <;> decide

end NmOtool.MachO
