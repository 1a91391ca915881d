import NmOtool.MachO.View

/-!
# Descriptions of thin files, and their encodings

A `Description` is a thin Mach-O file before any byte order: load commands with their sections,
and for a file with symbols (`ObjectFile`) the table they are kept in. `encode o` lays a
description out in the byte order `o`. Encoding in `.little` gives a host-order image, in `.big` the
byte-swapped one. The fields that neither program reads are there, as the layouts have them, under
no name of their own.
-/

namespace NmOtool.MachO

variable {m : Buffer} {x : Bool} {o : ByteOrder} {p n : Nat}

/-- The integers `ns`, `w` bytes each. -/
def fields (o : ByteOrder) (w : Nat) (ns : List Nat) : List UInt8 := ns.flatMap (o.encode w)

@[simp] theorem length_fields (ns : List Nat) : (fields o n ns).length = ns.length * n := by
  induction ns with
  | nil => simp [fields]
  | cons a ns ih =>
    unfold fields at ih ⊢
    rw [List.flatMap_cons, List.length_append, ih, ByteOrder.length_encode, List.length_cons,
      Nat.succ_mul, Nat.add_comm]

/-! ## Sections -/

/-- `struct section`, `struct section_64`; `tail` holds the words behind `offset`. -/
structure Section where
  sectname : List UInt8
  segname : List UInt8
  addr : Nat
  size : Nat
  offset : Nat
  tail : List Nat

namespace Section

structure Wf (x : Bool) (s : Section) : Prop where
  sectname : s.sectname.length = 16
  segname : s.segname.length = 16
  addr : s.addr < 256 ^ wordSize x
  size : s.size < 256 ^ wordSize x
  offset : s.offset < 256 ^ 4
  tail : s.tail.length = if x then 7 else 6

def encode (o : ByteOrder) (x : Bool) (s : Section) : List UInt8 :=
  s.sectname ++ s.segname ++ o.encode (wordSize x) s.addr ++ o.encode (wordSize x) s.size ++
    o.encode 4 s.offset ++ fields o 4 s.tail

theorem length_encode {s : Section} (h : s.Wf x) : (s.encode o x).length = sectionSize x := by
  have h1 := h.sectname
  have h2 := h.segname
  have h3 := h.tail
  simp only [encode, List.length_append, ByteOrder.length_encode, length_fields]
  cases x <;> simp only [sectionSize, wordSize, Bool.false_eq_true, if_false, if_true] at h3 ⊢ <;>
    omega

/-- The section is called `(seg,sect)`. -/
def IsNamed (seg sect : List UInt8) (s : Section) : Prop :=
  s.sectname.take (sect.length + 1) = sect ++ [0] ∧ s.segname.take (seg.length + 1) = seg ++ [0]

instance (seg sect : List UInt8) (s : Section) : Decidable (s.IsNamed seg sect) :=
  inferInstanceAs (Decidable (_ ∧ _))

/-- A header at `p` is called as its section is, in either byte order. -/
theorem isNamed_iff {s : Section} {seg sect : List UInt8} (h : s.Wf x)
    (hm : m.Holds p (s.encode o x)) (h1 : seg.length + 1 ≤ 16) (h2 : sect.length + 1 ≤ 16) :
    MachO.IsNamed m p seg sect ↔ s.IsNamed seg sect := by
  have hsect := h.sectname
  have hseg := h.segname
  simp only [encode, List.append_assoc] at hm
  obtain ⟨hn1, hm⟩ := Buffer.holds_append.mp hm
  obtain ⟨hn2, -⟩ := Buffer.holds_append.mp hm
  have e1 := hn1.2
  have e2 := hn2.2
  rw [hsect] at e1 e2
  rw [hseg] at e2
  rw [MachO.IsNamed, hasName_iff h2, hasName_iff h1, e1, e2, IsNamed]

/-- The words of a header at `p`, as a little-endian reader finds them. -/
theorem read_words {s : Section} (h : s.Wf x) (hm : m.Holds p (s.encode o x)) :
    secAddr m x p = o.read (wordSize x) s.addr ∧ secSize m x p = o.read (wordSize x) s.size ∧
      secOffset m x p = o.read 4 s.offset := by
  have h1 := h.sectname
  have h2 := h.segname
  unfold encode at hm
  obtain ⟨hm, -⟩ := Buffer.holds_append.mp hm
  obtain ⟨hm, ho⟩ := Buffer.holds_append.mp hm
  obtain ⟨hm, hs⟩ := Buffer.holds_append.mp hm
  obtain ⟨-, ha⟩ := Buffer.holds_append.mp hm
  simp only [List.length_append, ByteOrder.length_encode, h1, h2] at ha hs ho
  refine ⟨ha.le h.addr, ?_, ?_⟩
  · rw [secSize, Nat.add_assoc]
    exact hs.le h.size
  · rw [secOffset, show p + 32 + 2 * wordSize x = p + (16 + 16 + wordSize x + wordSize x) by omega]
    exact ho.le h.offset

end Section

/-! ## Load commands -/

inductive Command where
  /-- `segment_command` of the file's width: `vmaddr` to `filesize`, the protections, the flags. -/
  | segment (segname : List UInt8) (extent prot : List Nat) (flags : Nat) (sections : List Section)
  /-- Any other command; what follows `cmdsize` is given for each byte order. -/
  | other (cmd : Nat) (payload : ByteOrder → List UInt8)

namespace Command

def cmd (x : Bool) : Command → Nat
  | segment .. => segmentCmd x
  | other cmd _ => cmd

def sections : Command → List Section
  | segment _ _ _ _ sections => sections
  | other .. => []

def size (x : Bool) : Command → Nat
  | segment _ _ _ _ sections => segmentSize x + sections.length * sectionSize x
  | other _ payload => 8 + (payload .little).length

def body (o : ByteOrder) (x : Bool) : Command → List UInt8
  | segment segname extent prot flags sections =>
    segname ++ fields o (wordSize x) extent ++ fields o 4 prot ++
      o.encode 4 sections.length ++ o.encode 4 flags ++ sections.flatMap (Section.encode o x)
  | other _ payload => payload o

def encode (o : ByteOrder) (x : Bool) (c : Command) : List UInt8 :=
  o.encode 4 (c.cmd x) ++ o.encode 4 (c.size x) ++ c.body o x

/-- What the layouts ask of a command. A segment command is a `segment`. -/
def Wf (x : Bool) (c : Command) : Prop :=
  c.size x < 256 ^ 4 ∧
    match c with
    | segment segname extent prot _ sections =>
      segname.length = 16 ∧ extent.length = 4 ∧ prot.length = 2 ∧ ∀ s ∈ sections, s.Wf x
    | other cmd payload =>
      cmd < 256 ^ 4 ∧ cmd ≠ LC_SEGMENT ∧ cmd ≠ LC_SEGMENT_64 ∧
        (payload .big).length = (payload .little).length

theorem length_encodeSections {ss : List Section} (h : ∀ s ∈ ss, s.Wf x) :
    (ss.flatMap (Section.encode o x)).length = ss.length * sectionSize x := by
  induction ss with
  | nil => simp
  | cons s ss ih =>
    rw [List.flatMap_cons, List.length_append, Section.length_encode (h s List.mem_cons_self),
      ih fun s hs => h s (List.mem_cons_of_mem _ hs), List.length_cons, Nat.succ_mul,
      Nat.add_comm]

theorem cmd_lt {c : Command} (h : c.Wf x) : c.cmd x < 256 ^ 4 := by
  obtain ⟨-, h⟩ := h
  cases c with
  | segment =>
    change segmentCmd x < 256 ^ 4
    cases x <;> decide
  | other cmd payload => exact h.1

theorem length_body {c : Command} (h : c.Wf x) : (c.body o x).length + 8 = c.size x := by
  obtain ⟨-, h⟩ := h
  cases c with
  | segment segname extent prot flags sections =>
    obtain ⟨h1, h2, h3, h4⟩ := h
    simp only [body, size, List.length_append, length_fields, ByteOrder.length_encode,
      length_encodeSections h4, h1, h2, h3]
    cases x <;> simp only [segmentSize, wordSize, Bool.false_eq_true, if_false, if_true] <;> omega
  | other cmd payload =>
    obtain ⟨-, -, -, h⟩ := h
    cases o <;> simp only [body, size, h] <;> omega

theorem length_encode {c : Command} (h : c.Wf x) : (c.encode o x).length = c.size x := by
  have := length_body (o := o) h
  simp only [encode, List.length_append, ByteOrder.length_encode]
  omega

theorem size_ge (x : Bool) (c : Command) : 8 ≤ c.size x := by
  cases c with
  | segment segname extent prot flags sections =>
    unfold size
    cases x <;> simp only [segmentSize, Bool.false_eq_true, if_false, if_true] <;> omega
  | other cmd payload => simp only [size]; omega

/-! What a little-endian reader finds in a command at `p`. -/

theorem read_cmd {c : Command} (h : c.Wf x) (hm : m.Holds p (c.encode o x)) :
    MachO.cmd m p = o.read 4 (c.cmd x) := by
  rw [encode, List.append_assoc] at hm
  exact (Buffer.holds_append.mp hm).1.le (cmd_lt h)

theorem read_cmdsize {c : Command} (h : c.Wf x) (hm : m.Holds p (c.encode o x)) :
    cmdsize m p = o.read 4 (c.size x) := by
  have := Buffer.Holds.part hm
  rw [ByteOrder.length_encode] at this
  exact this.le h.1

theorem holds_body {c : Command} (hm : m.Holds p (c.encode o x)) : m.Holds (p + 8) (c.body o x) := by
  have := (Buffer.holds_append.mp hm).2
  simpa using this

theorem holds_sections {segname : List UInt8} {extent prot : List Nat} {flags : Nat}
    {sections : List Section} (h : (segment segname extent prot flags sections).Wf x)
    (hm : m.Holds p ((segment segname extent prot flags sections).encode o x)) :
    m.Holds (p + segmentSize x) (sections.flatMap (Section.encode o x)) := by
  obtain ⟨-, h1, h2, h3, -⟩ := h
  have := (Buffer.holds_append.mp (holds_body hm)).2
  simp only [List.length_append, length_fields, ByteOrder.length_encode, h1, h2, h3] at this
  convert this using 1
  cases x <;> simp only [segmentSize, wordSize, Bool.false_eq_true, if_false, if_true]

theorem holds_section {segname : List UInt8} {extent prot : List Nat} {flags i : Nat}
    {sections : List Section} (h : (segment segname extent prot flags sections).Wf x)
    (hm : m.Holds p ((segment segname extent prot flags sections).encode o x))
    (hi : i < sections.length) :
    m.Holds (p + segmentSize x + i * sectionSize x) (sections[i].encode o x) := by
  obtain ⟨-, -, -, -, hs⟩ := id h
  exact (holds_sections h hm).flatMap (fun s hmem => Section.length_encode (hs s hmem)) hi

theorem length_sections_lt {c : Command} (h : c.Wf x) : c.sections.length < 256 ^ 4 := by
  obtain ⟨h, -⟩ := h
  cases c with
  | segment segname extent prot flags sections =>
    change segmentSize x + sections.length * sectionSize x < 256 ^ 4 at h
    change sections.length < 256 ^ 4
    cases x <;> simp only [sectionSize, Bool.false_eq_true, if_false, if_true] at h <;> omega
  | other cmd payload => simp [sections]

theorem read_nsects {segname : List UInt8} {extent prot : List Nat} {flags : Nat}
    {sections : List Section} (h : (segment segname extent prot flags sections).Wf x)
    (hm : m.Holds p ((segment segname extent prot flags sections).encode o x)) :
    nsects m x p = o.read 4 sections.length := by
  have hlt := length_sections_lt h
  obtain ⟨-, h1, h2, h3, -⟩ := h
  have hb := holds_body hm
  rw [show body o x (segment segname extent prot flags sections) =
    segname ++ fields o (wordSize x) extent ++ fields o 4 prot ++ o.encode 4 sections.length ++
      (o.encode 4 flags ++ sections.flatMap (Section.encode o x)) by
    simp [body, List.append_assoc]] at hb
  have hn := (Buffer.Holds.part hb).le hlt
  simp only [List.length_append, length_fields, h1, h2, h3] at hn
  unfold nsects
  convert hn using 2
  cases x <;> simp only [nsectsOffset, wordSize, Bool.false_eq_true, if_false, if_true]

end Command

/-! ## The area of the load commands -/

/-- The commands with their positions, laid end to end from `p`. -/
def place (x : Bool) : Nat → List Command → List (Nat × Command)
  | _, [] => []
  | p, c :: cs => (p, c) :: place x (p + c.size x) cs

def areaSize (x : Bool) (cs : List Command) : Nat := (cs.map (Command.size x)).sum

def encodeArea (o : ByteOrder) (x : Bool) (cs : List Command) : List UInt8 :=
  cs.flatMap (Command.encode o x)

theorem length_encodeArea {cs : List Command} (h : ∀ c ∈ cs, c.Wf x) :
    (encodeArea o x cs).length = areaSize x cs := by
  induction cs with
  | nil => rfl
  | cons c cs ih =>
    rw [encodeArea, List.flatMap_cons, List.length_append,
      Command.length_encode (h c List.mem_cons_self), areaSize, List.map_cons, List.sum_cons]
    exact congrArg _ (ih fun c hc => h c (List.mem_cons_of_mem _ hc))

theorem holds_place {cs : List Command} (h : ∀ c ∈ cs, c.Wf x)
    (hm : m.Holds p (encodeArea o x cs)) :
    ∀ pc ∈ place x p cs, pc.2.Wf x ∧ m.Holds pc.1 (pc.2.encode o x) := by
  induction cs generalizing p with
  | nil => simp [place]
  | cons c cs ih =>
    rw [encodeArea, List.flatMap_cons, Buffer.holds_append,
      Command.length_encode (h c List.mem_cons_self)] at hm
    intro pc hpc
    rcases List.mem_cons.mp hpc with rfl | hpc
    · exact ⟨h c List.mem_cons_self, hm.1⟩
    · exact ih (fun c hc => h c (List.mem_cons_of_mem _ hc)) hm.2 pc hpc

theorem mem_of_mem_place {cs : List Command} {c : Command} {q : Nat} (h : (q, c) ∈ place x p cs) :
    c ∈ cs := by
  induction cs generalizing p with
  | nil => simp [place] at h
  | cons a cs ih =>
    rcases List.mem_cons.mp h with h | h
    · cases h
      exact List.mem_cons_self
    · exact List.mem_cons_of_mem _ (ih h)

theorem place_append (cs ds : List Command) :
    place x p (cs ++ ds) = place x p cs ++ place x (p + areaSize x cs) ds := by
  induction cs generalizing p with
  | nil => rfl
  | cons c cs ih =>
    rw [List.cons_append, place, ih, place, List.cons_append, areaSize, areaSize, List.map_cons,
      List.sum_cons, Nat.add_assoc]

theorem place_le {cs : List Command} {c : Command} {q : Nat} (h : (q, c) ∈ place x p cs) :
    p ≤ q ∧ q + c.size x ≤ p + areaSize x cs := by
  induction cs generalizing p with
  | nil => simp [place] at h
  | cons a cs ih =>
    rw [areaSize, List.map_cons, List.sum_cons]
    rcases List.mem_cons.mp h with h | h
    · cases h
      omega
    · have := ih h
      unfold areaSize at this
      omega

theorem commandsFrom_place {cs : List Command} (h : ∀ c ∈ cs, c.Wf x)
    (hm : m.Holds p (encodeArea .little x cs)) :
    commandsFrom m cs.length p = (place x p cs).map Prod.fst := by
  induction cs generalizing p with
  | nil => rfl
  | cons c cs ih =>
    rw [encodeArea, List.flatMap_cons, Buffer.holds_append,
      Command.length_encode (h c List.mem_cons_self)] at hm
    rw [List.length_cons, commandsFrom, Command.read_cmdsize (h c List.mem_cons_self) hm.1, place,
      List.map_cons]
    exact congrArg _ (ih (fun c hc => h c (List.mem_cons_of_mem _ hc)) hm.2)

theorem wfCommand_of_holds {c : Command} (h : c.Wf x) (hm : m.Holds p (c.encode .little x)) :
    WfCommand m x p := by
  have hcmd := Command.read_cmd h hm
  have hsize : cmdsize m p = c.size x := Command.read_cmdsize h hm
  have hin := hm.1
  rw [Command.length_encode h] at hin
  cases c with
  | segment segname extent prot flags sections =>
    refine ⟨hsize ▸ Command.size_ge x _, hsize ▸ hin, fun _ => hcmd, fun _ => ?_⟩
    have hn : nsects m x p = sections.length := Command.read_nsects h hm
    rw [hn, Nat.add_assoc]
    exact hin
  | other cmd payload =>
    have hno : ¬ IsSegment m p := by
      obtain ⟨-, -, h1, h2, -⟩ := h
      exact not_isSegment_of_cmd hcmd h1 h2
    exact ⟨hsize ▸ Command.size_ge x _, hsize ▸ hin, fun e => absurd e hno, fun e => absurd e hno⟩

/-- The section headers of a command, where its image has them. -/
theorem sectionsAt_of_holds {c : Command} (h : c.Wf x) (hm : m.Holds p (c.encode .little x)) :
    sectionsAt m x p =
      (List.range c.sections.length).map fun k => p + segmentSize x + k * sectionSize x := by
  have hcmd : MachO.cmd m p = c.cmd x := Command.read_cmd h hm
  cases c with
  | segment segname extent prot flags sections =>
    have hseg : IsSegment m p := isSegment_of_cmd hcmd
    have hn : nsects m x p = sections.length := Command.read_nsects h hm
    rw [sectionsAt, if_pos hseg, hn]
    rfl
  | other cmd payload =>
    obtain ⟨-, -, h1, h2, -⟩ := h
    rw [sectionsAt, if_neg (not_isSegment_of_cmd hcmd h1 h2)]
    rfl

theorem length_sections_place {cs : List Command} (h : ∀ c ∈ cs, c.Wf x)
    (hm : m.Holds p (encodeArea .little x cs)) :
    (((place x p cs).map Prod.fst).flatMap (sectionsAt m x)).length =
      (cs.flatMap Command.sections).length := by
  induction cs generalizing p with
  | nil => rfl
  | cons c cs ih =>
    rw [encodeArea, List.flatMap_cons, Buffer.holds_append,
      Command.length_encode (h c List.mem_cons_self)] at hm
    rw [place, List.map_cons, List.flatMap_cons, List.length_append,
      ih (fun c hc => h c (List.mem_cons_of_mem _ hc)) hm.2,
      sectionsAt_of_holds (h c List.mem_cons_self) hm.1, List.flatMap_cons, List.length_append]
    simp

/-! ## Thin files -/

/-- A thin file: CPU type, subtype and file type; the flags; the load commands. -/
structure Description where
  cpu : List Nat
  flags : List Nat
  commands : List Command

def thinMagic (x : Bool) : Nat := if x then MH_MAGIC_64 else MH_MAGIC

namespace Description

def header (o : ByteOrder) (x : Bool) (d : Description) : List UInt8 :=
  fields o 4 (thinMagic x :: d.cpu) ++ o.encode 4 d.commands.length ++
    o.encode 4 (areaSize x d.commands) ++ fields o 4 d.flags

def encode (o : ByteOrder) (x : Bool) (d : Description) : List UInt8 :=
  d.header o x ++ encodeArea o x d.commands

structure Wf (x : Bool) (d : Description) : Prop where
  cpu : d.cpu.length = 3
  flags : d.flags.length = if x then 2 else 1
  ncmds : d.commands.length < 256 ^ 4
  commands : ∀ c ∈ d.commands, c.Wf x

variable {d : Description}

theorem length_header (h : d.Wf x) : (d.header o x).length = headerSize x := by
  have h1 := h.cpu
  have h2 := h.flags
  simp only [header, List.length_append, length_fields, ByteOrder.length_encode, List.length_cons]
  cases x <;> simp only [headerSize, Bool.false_eq_true, if_false, if_true] at h2 ⊢ <;> omega

theorem length_encode (h : d.Wf x) :
    (d.encode o x).length = headerSize x + areaSize x d.commands := by
  rw [encode, List.length_append, length_header h, length_encodeArea h.commands]

theorem holds_area (h : d.Wf x) (hm : m.Holds 0 (d.encode o x)) :
    m.Holds (headerSize x) (encodeArea o x d.commands) := by
  have := (Buffer.holds_append.mp hm).2
  rwa [length_header h, Nat.zero_add] at this

theorem read_magic (hm : m.Holds 0 (d.encode o x)) : m.le 4 0 = o.read 4 (thinMagic x) := by
  rw [encode, header, fields, List.flatMap_cons, List.append_assoc, List.append_assoc,
    List.append_assoc, List.append_assoc] at hm
  refine (Buffer.holds_append.mp hm).1.le ?_
  cases x <;> decide

theorem read_ncmds (h : d.Wf x) (hm : m.Holds 0 (d.encode o x)) :
    m.le 4 16 = o.read 4 d.commands.length := by
  rw [show d.encode o x = fields o 4 (thinMagic x :: d.cpu) ++ o.encode 4 d.commands.length ++
    (o.encode 4 (areaSize x d.commands) ++ fields o 4 d.flags ++ encodeArea o x d.commands) by
    simp [encode, header, List.append_assoc]] at hm
  have hn := (Buffer.Holds.part hm).le h.ncmds
  simpa [h.cpu] using hn

theorem commands_eq (h : d.Wf x) (hm : m.Holds 0 (d.encode .little x)) :
    MachO.commands m x 0 = (place x (headerSize x) d.commands).map Prod.fst := by
  have hn : MachO.ncmds m 0 = d.commands.length := read_ncmds h hm
  rw [MachO.commands, hn, Nat.zero_add, commandsFrom_place h.commands (holds_area h hm)]

theorem wfCommands (h : d.Wf x) (hm : m.Holds 0 (d.encode .little x)) :
    ∀ lc ∈ MachO.commands m x 0, WfCommand m x lc := by
  rw [commands_eq h hm]
  intro lc hlc
  obtain ⟨⟨p, c⟩, hpc, rfl⟩ := List.mem_map.mp hlc
  obtain ⟨hc, hh⟩ := holds_place h.commands (holds_area h hm) _ hpc
  exact wfCommand_of_holds hc hh

theorem length_sections (h : d.Wf x) (hm : m.Holds 0 (d.encode .little x)) :
    (MachO.sections m x 0).length = (d.commands.flatMap Command.sections).length := by
  rw [sections, commands_eq h hm, length_sections_place h.commands (holds_area h hm)]

end Description

/-! ## Files with symbols -/

/-- `struct nlist`, `struct nlist_64`. -/
structure Symbol where
  strx : Nat
  type : UInt8
  sect : UInt8
  desc : Nat
  value : Nat

namespace Symbol

def encode (o : ByteOrder) (x : Bool) (s : Symbol) : List UInt8 :=
  o.encode 4 s.strx ++ [s.type, s.sect] ++ o.encode 2 s.desc ++ o.encode (wordSize x) s.value

theorem length_encode (s : Symbol) : (s.encode o x).length = nlistSize x := by
  simp only [encode, List.length_append, ByteOrder.length_encode, List.length_cons, List.length_nil]
  cases x <;> rfl

end Symbol

def encodeSymbols (o : ByteOrder) (x : Bool) (ss : List Symbol) : List UInt8 :=
  ss.flatMap (Symbol.encode o x)

theorem length_encodeSymbols (ss : List Symbol) :
    (encodeSymbols o x ss).length = ss.length * nlistSize x := by
  induction ss with
  | nil => simp [encodeSymbols]
  | cons s ss ih =>
    rw [encodeSymbols, List.flatMap_cons, List.length_append, Symbol.length_encode,
      List.length_cons, Nat.succ_mul, Nat.add_comm]
    exact congrArg (· + _) ih

theorem holds_symbol {ss : List Symbol} {i : Nat} (hm : m.Holds p (encodeSymbols o x ss))
    (hi : i < ss.length) : m.Holds (p + i * nlistSize x) (ss[i].encode o x) :=
  hm.flatMap (fun s _ => Symbol.length_encode s) hi

theorem holds_fields {s : Symbol} (hm : m.Holds p (s.encode o x)) :
    m.Holds p (o.encode 4 s.strx) ∧ m.Holds (p + 4) [s.type, s.sect] ∧
      m.Holds (p + 6) (o.encode 2 s.desc) ∧ m.Holds (p + 8) (o.encode (wordSize x) s.value) := by
  unfold Symbol.encode at hm
  obtain ⟨hm, hv⟩ := Buffer.holds_append.mp hm
  obtain ⟨hm, hd⟩ := Buffer.holds_append.mp hm
  obtain ⟨hx, ht⟩ := Buffer.holds_append.mp hm
  simp only [List.length_append, ByteOrder.length_encode, List.length_cons, List.length_nil]
    at hv hd ht
  exact ⟨hx, ht, hd, hv⟩

/-- The fields of a table entry at `p`, as a little-endian reader finds them. -/
theorem read_symbol {s : Symbol} (hm : m.Holds p (s.encode o x)) (h1 : s.strx < 256 ^ 4)
    (h2 : s.desc < 256 ^ 2) (h3 : s.value < 256 ^ wordSize x) :
    strx m p = o.read 4 s.strx ∧ nType m p = s.type ∧ m.byte (p + 5) = s.sect ∧
      nDesc m p = o.read 2 s.desc ∧ nValue m x p = o.read (wordSize x) s.value := by
  obtain ⟨hx, ht, hd, hv⟩ := holds_fields hm
  exact ⟨hx.le h1, ht.byte (k := 0) rfl, ht.byte (k := 1) rfl, hd.le h2, hv.le h3⟩

/-- A thin file with one LC_SYMTAB command, at any place among the others; its two tables. -/
structure ObjectFile where
  cpu : List Nat
  flags : List Nat
  before : List Command
  symoff : Nat
  symbols : List Symbol
  stroff : Nat
  strings : List UInt8
  after : List Command

namespace ObjectFile

def symtab (d : ObjectFile) : Command :=
  .other LC_SYMTAB fun o => fields o 4 [d.symoff, d.symbols.length, d.stroff, d.strings.length]

def toDescription (d : ObjectFile) : Description where
  cpu := d.cpu
  flags := d.flags
  commands := d.before ++ d.symtab :: d.after

/-- The position of the LC_SYMTAB command. -/
def symtabAt (x : Bool) (d : ObjectFile) : Nat := headerSize x + areaSize x d.before

/-- Where the load commands end. -/
def areaEnd (x : Bool) (d : ObjectFile) : Nat := headerSize x + areaSize x d.toDescription.commands

def sections (d : ObjectFile) : List Section := d.toDescription.commands.flatMap Command.sections

/-- A symbol has a name within the string table, and a section that the file has if it is defined
in one. -/
structure WfSymbol (x : Bool) (d : ObjectFile) (s : Symbol) : Prop where
  strx : s.strx < d.strings.length
  named : 0 ∈ d.strings.drop s.strx
  desc : s.desc < 256 ^ 2
  value : s.value < 256 ^ wordSize x
  sect : InSection s.type → 1 ≤ s.sect.toNat ∧ s.sect.toNat ≤ d.sections.length

/-- The fields fit, and neither table overlaps the other or the load commands. -/
structure Wf (x : Bool) (d : ObjectFile) : Prop where
  area : d.toDescription.Wf x
  before : ∀ c ∈ d.before, c.cmd x ≠ LC_SYMTAB
  after : ∀ c ∈ d.after, c.cmd x ≠ LC_SYMTAB
  symoff : d.symoff < 256 ^ 4
  nsyms : d.symbols.length < 256 ^ 4
  stroff : d.stroff < 256 ^ 4
  strsize : d.strings.length < 256 ^ 4
  symbols : ∀ s ∈ d.symbols, d.WfSymbol x s
  entries : d.areaEnd x ≤ d.symoff
  strings : d.areaEnd x ≤ d.stroff
  disjoint : d.symoff + d.symbols.length * nlistSize x ≤ d.stroff ∨
    d.stroff + d.strings.length ≤ d.symoff

/-- The image `m` is `d` laid out in the byte order `o`. -/
structure Encodes (o : ByteOrder) (x : Bool) (d : ObjectFile) (m : Buffer) : Prop where
  area : m.Holds 0 (d.toDescription.encode o x)
  entries : m.Holds d.symoff (encodeSymbols o x d.symbols)
  strings : m.Holds d.stroff d.strings

variable {d : ObjectFile} {i : Nat}

theorem place_commands : place x (headerSize x) d.toDescription.commands =
    place x (headerSize x) d.before ++ (d.symtabAt x, d.symtab) ::
      place x (d.symtabAt x + 24) d.after := by
  rw [toDescription, place_append, place, symtabAt]
  rfl

theorem symtab_size : d.symtab.size x = 24 := rfl

theorem symtabAt_le (x : Bool) (d : ObjectFile) : d.symtabAt x + 24 ≤ d.areaEnd x := by
  simp only [symtabAt, areaEnd, toDescription, areaSize, List.map_append, List.map_cons,
    List.sum_append, List.sum_cons, symtab_size]
  omega

theorem Wf.command (h : d.Wf x) (he : d.Encodes o x m) :
    ∀ pc ∈ place x (headerSize x) d.toDescription.commands,
      pc.2.Wf x ∧ m.Holds pc.1 (pc.2.encode o x) :=
  holds_place h.area.commands (Description.holds_area h.area he.area)

theorem Wf.holds_before (h : d.Wf x) (he : d.Encodes o x m) :
    m.Holds (headerSize x) (encodeArea o x d.before) := by
  have := Description.holds_area h.area he.area
  rw [encodeArea, toDescription, List.flatMap_append] at this
  exact (Buffer.holds_append.mp this).1

theorem Wf.symtab (h : d.Wf x) (he : d.Encodes o x m) :
    m.Holds (d.symtabAt x) (d.symtab.encode o x) :=
  (h.command he (d.symtabAt x, d.symtab) (by rw [place_commands]; simp)).2

/-- The four words of the LC_SYMTAB command, as a little-endian reader finds them. -/
theorem Wf.read_symtab (h : d.Wf x) (he : d.Encodes o x m) :
    MachO.symoff m (d.symtabAt x) = o.read 4 d.symoff ∧
    MachO.nsyms m (d.symtabAt x) = o.read 4 d.symbols.length ∧
    MachO.stroff m (d.symtabAt x) = o.read 4 d.stroff ∧
    MachO.strsize m (d.symtabAt x) = o.read 4 d.strings.length := by
  have hb := Command.holds_body (h.symtab he)
  rw [show Command.body o x d.symtab = o.encode 4 d.symoff ++ o.encode 4 d.symbols.length ++
    o.encode 4 d.stroff ++ o.encode 4 d.strings.length by
    simp [Command.body, ObjectFile.symtab, fields]] at hb
  obtain ⟨hb, h4⟩ := Buffer.holds_append.mp hb
  obtain ⟨hb, h3⟩ := Buffer.holds_append.mp hb
  obtain ⟨h1, h2⟩ := Buffer.holds_append.mp hb
  simp only [List.length_append, ByteOrder.length_encode] at h2 h3 h4
  exact ⟨h1.le h.symoff, h2.le h.nsyms, h3.le h.stroff, h4.le h.strsize⟩

theorem Wf.entry (h : d.Wf x) (he : d.Encodes o x m) (hi : i < d.symbols.length) :
    let e := d.symoff + i * nlistSize x
    MachO.strx m e = o.read 4 d.symbols[i].strx ∧ nType m e = d.symbols[i].type ∧
      m.byte (e + 5) = d.symbols[i].sect ∧ nDesc m e = o.read 2 d.symbols[i].desc ∧
      nValue m x e = o.read (wordSize x) d.symbols[i].value := by
  have hs := h.symbols _ (List.getElem_mem hi)
  have hlt := h.strsize
  have hx := hs.strx
  exact read_symbol (holds_symbol he.entries hi) (by omega) hs.desc hs.value

/-- The name of a symbol ends within the string table. -/
theorem Wf.name_nul (h : d.Wf x) (he : d.Encodes o x m) (hi : i < d.symbols.length) :
    ∃ q, d.stroff + d.symbols[i].strx ≤ q ∧ q < d.stroff + d.strings.length ∧ m.byte q = 0 := by
  have hs := h.symbols _ (List.getElem_mem hi)
  obtain ⟨j, hj, h0⟩ := List.getElem_of_mem hs.named
  rw [List.length_drop] at hj
  rw [List.getElem_drop] at h0
  refine ⟨d.stroff + (d.symbols[i].strx + j), by omega, by omega, ?_⟩
  exact he.strings.byte (List.getElem?_eq_some_iff.mpr ⟨by omega, h0⟩)

theorem Wf.find_symtab (h : d.Wf x) (he : d.Encodes .little x m) :
    symtabCommand m x 0 = some (d.symtabAt x) := by
  have hcmd := h.command he
  have hst := Command.read_cmd (h.area.commands d.symtab (by simp [toDescription])) (h.symtab he)
  rw [symtabCommand, Description.commands_eq h.area he.area, place_commands, List.map_append,
    List.find?_append, List.find?_eq_none.mpr, Option.none_or, List.map_cons, List.find?_cons_of_pos]
  · rw [beq_iff_eq, hst]
    rfl
  · intro lc hlc
    obtain ⟨⟨p, c⟩, hpc, rfl⟩ := List.mem_map.mp hlc
    obtain ⟨hc, hh⟩ := hcmd (p, c) (by rw [place_commands]; exact List.mem_append_left _ hpc)
    rw [beq_iff_eq, Command.read_cmd hc hh]
    exact h.before c (mem_of_mem_place hpc)

/-- The host-order encoding of a description is a well-formed image. -/
theorem Wf.wellFormed (h : d.Wf x) (he : d.Encodes .little x m) :
    WellFormed m x 0 (d.symtabAt x) := by
  obtain ⟨h1, h2, h3, h4⟩ := h.read_symtab he
  have harea := he.area.1
  rw [Description.length_encode h.area] at harea
  have hend := symtabAt_le x d
  unfold areaEnd at hend
  have hhs : 28 ≤ headerSize x := by cases x <;> decide
  have hsym : headerSize x ≤ d.symtabAt x := by unfold symtabAt; omega
  have hent := he.entries.1
  rw [length_encodeSymbols] at hent
  have hstr := he.strings.1
  have hent' : ∀ i, nlistAt m x 0 (d.symtabAt x) i = d.symoff + i * nlistSize x := fun i => by
    rw [nlistAt, h1, Nat.zero_add]
    rfl
  refine ⟨by omega, Description.read_magic he.area, Description.wfCommands h.area he.area,
    h.find_symtab he, ?_, ?_, ?_, ?_, ?_, ?_⟩
  · unfold symtabSize
    omega
  · rw [h1, h2, Nat.zero_add]
    exact hent
  · rw [h3, h4, Nat.zero_add]
    exact hstr
  · intro i hi
    rw [h2] at hi
    rw [hent', h4, (h.entry he hi).1]
    exact (h.symbols _ (List.getElem_mem hi)).strx
  · intro i hi
    rw [h2] at hi
    obtain ⟨q, hq1, hq2, hq3⟩ := h.name_nul he hi
    refine ⟨q, ?_, ?_, hq3⟩
    · rw [nameAt, hent', h3, (h.entry he hi).1, Nat.zero_add]
      exact hq1
    · rw [h3, h4, Nat.zero_add]
      exact hq2
  · intro i hi
    rw [h2] at hi
    obtain ⟨-, ht, hs, -, -⟩ := h.entry he hi
    rw [hent', nSect, ht, hs, Description.length_sections h.area he.area]
    exact (h.symbols _ (List.getElem_mem hi)).sect

/-! ### The tables behind the load commands -/

/-- The file with its symbol table behind the load commands, and the string table behind that. -/
def bytes (o : ByteOrder) (x : Bool) (d : ObjectFile) : List UInt8 :=
  d.toDescription.encode o x ++ encodeSymbols o x d.symbols ++ d.strings

def image (o : ByteOrder) (x : Bool) (d : ObjectFile) : Buffer :=
  .ofBytes (d.bytes o x).length (d.bytes o x)

theorem Wf.encodes (h : d.Wf x) (h1 : d.symoff = d.areaEnd x)
    (h2 : d.stroff = d.areaEnd x + d.symbols.length * nlistSize x)
    (hn : (d.bytes o x).length ≤ n) : d.Encodes o x (.ofBytes n (d.bytes o x)) := by
  have hm : (Buffer.ofBytes n (d.bytes o x)).Holds 0 (d.bytes o x) := Buffer.holds_ofBytes hn
  have hlen := Description.length_encode (o := o) h.area
  obtain ⟨hm, hstr⟩ := Buffer.holds_append.mp (show Buffer.Holds _ 0 (_ ++ _) from hm)
  obtain ⟨harea, hent⟩ := Buffer.holds_append.mp hm
  rw [hlen, Nat.zero_add] at hent
  rw [List.length_append, hlen, length_encodeSymbols, Nat.zero_add] at hstr
  refine ⟨harea, ?_, ?_⟩
  · rw [h1]
    exact hent
  · rw [h2]
    exact hstr

end ObjectFile

/-! ## A small file -/

/-- A name in a fixed-width field. -/
def name16 (s : List UInt8) : List UInt8 := s ++ List.replicate (16 - s.length) 0

/-- One section, `(__TEXT,__text)`, with `_f` in it, and an undefined `_g`. The section's bytes are
those of the string table, for want of code. -/
def smallFile (x : Bool) : ObjectFile where
  cpu := [if x then CPU_TYPE_X86_64 else CPU_TYPE_I386, 3, 1]
  flags := if x then [0, 0] else [0]
  before := [.segment (name16 []) [0, 0, 0, 0] [7, 7] 0
    [{ sectname := name16 SECT_TEXT, segname := name16 SEG_TEXT, addr := 0x1000, size := 18,
       offset := if x then 240 else 200, tail := List.replicate (if x then 7 else 6) 0 }]]
  symoff := if x then 208 else 176
  symbols := [⟨1, 0x0f, 1, 0, 0x1000⟩, ⟨4, 0x01, 0, 0, 0⟩]
  stroff := if x then 240 else 200
  strings := [0] ++ ascii "_f" ++ [0] ++ ascii "_g" ++ List.replicate 14 0
  after := []

theorem smallFile_wf (x : Bool) : (smallFile x).Wf x where
  area := by
    refine ⟨rfl, by cases x <;> rfl, by cases x <;> decide, fun c hc => ?_⟩
    have : c = (smallFile x).before.head (by simp [smallFile]) ∨ c = (smallFile x).symtab := by
      simpa [ObjectFile.toDescription, smallFile] using hc
    rcases this with rfl | rfl
    · refine ⟨by cases x <;> decide, rfl, rfl, rfl, fun s hs => ?_⟩
      rw [List.mem_singleton.mp hs]
      cases x <;> exact ⟨by decide, by decide, by decide, by decide, by decide, by decide⟩
    · exact ⟨by cases x <;> decide, by decide, by decide, by decide, by simp⟩
  before := fun c hc => by
    rw [List.mem_singleton.mp hc]
    cases x <;> decide
  after := by simp [smallFile]
  symoff := by cases x <;> decide
  nsyms := by cases x <;> decide
  stroff := by cases x <;> decide
  strsize := by cases x <;> decide
  symbols := fun s hs => by
    have : s = ⟨1, 0x0f, 1, 0, 0x1000⟩ ∨ s = ⟨4, 0x01, 0, 0, 0⟩ := by simpa [smallFile] using hs
    rcases this with rfl | rfl <;> cases x <;>
      exact ⟨by decide, by decide, by decide, by decide, by decide⟩
  entries := by cases x <;> decide
  strings := by cases x <;> decide
  disjoint := by cases x <;> decide

theorem smallFile_encodes (o : ByteOrder) (x : Bool) :
    (smallFile x).Encodes o x ((smallFile x).image o x) :=
  (smallFile_wf x).encodes (by cases x <;> rfl) (by cases x <;> rfl) (Nat.le_refl _)

end NmOtool.MachO
