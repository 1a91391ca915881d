import NmOtool.MachO.Encode

/-!
# Files with a text section

A `TextFile` is the description of a thin file whose first section `(__TEXT,__text)` is `text`, with
the contents of that section.
-/

namespace NmOtool.MachO

variable {m : Buffer} {x : Bool} {o : ByteOrder} {p i : Nat}

/-- Commands `before` and `after` the segment with the text section, sections `pre` and `post` around
it in the segment. -/
structure TextFile where
  cpu : List Nat
  flags : List Nat
  before : List Command
  segname : List UInt8
  extent : List Nat
  prot : List Nat
  segflags : Nat
  pre : List Section
  text : Section
  post : List Section
  after : List Command
  contents : List UInt8

namespace TextFile

def sections (f : TextFile) : List Section := f.pre ++ f.text :: f.post

def segment (f : TextFile) : Command := .segment f.segname f.extent f.prot f.segflags f.sections

def toDescription (f : TextFile) : Description where
  cpu := f.cpu
  flags := f.flags
  commands := f.before ++ f.segment :: f.after

/-- The position of the segment command. -/
def segmentAt (x : Bool) (f : TextFile) : Nat := headerSize x + areaSize x f.before

/-- The position of section header `i` of the segment. -/
def sectionAt (x : Bool) (f : TextFile) (i : Nat) : Nat :=
  f.segmentAt x + segmentSize x + i * sectionSize x

/-- The position of the header of the text section. -/
def textAt (x : Bool) (f : TextFile) : Nat := f.sectionAt x f.pre.length

/-- Where the load commands end. -/
def areaEnd (x : Bool) (f : TextFile) : Nat := headerSize x + areaSize x f.toDescription.commands

/-- The fields fit, no section before it is a text section, and the contents lie behind the load
commands. -/
structure Wf (x : Bool) (f : TextFile) : Prop where
  area : f.toDescription.Wf x
  before : ∀ c ∈ f.before, ∀ s ∈ c.sections, ¬ s.IsNamed SEG_TEXT SECT_TEXT
  pre : ∀ s ∈ f.pre, ¬ s.IsNamed SEG_TEXT SECT_TEXT
  text : f.text.IsNamed SEG_TEXT SECT_TEXT
  size : f.text.size = f.contents.length
  contents : f.contents = [] ∨ f.areaEnd x ≤ f.text.offset

/-- The image `m` is `f` laid out in the byte order `o`. -/
structure Encodes (o : ByteOrder) (x : Bool) (f : TextFile) (m : Buffer) : Prop where
  area : m.Holds 0 (f.toDescription.encode o x)
  contents : m.Holds f.text.offset f.contents

variable {f : TextFile}

theorem place_commands : place x (headerSize x) f.toDescription.commands =
    place x (headerSize x) f.before ++ (f.segmentAt x, f.segment) ::
      place x (f.segmentAt x + f.segment.size x) f.after := by
  rw [toDescription, place_append, place, segmentAt]

theorem segmentAt_le (x : Bool) (f : TextFile) :
    f.segmentAt x + f.segment.size x ≤ f.areaEnd x := by
  simp only [segmentAt, areaEnd, toDescription, areaSize, List.map_append, List.map_cons,
    List.sum_append, List.sum_cons]
  omega

theorem sectionAt_le (hi : i < f.sections.length) :
    f.sectionAt x i + sectionSize x ≤ f.segmentAt x + f.segment.size x := by
  have h : (i + 1) * sectionSize x ≤ f.sections.length * sectionSize x := Nat.mul_le_mul_right _ hi
  have hsize : f.segment.size x = segmentSize x + f.sections.length * sectionSize x := rfl
  rw [Nat.add_mul] at h
  unfold sectionAt
  omega

theorem text_lt (f : TextFile) : f.pre.length < f.sections.length := by simp [sections]

theorem getElem_text (h : f.pre.length < f.sections.length) : f.sections[f.pre.length] = f.text := by
  simp [sections]

theorem Wf.segment (h : f.Wf x) : f.segment.Wf x :=
  h.area.commands _ (by simp [toDescription])

theorem Wf.wfSection (h : f.Wf x) {s : Section} (hs : s ∈ f.sections) : s.Wf x := by
  obtain ⟨-, -, -, -, hsec⟩ := h.segment
  exact hsec s hs

theorem Wf.command (h : f.Wf x) (he : f.Encodes o x m) :
    ∀ pc ∈ place x (headerSize x) f.toDescription.commands,
      pc.2.Wf x ∧ m.Holds pc.1 (pc.2.encode o x) :=
  holds_place h.area.commands (Description.holds_area h.area he.area)

theorem Wf.holds_segment (h : f.Wf x) (he : f.Encodes o x m) :
    m.Holds (f.segmentAt x) (f.segment.encode o x) :=
  (h.command he (f.segmentAt x, f.segment) (by rw [place_commands]; simp)).2

theorem Wf.holds_before (h : f.Wf x) (he : f.Encodes o x m) :
    m.Holds (headerSize x) (encodeArea o x f.before) := by
  have := Description.holds_area h.area he.area
  rw [encodeArea, toDescription, List.flatMap_append] at this
  exact (Buffer.holds_append.mp this).1

theorem Wf.holds_section (h : f.Wf x) (he : f.Encodes o x m) (hi : i < f.sections.length) :
    m.Holds (f.sectionAt x i) (f.sections[i].encode o x) :=
  Command.holds_section h.segment (h.holds_segment he) hi

theorem Wf.holds_text (h : f.Wf x) (he : f.Encodes o x m) :
    m.Holds (f.textAt x) (f.text.encode o x) := by
  have := h.holds_section he f.text_lt
  rwa [getElem_text] at this

/-- Only the last of the sections up to the text section is one. -/
theorem Wf.isNamed_text (h : f.Wf x) (hi : i < f.sections.length) (hle : i ≤ f.pre.length) :
    f.sections[i].IsNamed SEG_TEXT SECT_TEXT ↔ i = f.pre.length := by
  rcases Nat.lt_or_eq_of_le hle with hlt | rfl
  · refine iff_of_false ?_ (Nat.ne_of_lt hlt)
    have : f.sections[i] = f.pre[i] := List.getElem_append_left hlt
    rw [this]
    exact h.pre _ (List.getElem_mem hlt)
  · rw [getElem_text]
    exact iff_of_true h.text rfl

/-! ### The contents behind the load commands -/

def bytes (o : ByteOrder) (x : Bool) (f : TextFile) : List UInt8 :=
  f.toDescription.encode o x ++ f.contents

def image (o : ByteOrder) (x : Bool) (f : TextFile) : Buffer :=
  .ofBytes (f.bytes o x).length (f.bytes o x)

theorem Wf.encodes (h : f.Wf x) (hat : f.text.offset = f.areaEnd x) :
    f.Encodes o x (f.image o x) := by
  have hm : (f.image o x).Holds 0 (f.bytes o x) := Buffer.holds_ofBytes (Nat.le_refl _)
  obtain ⟨harea, hcont⟩ := Buffer.holds_append.mp hm
  rw [Description.length_encode h.area, Nat.zero_add] at hcont
  exact ⟨harea, by rw [hat]; exact hcont⟩

end TextFile

/-- One segment with one section, of 18 bytes. -/
def smallText (x : Bool) : TextFile where
  cpu := [if x then CPU_TYPE_X86_64 else CPU_TYPE_I386, 3, 1]
  flags := if x then [0, 0] else [0]
  before := []
  segname := name16 []
  extent := [0, 0, 0, 0]
  prot := [7, 7]
  segflags := 0
  pre := []
  text := { sectname := name16 SECT_TEXT, segname := name16 SEG_TEXT, addr := 0x1000, size := 18,
            offset := if x then 184 else 152, tail := List.replicate (if x then 7 else 6) 0 }
  post := []
  after := []
  contents := List.replicate 17 0x90 ++ [0xc3]

theorem smallText_wf (x : Bool) : (smallText x).Wf x where
  area := by
    refine ⟨rfl, by cases x <;> rfl, by cases x <;> decide, fun c hc => ?_⟩
    rw [show c = (smallText x).segment by
      simpa [TextFile.toDescription, smallText] using hc]
    refine ⟨by cases x <;> decide, rfl, rfl, rfl, fun s hs => ?_⟩
    rw [show s = (smallText x).text by simpa [TextFile.sections, smallText] using hs]
    cases x <;> exact ⟨by decide, by decide, by decide, by decide, by decide, by decide⟩
  before := by simp [smallText]
  pre := by simp [smallText]
  text := by cases x <;> decide
  size := rfl
  contents := .inr (by cases x <;> decide)

theorem smallText_encodes (o : ByteOrder) (x : Bool) :
    (smallText x).Encodes o x ((smallText x).image o x) :=
  (smallText_wf x).encodes (by cases x <;> rfl)

end NmOtool.MachO
