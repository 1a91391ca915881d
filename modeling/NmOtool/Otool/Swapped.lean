import Mathlib.Data.List.TakeWhile
import NmOtool.Common.Swapped
import NmOtool.MachO.TextFile
import NmOtool.Otool.Host

/-!
# ft_otool: byte-swapped thin images

A run with `should_swap = 1` on the big-endian encoding of a file with a text section. Neither the
number of sections nor the words of the section header come out right: `swap_section` reverses bytes
of the two names. The contents are looked for at the byte-swapped file offset, and the byte-swapped
address is printed.
-/

namespace NmOtool.Otool

open MachO Checked

variable {m m' : Buffer} {x : Bool} {o : ByteOrder} {i n p lc : Nat} {f : TextFile}

/-! ## The host-order image -/

theorem isText_of_holds {s : Section} (h : s.Wf x) (hm : m.Holds p (s.encode o x)) :
    isText m p = decide (s.IsNamed SEG_TEXT SECT_TEXT) :=
  decide_eq_decide.mpr (Section.isNamed_iff h hm (by decide) (by decide))

theorem wfTextCommand_of_holds {c : Command} (h : c.Wf x) (hm : m.Holds p (c.encode .little x)) :
    WfTextCommand m x p := by
  refine ⟨wfCommand_of_holds h hm, fun hseg => ?_⟩
  cases c with
  | segment segname extent prot flags sections =>
    have hn : nsects m x p = sections.length := Command.read_nsects h hm
    have hsize : cmdsize m p = Command.size x (.segment segname extent prot flags sections) :=
      Command.read_cmdsize h hm
    rw [hn, hsize]
    exact Nat.le_refl _
  | other cmd payload =>
    have hcmd : MachO.cmd m p = cmd := Command.read_cmd h hm
    obtain ⟨-, -, h1, h2, -⟩ := h
    rw [IsSegment, hcmd] at hseg
    exact absurd hseg (not_or.mpr ⟨h1, h2⟩)

/-- No segment in front of that of the text section has a section of the name. -/
theorem find_text_before (hf : f.Wf x) (he : f.Encodes .little x m) :
    (((place x (headerSize x) f.before).map Prod.fst).flatMap (sectionsAt m x)).find? (isText m) =
      none := by
  refine List.find?_eq_none.mpr fun a ha => ?_
  obtain ⟨lc, hlc, ha⟩ := List.mem_flatMap.mp ha
  obtain ⟨⟨q, c⟩, hpc, rfl⟩ := List.mem_map.mp hlc
  obtain ⟨hc, hh⟩ := hf.command he (q, c) (by
    rw [f.place_commands]
    exact List.mem_append_left _ hpc)
  rw [sectionsAt_of_holds hc hh] at ha
  obtain ⟨k, hk, rfl⟩ := List.mem_map.mp ha
  rw [List.mem_range] at hk
  cases c with
  | segment segname extent prot flags sections =>
    obtain ⟨-, -, -, -, hs⟩ := id hc
    rw [isText_of_holds (hs _ (List.getElem_mem hk)) (Command.holds_section hc hh hk),
      decide_eq_true_eq]
    exact hf.before _ (mem_of_mem_place hpc) _ (List.getElem_mem hk)
  | other cmd payload => exact absurd hk (Nat.not_lt_zero k)

/-- The text section is the first of its segment with the name. -/
theorem find_text_segment (hf : f.Wf x) (he : f.Encodes .little x m) :
    (sectionsAt m x (f.segmentAt x)).find? (isText m) = some (f.textAt x) := by
  have hat : sectionsAt m x (f.segmentAt x) =
      (List.range f.sections.length).map (f.sectionAt x) :=
    sectionsAt_of_holds hf.segment (hf.holds_segment he)
  have htext : ∀ i (hi : i < f.sections.length), i ≤ f.pre.length →
      (isText m (f.sectionAt x i) = true ↔ i = f.pre.length) := by
    intro i hi hle
    rw [isText_of_holds (hf.wfSection (List.getElem_mem hi)) (hf.holds_section he hi),
      decide_eq_true_eq, hf.isNamed_text hi hle]
  have hlt := f.text_lt
  rw [hat, List.find?_eq_some_iff_getElem]
  refine ⟨(htext _ hlt (Nat.le_refl _)).mpr rfl, f.pre.length, by simpa using hlt,
    by simp [TextFile.textAt], fun j hj => ?_⟩
  have hne := (htext j (by omega) (Nat.le_of_lt hj)).not.mpr (Nat.ne_of_lt hj)
  simpa using hne

/-- The host-order encoding of a file with a text section is a well-formed image. -/
theorem wfText_of_encodes (hf : f.Wf x) (he : f.Encodes .little x m) :
    WfText m x 0 (f.textAt x) := by
  have harea := he.area
  obtain ⟨haddr, hsize, hoff⟩ : secAddr m x (f.textAt x) = f.text.addr ∧
      secSize m x (f.textAt x) = f.text.size ∧ secOffset m x (f.textAt x) = f.text.offset :=
    Section.read_words (hf.wfSection (by simp [TextFile.sections])) (hf.holds_text he)
  refine ⟨?_, ?_, ?_, ?_⟩
  · rw [Description.commands_eq hf.area harea]
    intro lc hlc
    obtain ⟨pc, hpc, rfl⟩ := List.mem_map.mp hlc
    obtain ⟨hc, hh⟩ := hf.command he pc hpc
    exact wfTextCommand_of_holds hc hh
  · rw [sections, Description.commands_eq hf.area harea, f.place_commands, List.map_append,
      List.flatMap_append, List.find?_append, find_text_before hf he, Option.none_or,
      List.map_cons, List.flatMap_cons, List.find?_append, find_text_segment hf he]
    rfl
  · rw [hoff, hsize, hf.size, Nat.zero_add]
    exact he.contents.1
  · rw [hoff, hsize, hf.size, Nat.zero_add]
    intro q h1 h2
    have hle := TextFile.segmentAt_le x f
    have hsec := TextFile.sectionAt_le (x := x) f.text_lt
    unfold TextFile.textAt
    rcases hf.contents with h0 | hbehind
    · rw [h0, List.length_nil] at h1
      omega
    · omega

/-! ## The search -/

/-- The headers of a segment up to the first that is called as the text section, number `n`. -/
theorem textInSegFrom_found {k nb : Nat} (hlt : n * sectionSize x < 2 ^ 32)
    (hin : lc + segmentSize x + n * sectionSize x + sectionSize x ≤ m.size)
    (htext : ∀ j ≤ n, isText m (lc + segmentSize x + j * sectionSize x) = decide (j = n))
    (hi : i + k = n) (hnb : k < nb) :
    textInSegFrom m lc x nb i = .ok (if lc + segmentSize x + n * sectionSize x ≤ mapSize m then
      some (lc + segmentSize x + n * sectionSize x) else none) := by
  induction k generalizing i nb with
  | zero =>
    obtain ⟨nb, rfl⟩ := Nat.exists_eq_add_of_lt hnb
    obtain rfl : i = n := hi
    rw [Nat.zero_add, textInSegFrom, u32_natCast hlt]
    simp only [isSafe_natCast]
    split_ifs
    · rw [isNamed_text hin, ok_bind, htext i (Nat.le_refl _), if_pos (by simp)]
      rfl
    · rfl
  | succ k ih =>
    obtain ⟨nb, rfl⟩ : ∃ b, nb = b + 1 := ⟨nb - 1, by omega⟩
    have hle : (i + 1) * sectionSize x ≤ n * sectionSize x := Nat.mul_le_mul_right _ (by omega)
    rw [Nat.add_mul, Nat.one_mul] at hle
    rw [textInSegFrom, u32_natCast (by omega)]
    simp only [isSafe_natCast]
    by_cases hs : lc + segmentSize x + i * sectionSize x ≤ mapSize m
    · rw [if_pos hs, isNamed_text (x := x) (by omega), ok_bind, htext i (by omega),
        if_neg (by simp; omega)]
      exact ih (by omega) (by omega)
    · rw [if_neg hs, if_neg (by omega)]
      rfl

/-- None of the headers in front of number `n` is called as the text section. -/
theorem textInSegFrom_none {nb : Nat} (hlt : n * sectionSize x < 2 ^ 32)
    (hin : lc + segmentSize x + n * sectionSize x ≤ m.size)
    (htext : ∀ j < n, isText m (lc + segmentSize x + j * sectionSize x) = false)
    (hle : i + nb ≤ n) : textInSegFrom m lc x nb i = .ok none := by
  induction nb generalizing i with
  | zero => rfl
  | succ nb ih =>
    have hmul : (i + 1) * sectionSize x ≤ n * sectionSize x := Nat.mul_le_mul_right _ (by omega)
    rw [Nat.add_mul, Nat.one_mul] at hmul
    rw [textInSegFrom, u32_natCast (by omega)]
    simp only [isSafe_natCast]
    split_ifs
    · rw [isNamed_text (x := x) (by omega), ok_bind, htext i (by omega),
        if_neg Bool.false_ne_true]
      exact ih (by omega)
    · rfl

/-- A segment of the big-endian image. Its sections are read where they are, but their number is
byte-swapped. -/
theorem getTextSectionFrom_segment {c : Command} (hc : c.Wf x) (hm : m.Holds p (c.encode .big x))
    (hcmd : c.cmd x = segmentCmd x) (hp : p ≤ mapSize m) :
    ∃ m₁, m.AgreeOn (fun q => q < p ∨ p + nsectsOffset x ≤ q) m₁ ∧
      getTextSectionFrom true x (n + 1) p m =
        if p + segmentSize x ≤ mapSize m then
          (textInSegFrom m₁ p x (byteSwap 4 c.sections.length) 0).bind fun res =>
            if res.isSome then .ok (res, m₁)
            else getTextSectionFrom true x n (p + c.size x) m₁
        else .ok (none, commandImage true m p) := by
  have h48 := le_nsectsOffset x
  have hoff := nsectsOffset_lt x
  have hmap := mapSize_le m
  have hin := hm.1
  rw [Command.length_encode hc] at hin
  have hsize := Command.size_ge x c
  obtain ⟨h1, h2⟩ := read_commandImage hc hm
  have hcommand : m.AgreeOn (fun q => q < p ∨ p + 8 ≤ q) (commandImage true m p) :=
    agreeOn_commandImage
  refine ⟨segmentImage true x (commandImage true m p) p, (hcommand.mono fun q hq => by omega).trans
    (agreeOn_segmentImage.mono fun q hq => by omega), ?_⟩
  have hseg : IsSegment (commandImage true m p) p := by
    rw [IsSegment, h1, hcmd]
    cases x
    · exact .inl rfl
    · exact .inr rfl
  rw [getTextSectionFrom_succ hp (by omega), if_pos hseg, h2]
  by_cases hss : p + segmentSize x ≤ mapSize m
  · rw [if_pos hss, if_pos hss, textInSeg, Buffer.field_ok (by simp; omega), ok_bind]
    cases c with
    | segment segname extent prot flags sections =>
      have hn : (segmentImage true x (commandImage true m p) p).le 4 (p + nsectsOffset x) =
          byteSwap 4 sections.length := read_segmentImage hc hm
      rw [hn]
      rfl
    | other cmd payload =>
      obtain ⟨-, -, h1, h2, -⟩ := hc
      change cmd = segmentCmd x at hcmd
      rw [hcmd] at h1 h2
      cases x
      · exact absurd rfl h1
      · exact absurd rfl h2
  · rw [if_neg hss, if_neg hss]

/-- A command without sections: the walk goes on behind it, or ends as it is out of reach. -/
theorem getTextSectionFrom_plain {c : Command} (hc : c.Wf x) (hnil : c.sections = [])
    (hm : m.Holds p (c.encode .big x)) (hp : p ≤ mapSize m) :
    ∃ m₁, m.AgreeOn (fun q => q < p ∨ p + c.size x ≤ q) m₁ ∧
      (getTextSectionFrom true x (n + 1) p m = getTextSectionFrom true x n (p + c.size x) m₁ ∨
        ¬ p + c.size x ≤ mapSize m ∧
          ∃ m₂, getTextSectionFrom true x (n + 1) p m = .ok (none, m₂)) := by
  have hoff := nsectsOffset_lt x
  have hin := hm.1
  rw [Command.length_encode hc] at hin
  have h8 := Command.size_ge x c
  cases c with
  | segment segname extent prot flags sections =>
    obtain ⟨m₁, h1, h2⟩ := getTextSectionFrom_segment (n := n) hc hm rfl hp
    have hle : segmentSize x ≤ Command.size x (.segment segname extent prot flags sections) :=
      Nat.le_add_right _ _
    refine ⟨m₁, h1.mono fun q hq => by omega, ?_⟩
    rw [h2, hnil, List.length_nil, byteSwap_zero]
    by_cases hss : p + segmentSize x ≤ mapSize m
    · rw [if_pos hss]
      exact .inl rfl
    · rw [if_neg hss]
      exact .inr ⟨by omega, _, rfl⟩
  | other cmd payload =>
    obtain ⟨h1, h2⟩ := read_commandImage hc hm
    have hno : ¬ IsSegment (commandImage true m p) p := by
      obtain ⟨-, -, hne1, hne2, -⟩ := hc
      rw [IsSegment, h1]
      exact not_or.mpr ⟨hne1, hne2⟩
    refine ⟨commandImage true m p, agreeOn_commandImage.mono fun q hq => by omega, .inl ?_⟩
    rw [getTextSectionFrom_succ hp (by omega), if_neg hno, h2]

theorem getTextSectionFrom_stop {s : Bool} (hp : ¬ p ≤ mapSize m) :
    getTextSectionFrom s x n p m = .ok (none, m) := by
  cases n with
  | zero => rfl
  | succ n =>
    rw [getTextSectionFrom, if_neg fun hs => hp ((isSafe_natCast m _).mp hs)]
    rfl

theorem getTextSectionFrom_before {cs : List Command}
    (hcs : ∀ c ∈ cs, c.Wf x ∧ c.sections = []) (hm : m.Holds p (encodeArea .big x cs)) :
    ∃ m₁, m.AgreeOn (fun q => q < p ∨ p + areaSize x cs ≤ q) m₁ ∧
      (getTextSectionFrom true x (cs.length + n) p m =
          getTextSectionFrom true x n (p + areaSize x cs) m₁ ∨
        ¬ p + areaSize x cs ≤ mapSize m ∧
          ∃ m₂, getTextSectionFrom true x (cs.length + n) p m = .ok (none, m₂)) := by
  induction cs generalizing p m with
  | nil =>
    refine ⟨m, .refl, .inl ?_⟩
    rw [List.length_nil, Nat.zero_add]
    rfl
  | cons c cs ih =>
    obtain ⟨hc, hnil⟩ := hcs c List.mem_cons_self
    rw [encodeArea, List.flatMap_cons, Buffer.holds_append, Command.length_encode hc] at hm
    obtain ⟨hhead, htail⟩ := hm
    have harea : p + areaSize x (c :: cs) = p + c.size x + areaSize x cs := by
      simp [areaSize, Nat.add_assoc]
    rw [harea, List.length_cons, Nat.succ_add]
    by_cases hp : p ≤ mapSize m
    · obtain ⟨m₁, h1, hstep⟩ := getTextSectionFrom_plain (n := cs.length + n) hc hnil hhead hp
      obtain ⟨m₂, h2, hrest⟩ := ih (fun c hc => hcs c (List.mem_cons_of_mem _ hc))
        (h1.holds (fun k _ => .inr (by omega)) htail)
      have hmap : mapSize m₁ = mapSize m := by rw [mapSize, h1.size, mapSize]
      refine ⟨m₂, (h1.mono fun q hq => by omega).trans (h2.mono fun q hq => by omega), ?_⟩
      rcases hstep with hstep | ⟨hout, hnone⟩
      · rw [hstep, ← hmap]
        exact hrest
      · exact .inr ⟨by omega, hnone⟩
    · exact ⟨m, .refl, .inr ⟨by omega, m, getTextSectionFrom_stop hp⟩⟩

/-- The walk over commands without sections comes to the segment `c` behind them, unless that is out
of reach. -/
theorem getTextSectionFrom_atSegment {cs rest : List Command} {c : Command}
    (hcs : ∀ c ∈ cs, c.Wf x ∧ c.sections = []) (hc : c.Wf x) (hcmd : c.cmd x = segmentCmd x)
    (hm : m.Holds p (encodeArea .big x (cs ++ c :: rest))) :
    ∃ m₁, m.AgreeOn (fun q => p + areaSize x cs + nsectsOffset x ≤ q) m₁ ∧
      (p + areaSize x cs + segmentSize x ≤ mapSize m →
        getTextSectionFrom true x (cs.length + (rest.length + 1)) p m =
          (textInSegFrom m₁ (p + areaSize x cs) x (byteSwap 4 c.sections.length) 0).bind fun res =>
            if res.isSome then .ok (res, m₁)
            else getTextSectionFrom true x rest.length (p + areaSize x cs + c.size x) m₁) ∧
      (¬ p + areaSize x cs + segmentSize x ≤ mapSize m →
        ∃ m₂, getTextSectionFrom true x (cs.length + (rest.length + 1)) p m = .ok (none, m₂)) := by
  rw [encodeArea, List.flatMap_append, List.flatMap_cons, Buffer.holds_append,
    Buffer.holds_append] at hm
  obtain ⟨hbefore, hseg, -⟩ := hm
  have hlen : (cs.flatMap (Command.encode .big x)).length = areaSize x cs :=
    length_encodeArea fun c hmem => (hcs c hmem).1
  rw [hlen] at hseg
  obtain ⟨m₁, h1, hwalk⟩ := getTextSectionFrom_before (n := rest.length + 1) hcs hbefore
  have hmap₁ : mapSize m₁ = mapSize m := by rw [mapSize, h1.size, mapSize]
  rcases hwalk with hwalk | ⟨hout, hnone⟩
  swap
  · exact ⟨m, .refl, fun h => absurd h (by omega), fun _ => hnone⟩
  by_cases hreach : p + areaSize x cs ≤ mapSize m
  swap
  · refine ⟨m, .refl, fun h => absurd h (by omega), fun _ => ⟨m₁, ?_⟩⟩
    rw [hwalk]
    exact getTextSectionFrom_stop (hmap₁ ▸ hreach)
  obtain ⟨m₂, h2, hrun⟩ := getTextSectionFrom_segment (n := rest.length) hc
    (h1.holds (fun k _ => .inr (Nat.le_add_right _ _)) hseg) hcmd (hmap₁ ▸ hreach)
  rw [hmap₁] at hrun
  refine ⟨m₂, (h1.mono fun q hq => .inr (by omega)).trans (h2.mono fun q hq => .inr hq),
    fun h => ?_, fun h => ?_⟩
  · rw [hwalk, hrun, if_pos h]
  · rw [hwalk, hrun, if_neg h]
    exact ⟨_, rfl⟩

/-- The search comes to the text section: no segment before it has sections, and the byte-swapped
number of sections covers it. -/
structure Comes (f : TextFile) : Prop where
  before : ∀ c ∈ f.before, c.sections = []
  index : f.pre.length < byteSwap 4 f.sections.length

/-- A check ends the search: at the first segment with sections, or, where no segment before it has
sections, at the header of the text section. -/
def EndsEarly (m : Buffer) (x : Bool) (f : TextFile) : Prop :=
  ¬ headerSize x + areaSize x (f.toDescription.commands.takeWhile (·.sections.isEmpty)) +
      segmentSize x ≤ mapSize m ∨
    (∀ c ∈ f.before, c.sections = []) ∧ ¬ f.textAt x + sectionSize x ≤ mapSize m

/-- The first segment with sections is not behind that of the text section. -/
theorem firstSegment_le (x : Bool) (f : TextFile) :
    areaSize x (f.toDescription.commands.takeWhile (·.sections.isEmpty)) ≤ areaSize x f.before := by
  have hseg : f.segment.sections.isEmpty = false := by
    rw [List.isEmpty_eq_false_iff]
    exact List.append_ne_nil_of_right_ne_nil _ (List.cons_ne_nil _ _)
  rw [TextFile.toDescription, List.takeWhile_append, List.takeWhile_cons, hseg]
  split
  · simp
  · have hsplit := congrArg (areaSize x)
      (@List.takeWhile_append_dropWhile _ (fun c : Command => c.sections.isEmpty) f.before)
    rw [areaSize, List.map_append, List.sum_append] at hsplit
    exact hsplit ▸ Nat.le_add_right _ _

theorem EndsEarly.out (h : EndsEarly m x f) : ¬ f.textAt x + sectionSize x ≤ mapSize m := by
  rcases h with h | ⟨-, hout⟩
  · have hfirst := firstSegment_le x f
    unfold TextFile.textAt TextFile.sectionAt TextFile.segmentAt
    omega
  · exact hout

/-- There is a first segment with sections. -/
theorem exists_firstSegment (f : TextFile) : ∃ cs c rest,
    (f.toDescription.commands.takeWhile (·.sections.isEmpty) = cs ∧
      f.toDescription.commands = cs ++ c :: rest) ∧
    (∀ c ∈ cs, c.sections = []) ∧ c.sections ≠ [] := by
  have hmem : f.segment ∈ f.toDescription.commands := by simp [TextFile.toDescription]
  have hne : f.toDescription.commands.dropWhile (·.sections.isEmpty) ≠ [] := by
    intro hnil
    have hall := List.dropWhile_eq_nil_iff.mp hnil f.segment hmem
    exact List.append_ne_nil_of_right_ne_nil _ (List.cons_ne_nil _ _) (List.isEmpty_iff.mp hall)
  obtain ⟨c, rest, hdrop⟩ := List.exists_cons_of_ne_nil hne
  have hsplit := @List.takeWhile_append_dropWhile _ (fun c : Command => c.sections.isEmpty)
    f.toDescription.commands
  rw [hdrop] at hsplit
  refine ⟨_, c, rest, ⟨rfl, hsplit.symm⟩, fun c hc => ?_, ?_⟩
  · have hempty : c.sections.isEmpty := @List.mem_takeWhile_imp _ _ _ c hc
    exact List.isEmpty_iff.mp hempty
  · have hhead := List.head_dropWhile_not (fun c : Command => c.sections.isEmpty) hne
    simpa [hdrop] using hhead

section
variable (hf : f.Wf x) (he : f.Encodes .big x m)
include hf he

theorem holds_headerImage :
    (headerImage true m 0).Holds (headerSize x) (encodeArea .big x f.toDescription.commands) := by
  have hhs := le_headerSize x
  have hhead : m.AgreeOn (fun q => q < 16 ∨ 20 ≤ q) (headerImage true m 0) := by
    simpa using agreeOn_headerImage (s := true) (m := m) (p := 0)
  exact hhead.holds (fun k _ => .inr (by omega)) (Description.holds_area hf.area he.area)

/-- Where no segment before it has sections, the search comes to the segment of the text section. -/
theorem getTextSectionFrom_segmentAt (hbefore : ∀ c ∈ f.before, c.sections = []) :
    ∃ m₁, m.AgreeOn (fun q => f.segmentAt x + nsectsOffset x ≤ q) m₁ ∧
      (f.segmentAt x + segmentSize x ≤ mapSize m →
        getTextSectionFrom true x f.toDescription.commands.length (headerSize x)
            (headerImage true m 0) =
          (textInSegFrom m₁ (f.segmentAt x) x (byteSwap 4 f.segment.sections.length) 0).bind
            fun res => if res.isSome then .ok (res, m₁) else
              getTextSectionFrom true x f.after.length (f.segmentAt x + f.segment.size x) m₁) ∧
      (¬ f.segmentAt x + segmentSize x ≤ mapSize m →
        ∃ m₂, getTextSectionFrom true x f.toDescription.commands.length (headerSize x)
          (headerImage true m 0) = .ok (none, m₂)) := by
  have hhs := le_headerSize x
  have hsegat : headerSize x ≤ f.segmentAt x := Nat.le_add_right _ _
  have hlen : f.toDescription.commands.length = f.before.length + (f.after.length + 1) := by
    simp [TextFile.toDescription]
  have hhead : m.AgreeOn (fun q => q < 16 ∨ 20 ≤ q) (headerImage true m 0) := by
    simpa using agreeOn_headerImage (s := true) (m := m) (p := 0)
  obtain ⟨m₁, h1, hin, hout⟩ := getTextSectionFrom_atSegment
    (fun c hmem => ⟨hf.area.commands c (List.mem_append_left _ hmem), hbefore c hmem⟩)
    hf.segment rfl (holds_headerImage hf he)
  rw [← TextFile.segmentAt, mapSize_headerImage, ← hlen] at hin hout
  exact ⟨m₁, (hhead.mono fun q hq => .inr (by omega)).trans h1, hin, hout⟩

/-- Up to the text section the names have not changed. -/
theorem isText_sectionAt (hm : m.AgreeOn (fun q => f.segmentAt x + nsectsOffset x ≤ q) m₁)
    (hi : i ≤ f.pre.length) : isText m₁ (f.sectionAt x i) = decide (i = f.pre.length) := by
  have hoff := nsectsOffset_lt x
  have hlt : i < f.sections.length := Nat.lt_of_le_of_lt hi f.text_lt
  have hhold : m₁.Holds (f.sectionAt x i) (f.sections[i].encode .big x) := by
    refine hm.holds (fun k _ => ?_) (hf.holds_section he hlt)
    unfold TextFile.sectionAt
    omega
  rw [isText_of_holds (hf.wfSection (List.getElem_mem hlt)) hhold, decide_eq_decide]
  exact hf.isNamed_text hlt hi

omit he in
theorem pre_size_lt : f.pre.length * sectionSize x < 2 ^ 32 := by
  have hlast := TextFile.sectionAt_le (x := x) f.text_lt
  have hlt := hf.segment.1
  unfold TextFile.sectionAt at hlast
  omega

theorem textAt_le : f.textAt x + sectionSize x ≤ m.size := by
  have hin := (hf.holds_text he).1
  rwa [Section.length_encode (hf.wfSection (by simp [TextFile.sections]))] at hin

theorem getTextSectionFrom_unreached
    (h : ¬ headerSize x + areaSize x (f.toDescription.commands.takeWhile (·.sections.isEmpty)) +
      segmentSize x ≤ mapSize m) :
    ∃ m₁, getTextSectionFrom true x f.toDescription.commands.length (headerSize x)
      (headerImage true m 0) = .ok (none, m₁) := by
  obtain ⟨cs, c, rest, ⟨hfirst, hsplit⟩, hcs, hne⟩ := exists_firstSegment f
  rw [hfirst] at h
  have hwf : ∀ c' ∈ cs ++ c :: rest, c'.Wf x := fun c' hc' => hf.area.commands c' (hsplit ▸ hc')
  have hcmd : c.cmd x = segmentCmd x := by
    cases c with
    | segment segname extent prot flags sections => rfl
    | other cmd payload => exact absurd rfl hne
  have hm := holds_headerImage hf he
  rw [hsplit] at hm
  obtain ⟨m₁, -, -, hnone⟩ := getTextSectionFrom_atSegment
    (fun c' hc' => ⟨hwf c' (List.mem_append_left _ hc'), hcs c' hc'⟩) (hwf c (by simp)) hcmd hm
  rw [mapSize_headerImage] at hnone
  rw [hsplit, List.length_append, List.length_cons]
  exact hnone h

/-- The byte-swapped number of sections does not cover the text section, and what lies behind its
segment is out of reach. -/
theorem getTextSectionFrom_uncovered (hbefore : ∀ c ∈ f.before, c.sections = [])
    (hindex : byteSwap 4 f.sections.length ≤ f.pre.length)
    (hout : ¬ f.textAt x + sectionSize x ≤ mapSize m) :
    ∃ m₁, getTextSectionFrom true x f.toDescription.commands.length (headerSize x)
      (headerImage true m 0) = .ok (none, m₁) := by
  obtain ⟨m₁, h1, hin, hnone⟩ := getTextSectionFrom_segmentAt hf he hbefore
  by_cases hss : f.segmentAt x + segmentSize x ≤ mapSize m
  swap
  · exact hnone hss
  have hscan : textInSegFrom m₁ (f.segmentAt x) x (byteSwap 4 f.segment.sections.length) 0 =
      .ok none := by
    refine textInSegFrom_none (pre_size_lt hf) ?_ (fun j hj => ?_) ((Nat.zero_add _).trans_le hindex)
    · have hle := textAt_le hf he
      rw [h1.size]
      unfold TextFile.textAt TextFile.sectionAt at hle
      omega
    · rw [← TextFile.sectionAt, isText_sectionAt hf he h1 (Nat.le_of_lt hj)]
      exact decide_eq_false (Nat.ne_of_lt hj)
  have hlast := TextFile.sectionAt_le (x := x) f.text_lt
  rw [hin hss, hscan]
  refine ⟨m₁, getTextSectionFrom_stop ?_⟩
  rw [mapSize, h1.size, ← mapSize]
  unfold TextFile.textAt at hout
  omega

theorem handleNotFat_search (hlc : isLcSafe m 0 x) : handleNotFat m x true 0 =
    getTextSectionFrom true x f.toDescription.commands.length (headerSize x)
      (headerImage true m 0) >>= fun r => putTextSection r.2 r.1 true x 0 >>= fun r =>
        .ok (0, r.2.1, r.2.2) := by
  have hn := read_headerImage hf.area he.area
  rw [handleNotFat, if_pos ((isSafe_natCast m 0).mpr (Nat.zero_le _)), getLc_ok hlc, ok_bind]
  simp only [getTextSection]
  rw [show (headerImage true m 0).le 4 (0 + 16) = _ from hn, Nat.zero_add]
  rfl

/-- A search that finds nothing, or only a header that is out of reach, prints nothing. -/
theorem handleNotFat_nothing {res : Option Nat} {m₁ : Buffer}
    (hsearch : getTextSectionFrom true x f.toDescription.commands.length (headerSize x)
      (headerImage true m 0) = .ok (res, m₁))
    (hres : ∀ sec, res = some sec → ¬ sec + sectionSize x ≤ mapSize m₁) :
    ∃ ret m₂, handleNotFat m x true 0 = .ok (ret, [], m₂) := by
  by_cases hlc : isLcSafe m 0 x
  · rw [handleNotFat_search hf he hlc, hsearch, ok_bind]
    cases res with
    | none => exact ⟨0, m₁, rfl⟩
    | some sec =>
      rw [putTextSection, if_neg fun h => hres sec rfl ((isSafe_natCast m₁ _).mp h)]
      exact ⟨0, m₁, rfl⟩
  · rw [handleNotFat, if_pos ((isSafe_natCast m 0).mpr (Nat.zero_le _)), getLc_none hlc]
    exact ⟨-1, m, rfl⟩

end

section
variable (hf : f.Wf x) (he : f.Encodes .big x m) (hc : Comes f)
include hf he hc

/-- The scan of the segment finds the text section, whose header has not changed. -/
theorem textInSegFrom_comes (hm : m.AgreeOn (fun q => f.segmentAt x + nsectsOffset x ≤ q) m₁) :
    textInSegFrom m₁ (f.segmentAt x) x (byteSwap 4 f.segment.sections.length) 0 =
      .ok (if f.textAt x ≤ mapSize m then some (f.textAt x) else none) := by
  rw [show mapSize m = mapSize m₁ by rw [mapSize, mapSize, hm.size]]
  refine textInSegFrom_found (pre_size_lt hf) ?_ (fun j hj => ?_) (Nat.zero_add _) hc.index
  · rw [hm.size]
    exact textAt_le hf he
  · exact isText_sectionAt hf he hm hj

/-- The walk ends at the text section, unless that is out of reach. -/
theorem getTextSectionFrom_comes :
    ∃ m₁, m.AgreeOn (fun q => f.textAt x ≤ q) m₁ ∧
      (f.textAt x ≤ mapSize m → getTextSectionFrom true x f.toDescription.commands.length
        (headerSize x) (headerImage true m 0) = .ok (some (f.textAt x), m₁)) ∧
      (¬ f.textAt x ≤ mapSize m → ∃ m₂, getTextSectionFrom true x f.toDescription.commands.length
        (headerSize x) (headerImage true m 0) = .ok (none, m₂)) := by
  have hoff := nsectsOffset_lt x
  have htextat : f.segmentAt x + segmentSize x ≤ f.textAt x := Nat.le_add_right _ _
  have hseclast := TextFile.sectionAt_le (x := x) f.text_lt
  rw [← TextFile.textAt] at hseclast
  obtain ⟨m₁, h1, hin, hout⟩ := getTextSectionFrom_segmentAt hf he hc.before
  have hmap₁ : mapSize m₁ = mapSize m := by rw [mapSize, h1.size, mapSize]
  have hscan := textInSegFrom_comes hf he hc h1
  refine ⟨m₁, h1.mono fun q hq => by omega, fun h => ?_, fun h => ?_⟩
  · rw [hin (by omega), hscan, if_pos h]
    rfl
  · by_cases hss : f.segmentAt x + segmentSize x ≤ mapSize m
    · rw [hin hss, hscan, if_neg h]
      exact ⟨m₁, getTextSectionFrom_stop (by omega)⟩
    · exact hout hss

/-- The swapped run dumps at the byte-swapped words, if `g_map_size` reaches the end of the section
header, and prints nothing if not. -/
theorem handleNotFat_comes :
    ∃ m₁, m.AgreeOn (fun q => f.textAt x + 24 ≤ q) m₁ ∧
      (f.textAt x + sectionSize x ≤ mapSize m → handleNotFat m x true 0 =
        (dumpSection m₁ (f.textAt x + 32) x
          ⟨byteSwap (wordSize x) f.text.size, byteSwap 4 f.text.offset⟩ 0 >>=
            fun r => .ok (0, heading ++ r.2.1, r.2.2))) ∧
      (¬ f.textAt x + sectionSize x ≤ mapSize m →
        ∃ ret m₂, handleNotFat m x true 0 = .ok (ret, [], m₂)) := by
  have hwords := words_le_sectionSize x
  have hmap := mapSize_le m
  obtain ⟨m₁, h1, hfound, hnone⟩ := getTextSectionFrom_comes hf he hc
  refine ⟨sectionImage true x m₁ (f.textAt x), (h1.mono fun q hq => by omega).trans
    (agreeOn_sectionImage.mono fun q hq => .inr hq), fun hin => ?_, fun hout => ?_⟩
  · have hlc : isLcSafe m 0 x := (isLcSafe_iff m 0 x).mpr (by split <;> omega)
    have hsec : swapSection m₁ (f.textAt x) x = .ok (sectionImage true x m₁ (f.textAt x)) :=
      swapSection_ok (by rw [h1.size]; split <;> omega)
    have hagree : m.AgreeOn (fun q => f.textAt x + 24 ≤ q)
        (sectionImage true x m₁ (f.textAt x)) :=
      (h1.mono fun q hq => by omega).trans (agreeOn_sectionImage.mono fun q hq => .inr hq)
    obtain ⟨-, hsize, hoff⟩ := Section.read_words
      (hf.wfSection (s := f.text) (by simp [TextFile.sections])) (hf.holds_text he)
    rw [handleNotFat_search hf he hlc, hfound (by omega), ok_bind, putTextSection,
      if_pos ((isSafe_natCast m₁ _).mpr (by rw [mapSize, h1.size, ← mapSize]; exact hin))]
    simp only [if_true]
    rw [hsec, ok_bind, Buffer.field_ok (by rw [hagree.size]; omega), ok_bind,
      Buffer.field_ok (by rw [hagree.size]; omega), ok_bind,
      hagree.le fun k _ => by omega, hagree.le fun k _ => by omega,
      show m.le (wordSize x) (f.textAt x + 32 + wordSize x) = _ from hsize,
      show m.le 4 (f.textAt x + 32 + 2 * wordSize x) = _ from hoff, bind_assoc]
    rfl
  · by_cases hreach : f.textAt x ≤ mapSize m
    · refine handleNotFat_nothing hf he (hfound hreach) fun sec hsec => ?_
      cases hsec
      rw [mapSize, h1.size, ← mapSize]
      exact hout
    · obtain ⟨m₂, hm₂⟩ := hnone hreach
      exact handleNotFat_nothing hf he hm₂ fun sec h => absurd h.symm (Option.some_ne_none sec)

end

/-! ## The two dumps -/

/-- The two runs print the same lines: below the heading, as one of them may print nothing. -/
def SameDump (m m' : Buffer) (x : Bool) : Prop :=
  ∃ r r', handleNotFat m x false 0 = .ok r ∧ handleNotFat m' x true 0 = .ok r' ∧
    r.2.1.drop heading.length = r'.2.1.drop heading.length

/-- The byte-swapped address and size are the right ones, and the byte-swapped file offset leads to
a copy of the contents behind the load commands. -/
structure Palindromic (m' : Buffer) (x : Bool) (f : TextFile) : Prop where
  apart : f.areaEnd x ≤ byteSwap 4 f.text.offset
  addr : byteSwap (wordSize x) f.text.addr = f.text.addr
  size : byteSwap (wordSize x) f.text.size = f.text.size
  copy : m'.Holds (byteSwap 4 f.text.offset) f.contents

/-- There is nothing to print, or the words read without a swap print it. -/
def Unaffected (m m' : Buffer) (x : Bool) (f : TextFile) : Prop :=
  ¬ f.textAt x + sectionSize x ≤ mapSize m ∨ f.contents = [] ∨
    Palindromic m' x f ∧ Reaches m f.text.offset f.text.size ∧
      Reaches m (byteSwap 4 f.text.offset) f.text.size

theorem words_host (hf : f.Wf x) (hl : f.Encodes .little x m) :
    secAddr m x (f.textAt x) = f.text.addr ∧ secSize m x (f.textAt x) = f.text.size ∧
      secOffset m x (f.textAt x) = f.text.offset :=
  Section.read_words (hf.wfSection (by simp [TextFile.sections])) (hf.holds_text hl)

/-- What the host-order run prints. -/
theorem handleNotFat_little (hf : f.Wf x) (hl : f.Encodes .little x m)
    (hin : f.textAt x + sectionSize x ≤ mapSize m)
    (hr : f.contents = [] ∨ Reaches m f.text.offset f.text.size) :
    ∃ m₁, handleNotFat m x false 0 = .ok (0, heading ++
      dumpText m (wordSize x) f.text.addr f.text.offset f.text.size, m₁) := by
  obtain ⟨h1, h2, h3⟩ := words_host hf hl
  obtain ⟨n, m₁, hrun, hle, hiff⟩ := handleNotFat_dumped (wfText_of_encodes hf hl) hin
  simp only [h1, h2, h3, Nat.zero_add] at hrun hle hiff
  have hn : n = lineCount f.text.size := by
    refine hiff.mpr (hr.elim (fun h0 => .inl ?_) id)
    rw [hf.size, h0, List.length_nil]
  exact ⟨m₁, by rw [hrun, hn, dumpText]⟩

/-- What the swapped run prints, if the byte-swapped words lead to bytes behind the load commands. -/
theorem handleNotFat_big (hf : f.Wf x) (hb : f.Encodes .big x m) (hc : Comes f)
    (hin : f.textAt x + sectionSize x ≤ mapSize m)
    (hapart : f.areaEnd x ≤ byteSwap 4 f.text.offset)
    (hend : byteSwap 4 f.text.offset + byteSwap (wordSize x) f.text.size ≤ m.size)
    (hr : Reaches m (byteSwap 4 f.text.offset) (byteSwap (wordSize x) f.text.size)) :
    ∃ m₁, handleNotFat m x true 0 = .ok (0, heading ++
      dumpText m (wordSize x) (byteSwap (wordSize x) f.text.addr) (byteSwap 4 f.text.offset)
        (byteSwap (wordSize x) f.text.size), m₁) := by
  have hle := TextFile.segmentAt_le x f
  have hlast := TextFile.sectionAt_le (x := x) f.text_lt
  rw [← TextFile.textAt] at hlast
  have hwords := words_le_sectionSize x
  obtain ⟨m₁, h1, hrun, -⟩ := handleNotFat_comes hf hb hc
  obtain ⟨haddr, -, -⟩ := Section.read_words
    (hf.wfSection (s := f.text) (by simp [TextFile.sections])) (hf.holds_text hb)
  have haddr₁ : m₁.le (wordSize x) (f.textAt x + 32) = byteSwap (wordSize x) f.text.addr :=
    (h1.le fun k _ => by omega).trans haddr
  have hadd : f.textAt x + 32 + wordSize x ≤ m₁.size := by
    rw [h1.size]
    omega
  have hend₁ : 0 + byteSwap 4 f.text.offset + byteSwap (wordSize x) f.text.size ≤ m₁.size := by
    rw [h1.size, Nat.zero_add]
    exact hend
  obtain ⟨n, ret, m₂, hd, -, hiff⟩ := dumpSection_ok hadd hend₁ fun q hq _ => by omega
  have hbytes : m₁.bytes (byteSwap 4 f.text.offset) (byteSwap (wordSize x) f.text.size) =
      m.bytes (byteSwap 4 f.text.offset) (byteSwap (wordSize x) f.text.size) :=
    Buffer.bytes_congr fun k _ => h1.byte _ (by omega)
  rw [haddr₁, Nat.zero_add] at hd
  rw [Nat.zero_add, Reaches, mapSize, h1.size] at hiff
  rw [hiff.mpr hr] at hd
  exact ⟨m₂, by rw [hrun hin, hd, ok_bind, ← dumpText_congr hbytes, dumpText]⟩

section
variable (hf : f.Wf x) (hl : f.Encodes .little x m) (hb : f.Encodes .big x m')
  (hsize : m'.size = m.size) (hc : Comes f)
include hf hl hb hsize hc

omit hc in
theorem sameDump_of_endsEarly (h : EndsEarly m x f) : SameDump m m' x := by
  have hmap : mapSize m' = mapSize m := by rw [mapSize, hsize, mapSize]
  obtain ⟨ret, hr⟩ := handleNotFat_unreached (wfText_of_encodes hf hl) h.out
  have hnothing : ∃ ret m₂, handleNotFat m' x true 0 = .ok (ret, [], m₂) := by
    rcases h with h | ⟨hbefore, hout⟩
    · obtain ⟨m₁, hm₁⟩ := getTextSectionFrom_unreached hf hb (hmap ▸ h)
      exact handleNotFat_nothing hf hb hm₁ fun sec h => absurd h.symm (Option.some_ne_none sec)
    · by_cases hindex : f.pre.length < byteSwap 4 f.sections.length
      · obtain ⟨-, -, -, hnone⟩ := handleNotFat_comes hf hb ⟨hbefore, hindex⟩
        exact hnone (hmap ▸ hout)
      · obtain ⟨m₁, hm₁⟩ := getTextSectionFrom_uncovered hf hb hbefore (Nat.le_of_not_lt hindex)
          (hmap ▸ hout)
        exact handleNotFat_nothing hf hb hm₁ fun sec h => absurd h.symm (Option.some_ne_none sec)
  obtain ⟨ret', m₂, hr'⟩ := hnothing
  exact ⟨_, _, hr, hr', rfl⟩

theorem sameDump_of_unaffected (h : Unaffected m m' x f) : SameDump m m' x := by
  have hmap : mapSize m' = mapSize m := by rw [mapSize, hsize, mapSize]
  obtain ⟨m₁, -, hrun, hnone⟩ := handleNotFat_comes hf hb hc
  by_cases hin : f.textAt x + sectionSize x ≤ mapSize m
  swap
  · obtain ⟨ret, hr⟩ := handleNotFat_unreached (wfText_of_encodes hf hl) hin
    obtain ⟨ret', m₂, hr'⟩ := hnone (hmap ▸ hin)
    exact ⟨_, _, hr, hr', rfl⟩
  rcases h.resolve_left (not_not.mpr hin) with h0 | ⟨hpal, hreach, hreach'⟩
  · have hzero : f.text.size = 0 := by rw [hf.size, h0, List.length_nil]
    obtain ⟨m₂, hr⟩ := handleNotFat_little hf hl hin (.inl h0)
    have hd : ∃ ret, dumpSection m₁ (f.textAt x + 32) x ⟨0, byteSwap 4 f.text.offset⟩ 0 =
        .ok (ret, [], m₁) := dumpSection_nil (.inl rfl)
    obtain ⟨ret, hd⟩ := hd
    have hr' := hrun (hmap ▸ hin)
    rw [hzero, byteSwap_zero, hd, ok_bind] at hr'
    refine ⟨_, _, hr, hr', ?_⟩
    rw [hzero]
    rfl
  · have hcopy := hpal.copy
    obtain ⟨m₂, hr⟩ := handleNotFat_little hf hl hin (.inr hreach)
    obtain ⟨m₃, hr'⟩ := handleNotFat_big hf hb hc (hmap ▸ hin) hpal.apart
      (by rw [hpal.size, hf.size]; exact hcopy.1)
      (by rw [hpal.size, Reaches, hmap]; exact hreach')
    refine ⟨_, _, hr, hr', ?_⟩
    have hbytes : m.bytes f.text.offset f.text.size =
        m'.bytes (byteSwap 4 f.text.offset) f.text.size := by
      rw [hf.size, hl.contents.2, hcopy.2]
    rw [hpal.addr, hpal.size, dumpText_congr hbytes]

omit hc in
/-- The byte-swapped encoding is dumped like the host-order one if a check ends the search; and, where
the search comes to the text section, if there is nothing to print, or its words are palindromes and
lead to a copy of the contents; and there, in a file that `g_map_size` measures with the byte-swapped
offset behind the load commands, only then. -/
theorem handleNotFat_swapped_text :
    (EndsEarly m x f ∨ Comes f ∧ Unaffected m m' x f → SameDump m m' x) ∧
      (Comes f → m.size < 2 ^ 32 → f.areaEnd x ≤ byteSwap 4 f.text.offset → SameDump m m' x →
        Unaffected m m' x f) := by
  constructor
  · rintro (h | ⟨hc, h⟩)
    · exact sameDump_of_endsEarly hf hl hb hsize h
    · exact sameDump_of_unaffected hf hl hb hsize hc h
  intro hc hsz hapart hsame
  obtain ⟨r, r', hr, hr', hsame⟩ := hsame
  have hmap : mapSize m' = mapSize m := by rw [mapSize, hsize, mapSize]
  have hg : mapSize m = m.size := mapSize_eq hsz
  have hhost := wfText_of_encodes hf hl
  have hin : f.textAt x + sectionSize x ≤ mapSize m := by rw [hg]; exact hhost.header.2
  refine .inr (or_iff_not_imp_left.mpr fun hne => ?_)
  have hpos : 0 < f.text.size := by
    rw [hf.size]
    exact List.length_pos_iff.mpr hne
  have hend := hl.contents.1
  rw [← hf.size] at hend
  have hreach : Reaches m f.text.offset f.text.size := .inr (by omega)
  obtain ⟨m₁, hlittle⟩ := handleNotFat_little hf hl hin (.inr hreach)
  rw [hlittle] at hr
  cases hr
  rw [List.drop_left] at hsame
  obtain ⟨m₂, h2, hrun, -⟩ := handleNotFat_comes hf hb hc
  have hbig := hrun (hmap ▸ hin)
  have hadd : f.textAt x + 32 + wordSize x ≤ m₂.size := by
    have hwords := words_le_sectionSize x
    rw [h2.size, hsize]
    omega
  have hinside : byteSwap 4 f.text.offset + byteSwap (wordSize x) f.text.size ≤ m₂.size := by
    rw [hbig] at hr'
    obtain ⟨⟨ret, out, m₃⟩, hd, hr'⟩ := bind_eq_ok.mp hr'
    cases hr'
    rw [List.drop_left] at hsame
    have hne : out ≠ [] := fun h => dumpText_ne_nil hpos (hsame.trans h)
    have := dumpSection_inside hadd (by rwa [h2.size, hsize]) hd hne
    omega
  rw [h2.size] at hinside
  obtain ⟨m₃, hdump⟩ := handleNotFat_big hf hb hc (hmap ▸ hin) hapart hinside (.inr (by omega))
  rw [hdump] at hr'
  cases hr'
  rw [List.drop_left] at hsame
  have htext := hf.wfSection (s := f.text) (by simp [TextFile.sections])
  obtain ⟨haddr, hbytes⟩ := dumpText_inj htext.addr (byteSwap_lt _ _) hpos hsame
  have hsizes : byteSwap (wordSize x) f.text.size = f.text.size := by
    have := congrArg List.length hbytes
    rw [Buffer.length_bytes, Buffer.length_bytes] at this
    exact this.symm
  rw [hsizes] at hbytes hinside
  refine ⟨⟨hapart, haddr.symm, hsizes, ?_, ?_⟩, hreach, .inr (by omega)⟩
  · rw [← hf.size]
    exact hinside
  · rw [← hf.size, ← hbytes, hf.size]
    exact hl.contents.2

end

/-- A text section of zeros at address 0, whose size and file offset are palindromes. -/
def zeroText : TextFile :=
  { smallText false with
    text := { (smallText false).text with addr := 0, size := 0x10100, offset := 0x10100 }
    contents := List.replicate 0x10100 0 }

def zeroImage (o : ByteOrder) : Buffer := .ofBytes 0x20200 (zeroText.toDescription.encode o false)

theorem zeroText_wf : zeroText.Wf false where
  area := by
    refine ⟨rfl, rfl, by decide, fun c hc => ?_⟩
    rw [show c = zeroText.segment from List.mem_singleton.mp hc]
    refine ⟨by decide, rfl, rfl, rfl, fun s hs => ?_⟩
    rw [show s = zeroText.text from List.mem_singleton.mp hs]
    exact ⟨by decide, by decide, by decide, by decide, by decide, by decide⟩
  before := fun _ hc => absurd hc List.not_mem_nil
  pre := fun _ hs => absurd hs List.not_mem_nil
  text := by decide
  size := List.length_replicate.symm
  contents := .inr (by decide)

theorem zeroText_encodes (o : ByteOrder) : zeroText.Encodes o false (zeroImage o) where
  area := Buffer.holds_ofBytes (by cases o <;> decide +kernel)
  contents := Buffer.holds_ofBytes_zeros (by cases o <;> decide +kernel) (by decide)

/-- The zeros are dumped alike; the small file has other words. -/
theorem handleNotFat_swapped_text_smallText :
    SameDump (zeroImage .little) (zeroImage .big) false ∧
      ¬ SameDump ((smallText true).image .little true) ((smallText true).image .big true) true := by
  constructor
  · have hcomes : Comes zeroText := ⟨fun _ hc => absurd hc List.not_mem_nil, by decide⟩
    have hpal : Palindromic (zeroImage .big) false zeroText :=
      ⟨by decide, by decide, by decide, (zeroText_encodes .big).contents⟩
    exact (handleNotFat_swapped_text zeroText_wf (zeroText_encodes .little) (zeroText_encodes .big)
      rfl).1 (.inr ⟨hcomes, .inr (.inr ⟨hpal, by decide, by decide⟩)⟩)
  have hcomes : Comes (smallText true) := ⟨by simp [smallText], by decide⟩
  intro h
  rcases (handleNotFat_swapped_text (smallText_wf true) (smallText_encodes .little true)
    (smallText_encodes .big true) (by decide +kernel)).2 hcomes (by decide +kernel)
    (by decide +kernel) h with hout | hnil | ⟨hpal, -⟩
  · exact hout (by decide +kernel)
  · exact List.cons_ne_nil _ _ hnil
  · exact absurd hpal.addr (by decide)

/-- The lines below the heading that a run wrote. -/
def shownLines : Checked (Int × List UInt8 × Buffer) → List UInt8
  | .ok r => r.2.1.drop heading.length
  | .fault => []

/-- The swapped run looks for the contents behind the end of the file. -/
theorem swappedText_differs : ¬ ∀ (x : Bool) (f : TextFile) (m m' : Buffer), f.Wf x →
    f.Encodes .little x m → f.Encodes .big x m' → m'.size = m.size → SameDump m m' x := by
  intro h
  obtain ⟨r, r', hr, hr', hsame⟩ := h true _ _ _ (smallText_wf true) (smallText_encodes .little true)
    (smallText_encodes .big true) (by decide +kernel)
  have hdiff : shownLines (handleNotFat ((smallText true).image .little true) true false 0) ≠
      shownLines (handleNotFat ((smallText true).image .big true) true true 0) := by
    decide +kernel
  rw [hr, hr'] at hdiff
  exact hdiff hsame

end NmOtool.Otool
