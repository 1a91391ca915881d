import NmOtool.Otool.Text
import NmOtool.MachO.Encode

/-!
# ft_otool: host-order dumps

A run with `should_swap = 0` finds the first section `(__TEXT,__text)` whose header `g_map_size`
reaches, and dumps its bytes in lines of 16. The loop writes nothing but the address in that
header; the bytes it still has to print keep their values as long as they lie elsewhere.
-/

namespace NmOtool.Otool

open MachO Checked

variable {m : Buffer} {x : Bool} {ptr lc sec n i : Nat}

/-! ## The search -/

/-- The section header at `sec` is that of the text section. -/
def isText (m : Buffer) (sec : Nat) : Bool := decide (IsNamed m sec SEG_TEXT SECT_TEXT)

/-- The load command lies in the file, and its section headers lie in the command. -/
structure WfTextCommand (m : Buffer) (x : Bool) (lc : Nat) : Prop extends WfCommand m x lc where
  covers : IsSegment m lc → segmentSize x + nsects m x lc * sectionSize x ≤ cmdsize m lc

theorem wfTextCommand_iff : WfTextCommand m x lc ↔
    8 ≤ cmdsize m lc ∧ lc + cmdsize m lc ≤ m.size ∧ (IsSegment m lc → cmd m lc = segmentCmd x) ∧
      (IsSegment m lc → lc + segmentSize x + nsects m x lc * sectionSize x ≤ m.size) ∧
      (IsSegment m lc → segmentSize x + nsects m x lc * sectionSize x ≤ cmdsize m lc) :=
  ⟨fun h => ⟨h.atLeast, h.inside, h.width, h.sections, h.covers⟩,
    fun ⟨h1, h2, h3, h4, h5⟩ => ⟨⟨h1, h2, h3, h4⟩, h5⟩⟩

instance (m : Buffer) (x : Bool) (lc : Nat) : Decidable (WfTextCommand m x lc) :=
  decidable_of_iff _ wfTextCommand_iff.symm

theorem isNamed_text (h : sec + sectionSize x ≤ m.size) :
    isNamed m sec SECT_TEXT SEG_TEXT = .ok (isText m sec) := by
  have h68 : sec + 68 ≤ m.size := by
    cases x <;> simp only [sectionSize, Bool.false_eq_true, if_false, if_true] at h <;> omega
  exact isNamed_host (by decide) (by decide) (by change sec + 6 + 1 ≤ _; omega)
    (by change sec + 16 + 6 + 1 ≤ _; omega)

theorem textInSegFrom_host {nb : Nat} (hin : lc + segmentSize x + nb * sectionSize x ≤ m.size)
    (hlt : nb * sectionSize x < 2 ^ 32) :
    ∀ n i, i + n = nb → textInSegFrom m lc x n i =
      .ok ((((List.range' i n).map fun k => lc + segmentSize x + k * sectionSize x).find?
        (isText m)).filter fun a => decide (a ≤ mapSize m)) := by
  intro n
  induction n with
  | zero => intro i _; rfl
  | succ n ih =>
    intro i hi
    have hstep : (i + 1) * sectionSize x ≤ nb * sectionSize x :=
      Nat.mul_le_mul_right _ (by omega)
    rw [Nat.add_mul, Nat.one_mul] at hstep
    rw [textInSegFrom, u32_natCast (by omega), List.range'_succ, List.map_cons, List.find?_cons]
    by_cases hs : lc + segmentSize x + i * sectionSize x ≤ mapSize m
    · rw [if_pos ((isSafe_natCast m _).mpr hs), isNamed_text (x := x) (by omega), ok_bind,
        ih (i + 1) (by omega)]
      cases ht : isText m (lc + segmentSize x + i * sectionSize x) with
      | true => simp [Option.filter, hs]
      | false => rfl
    · rw [if_neg fun e => hs ((isSafe_natCast m _).mp e)]
      -- the headers behind an unreachable one are unreachable too
      have hnone : ∀ a, (((List.range' (i + 1) n).map fun k =>
          lc + segmentSize x + k * sectionSize x).find? (isText m)) = some a → ¬ a ≤ mapSize m := by
        intro a ha
        obtain ⟨k, hk, rfl⟩ := List.mem_map.mp (List.mem_of_find?_eq_some ha)
        have : i * sectionSize x ≤ k * sectionSize x :=
          Nat.mul_le_mul_right _ (by rw [List.mem_range'_1] at hk; omega)
        omega
      cases ht : isText m (lc + segmentSize x + i * sectionSize x) with
      | true => simp [Option.filter, hs]
      | false =>
        simp only
        cases hf : (((List.range' (i + 1) n).map fun k =>
          lc + segmentSize x + k * sectionSize x).find? (isText m)) with
        | none => rfl
        | some a => simp [Option.filter, hnone a hf]

theorem textInSeg_host (h : WfTextCommand m x lc) (hseg : IsSegment m lc) :
    textInSeg m lc x =
      .ok (((sectionsAt m x lc).find? (isText m)).filter fun a => decide (a ≤ mapSize m)) := by
  have hin := h.sections hseg
  have hcov := h.covers hseg
  have hsz : cmdsize m lc < 2 ^ 32 := m.le_lt
  have hoff := nsectsOffset_lt x
  rw [textInSeg, Buffer.field_ok (by omega), ok_bind,
    show m.le 4 (lc + nsectsOffset x) = nsects m x lc from rfl,
    textInSegFrom_host hin (by omega) _ 0 (by omega), sectionsAt, if_pos hseg,
    List.range_eq_range']

/-- One command of the walk. -/
theorem getTextSectionFrom_succ {s : Bool} (hs : lc ≤ mapSize m) (h8 : lc + 8 ≤ m.size) :
    getTextSectionFrom s x (n + 1) lc m =
      if IsSegment (commandImage s m lc) lc then
        if lc + segmentSize x ≤ mapSize m then
          (textInSeg (segmentImage s x (commandImage s m lc) lc) lc x).bind fun res =>
            if res.isSome then .ok (res, segmentImage s x (commandImage s m lc) lc)
            else getTextSectionFrom s x n (lc + cmdsize (commandImage s m lc) lc)
              (segmentImage s x (commandImage s m lc) lc)
        else .ok (none, commandImage s m lc)
      else getTextSectionFrom s x n (lc + cmdsize (commandImage s m lc) lc)
        (commandImage s m lc) := by
  have hmap := mapSize_le m
  rw [getTextSectionFrom, if_pos ((isSafe_natCast m _).mpr hs)]
  simp only [ite_bind]
  rw [commandImage_ok h8, ok_bind, Buffer.field_ok (by simp; omega), ok_bind]
  by_cases hseg : IsSegment (commandImage s m lc) lc
  · rw [if_pos hseg, if_pos (show (commandImage s m lc).le 4 lc = LC_SEGMENT ∨
      (commandImage s m lc).le 4 lc = LC_SEGMENT_64 from hseg)]
    simp only [isSegmantSafe_iff, mapSize_commandImage]
    by_cases hss : lc + segmentSize x ≤ mapSize m
    · have hsize : cmdsize (segmentImage s x (commandImage s m lc) lc) lc =
          cmdsize (commandImage s m lc) lc := agreeOn_segmentImage.le fun k _ => .inl (by omega)
      rw [if_pos hss, if_pos hss, segmentImage_ok (by rw [size_commandImage]; omega), ok_bind]
      refine congrArg _ (funext fun res => ?_)
      cases res with
      | some a => rfl
      | none =>
        simp only
        rw [Buffer.field_ok (by simp; omega), ok_bind, ← hsize]
        rfl
    · rw [if_neg hss, if_neg hss]
      rfl
  · rw [if_neg hseg, if_neg (show ¬ ((commandImage s m lc).le 4 lc = LC_SEGMENT ∨
      (commandImage s m lc).le 4 lc = LC_SEGMENT_64) from hseg),
      Buffer.field_ok (by simp; omega), ok_bind]
    rfl

theorem getTextSectionFrom_next (hs : lc ≤ mapSize m) (h8 : lc + 8 ≤ m.size) :
    getTextSectionFrom false x (n + 1) lc m =
      if IsSegment m lc then
        if lc + segmentSize x ≤ mapSize m then
          (textInSeg m lc x).bind fun res =>
            if res.isSome then .ok (res, m)
            else getTextSectionFrom false x n (lc + cmdsize m lc) m
        else .ok (none, m)
      else getTextSectionFrom false x n (lc + cmdsize m lc) m :=
  getTextSectionFrom_succ hs h8

/-- What lies behind an address that `g_map_size` does not reach is not found. -/
theorem found_behind {as : List Nat} {b : Nat} (hb : mapSize m < b) (has : ∀ a ∈ as, b ≤ a) :
    ((as.find? (isText m)).filter fun a => decide (a ≤ mapSize m)) = none := by
  cases hf : as.find? (isText m) with
  | none => rfl
  | some a =>
    have := has a (List.mem_of_find?_eq_some hf)
    simp only [Option.filter, decide_eq_true_eq]
    rw [if_neg (by omega)]

/-- The walk finds the first text section of the file, if `g_map_size` reaches it. -/
theorem getTextSectionFrom_host (hwf : ∀ c ∈ commandsFrom m n lc, WfTextCommand m x c) :
    getTextSectionFrom false x n lc m =
      .ok ((((commandsFrom m n lc).flatMap (sectionsAt m x)).find? (isText m)).filter
        fun a => decide (a ≤ mapSize m), m) := by
  induction n generalizing lc with
  | zero => rfl
  | succ n ih =>
    have hlc := hwf lc List.mem_cons_self
    have hlt := hlc.lt
    have hnext := fun c hc => hwf c (List.mem_cons_of_mem lc hc)
    have hall : ∀ a ∈ (commandsFrom m (n + 1) lc).flatMap (sectionsAt m x),
        lc + segmentSize x ≤ a := fun _ => sections_le
    have hrest : ∀ a ∈ (commandsFrom m n (lc + cmdsize m lc)).flatMap (sectionsAt m x),
        lc + cmdsize m lc + segmentSize x ≤ a := fun _ => sections_le
    by_cases hs : lc ≤ mapSize m
    · rw [getTextSectionFrom_next hs (by omega)]
      by_cases hseg : IsSegment m lc
      · have hcov := hlc.covers hseg
        rw [if_pos hseg]
        by_cases hss : lc + segmentSize x ≤ mapSize m
        · rw [if_pos hss, textInSeg_host hlc hseg, Checked.bind, commandsFrom, List.flatMap_cons,
            List.find?_append]
          cases hf : (sectionsAt m x lc).find? (isText m) with
          | none => exact ih hnext
          | some a =>
            rw [Option.some_or]
            by_cases ha : a ≤ mapSize m
            · simp [Option.filter, ha]
            · -- `a` lies in this command, so the next one is out of reach
              have hmem := List.mem_of_find?_eq_some hf
              rw [sectionsAt, if_pos hseg] at hmem
              obtain ⟨k, hk, rfl⟩ := List.mem_map.mp hmem
              have hkle : k * sectionSize x ≤ nsects m x lc * sectionSize x :=
                Nat.mul_le_mul_right _ (Nat.le_of_lt (List.mem_range.mp hk))
              have hnone := found_behind (m := m) (b := lc + cmdsize m lc) (by omega) fun b hb => by
                have := hrest b hb
                omega
              simp only [Option.filter, ha, decide_false, Bool.false_eq_true, if_false,
                Option.isSome_none]
              rw [ih hnext, hnone]
        · rw [if_neg hss, found_behind (Nat.lt_of_not_le hss) hall]
      · rw [if_neg hseg, commandsFrom, List.flatMap_cons, sectionsAt, if_neg hseg,
          List.nil_append]
        exact ih hnext
    · rw [getTextSectionFrom, if_neg fun h => hs ((isSafe_natCast m lc).mp h),
        found_behind (Nat.lt_of_not_le hs) fun a ha => by have := hall a ha; omega]
      rfl

/-! ## The dump -/

/-- A well-formed host-order image whose first text section has its header at `sec`: the contents
lie in the file, and not in their own section header. -/
structure WfText (m : Buffer) (x : Bool) (ptr sec : Nat) : Prop where
  command : ∀ lc ∈ commands m x ptr, WfTextCommand m x lc
  text : (sections m x ptr).find? (isText m) = some sec
  inside : ptr + secOffset m x sec + secSize m x sec ≤ m.size
  apart : ∀ q, q < ptr + secOffset m x sec + secSize m x sec → ptr + secOffset m x sec ≤ q →
    q < sec ∨ sec + sectionSize x ≤ q

theorem WfText.header (h : WfText m x ptr sec) :
    ptr + headerSize x + segmentSize x ≤ sec ∧ sec + sectionSize x ≤ m.size := by
  have hmem := List.mem_of_find?_eq_some h.text
  refine ⟨sections_le hmem, ?_⟩
  obtain ⟨c, hc, ha⟩ := List.mem_flatMap.mp hmem
  unfold sectionsAt at ha
  split at ha
  · next hseg =>
    obtain ⟨k, hk, rfl⟩ := List.mem_map.mp ha
    have hin := (h.command c hc).sections hseg
    have : (k + 1) * sectionSize x ≤ nsects m x c * sectionSize x :=
      Nat.mul_le_mul_right _ (by rw [List.mem_range] at hk; omega)
    rw [Nat.add_mul] at this
    omega
  · simp at ha

theorem putTextSection_host (h : WfText m x ptr sec) (hs : sec + sectionSize x ≤ mapSize m) :
    ∃ n m', putTextSection m (some sec) false x ptr = .ok (0, heading ++ (List.range n).flatMap
        (lineAt m (wordSize x) (secAddr m x sec) (ptr + secOffset m x sec) (secSize m x sec)), m') ∧
      n ≤ lineCount (secSize m x sec) ∧
      (n = lineCount (secSize m x sec) ↔
        Reaches m (ptr + secOffset m x sec) (secSize m x sec)) := by
  have hsz : sec + 32 + 2 * wordSize x + 4 ≤ m.size ∧ 32 + 2 * wordSize x + 4 ≤ sectionSize x := by
    have := h.header.2
    cases x <;>
      simp only [sectionSize, wordSize, Bool.false_eq_true, if_false, if_true] at this ⊢ <;> omega
  have hadd : sec + 32 + wordSize x ≤ m.size := by omega
  obtain ⟨n, ret, m', hr, hn⟩ := dumpSection_ok hadd h.inside fun q h1 h2 => by
    have := h.apart q h2 h1
    omega
  refine ⟨n, m', ?_, hn⟩
  rw [putTextSection, if_pos ((isSafe_natCast m _).mpr hs)]
  simp only [Bool.false_eq_true, if_false, pure_eq, ok_bind]
  rw [Buffer.field_ok (by omega), ok_bind, Buffer.field_ok (by omega), ok_bind,
    show m.le (wordSize x) (sec + 32 + wordSize x) = secSize m x sec from rfl,
    show m.le 4 (sec + 32 + 2 * wordSize x) = secOffset m x sec from rfl, hr]
  rfl

theorem handleNotFat_dumped (h : WfText m x ptr sec) (hs : sec + sectionSize x ≤ mapSize m) :
    ∃ n m', handleNotFat m x false ptr = .ok (0, heading ++ (List.range n).flatMap
        (lineAt m (wordSize x) (secAddr m x sec) (ptr + secOffset m x sec) (secSize m x sec)), m') ∧
      n ≤ lineCount (secSize m x sec) ∧
      (n = lineCount (secSize m x sec) ↔
        Reaches m (ptr + secOffset m x sec) (secSize m x sec)) := by
  have hle := h.header.1
  have hss := le_segmentSize x
  have hlc : isLcSafe m ptr x := by
    rw [isLcSafe_iff]
    split <;> omega
  obtain ⟨n, m', hr, hn⟩ := putTextSection_host h hs
  refine ⟨n, m', ?_, hn⟩
  have hfind : getTextSection ⟨m.le 4 (ptr + 16), headerSize x⟩ ptr false x m =
      .ok (some sec, m) := by
    refine (getTextSectionFrom_host h.command).trans ?_
    have htext : ((commandsFrom m (ncmds m ptr) (ptr + headerSize x)).flatMap
        (sectionsAt m x)).find? (isText m) = some sec := h.text
    rw [htext, Option.filter_some, if_pos (by simp; omega)]
  rw [handleNotFat, if_pos ((isSafe_natCast m ptr).mpr (by omega)), getLc_host hlc, ok_bind]
  simp only
  rw [hfind, ok_bind]
  simp only
  rw [hr]
  rfl

theorem handleNotFat_unreached (h : WfText m x ptr sec) (hs : ¬ sec + sectionSize x ≤ mapSize m) :
    ∃ ret, handleNotFat m x false ptr = .ok (ret, [], m) := by
  unfold handleNotFat
  by_cases hp : isSafe m ptr
  · rw [if_pos hp]
    by_cases hlc : isLcSafe m ptr x
    · rw [getLc_host hlc, ok_bind]
      simp only
      have hfind : getTextSection ⟨m.le 4 (ptr + 16), headerSize x⟩ ptr false x m =
          .ok ((some sec).filter fun a => decide (a ≤ mapSize m), m) := by
        refine (getTextSectionFrom_host h.command).trans ?_
        have htext : ((commandsFrom m (ncmds m ptr) (ptr + headerSize x)).flatMap
            (sectionsAt m x)).find? (isText m) = some sec := h.text
        rw [htext]
      rw [hfind, ok_bind]
      simp only
      refine ⟨0, ?_⟩
      rw [Option.filter_some]
      split
      · rw [putTextSection, if_neg fun e => hs ((isSafe_natCast m _).mp e)]
        rfl
      · rfl
    · rw [getLc_none hlc]
      exact ⟨-1, rfl⟩
  · rw [if_neg hp]
    exact ⟨-1, rfl⟩

/-- The dump is exactly the text section: the heading and a line for each 16 bytes of the first
section `(__TEXT,__text)`. This is what is printed if and only if `g_map_size` reaches the end of
the section header and the start of the last line, as it does in every file below 4 GiB; and the
lines together hold exactly the bytes of the section. -/
theorem handleNotFat_dumps (h : WfText m x ptr sec) :
    ((∃ m', handleNotFat m x false ptr = .ok (0, heading ++
        (List.range ((secSize m x sec + 15) / 16)).flatMap (fun k =>
          textLine (wordSize x) ((secAddr m x sec + 16 * k) % 256 ^ wordSize x)
            (((m.bytes (ptr + secOffset m x sec) (secSize m x sec)).drop (16 * k)).take 16)),
        m')) ↔
      sec + sectionSize x ≤ mapSize m ∧
        Reaches m (ptr + secOffset m x sec) (secSize m x sec)) ∧
    (m.size < 2 ^ 32 → sec + sectionSize x ≤ mapSize m ∧
      Reaches m (ptr + secOffset m x sec) (secSize m x sec)) ∧
    (List.range ((secSize m x sec + 15) / 16)).flatMap (fun k =>
        ((m.bytes (ptr + secOffset m x sec) (secSize m x sec)).drop (16 * k)).take 16) =
      m.bytes (ptr + secOffset m x sec) (secSize m x sec) := by
  refine ⟨⟨fun ⟨m₁, hr⟩ => ?_, fun ⟨hs, hreach⟩ => ?_⟩, fun hsz => ?_, ?_⟩
  · by_cases hs : sec + sectionSize x ≤ mapSize m
    · obtain ⟨n, m', hd, hn, hiff⟩ := handleNotFat_dumped h hs
      rw [hd] at hr
      have hout := List.append_cancel_left (Prod.mk.inj (Prod.mk.inj (Checked.ok.inj hr)).2).1
      exact ⟨hs, hiff.mp (flatMap_range_inj (fun k => textLine_ne_nil _ _ _) hn hout)⟩
    · obtain ⟨ret, hd⟩ := handleNotFat_unreached h hs
      rw [hd] at hr
      have hout := (Prod.mk.inj (Prod.mk.inj (Checked.ok.inj hr)).2).1
      simp [heading, ascii] at hout
  · obtain ⟨n, m', hd, -, hiff⟩ := handleNotFat_dumped h hs
    rw [hiff.mpr hreach] at hd
    exact ⟨m', hd⟩
  · have hin := h.inside
    have hsec := h.header.2
    rw [mapSize_eq hsz]
    refine ⟨hsec, ?_⟩
    unfold Reaches
    rw [mapSize_eq hsz]
    omega
  · have := flatten_lines (m.bytes (ptr + secOffset m x sec) (secSize m x sec))
    rwa [Buffer.length_bytes] at this

/-- The bytes of a small file, in a file of 4 GiB and 100 bytes. -/
def longFile : Buffer := .ofBytes (2 ^ 32 + 100) ((smallFile true).bytes .little true)

theorem longFile_wfText : WfText longFile true 0 104 where
  command := by decide +kernel
  text := by decide +kernel
  inside := by decide +kernel
  apart := by decide +kernel

theorem smallFile_wfText : WfText ((smallFile true).image .little true) true 0 104 where
  command := by decide +kernel
  text := by decide +kernel
  inside := by decide +kernel
  apart := by decide +kernel

/-- `g_map_size` is 100 there, and nothing at all is printed. -/
theorem longFile_unreached :
    ¬ ∀ m x ptr sec, WfText m x ptr sec →
      ∃ m', handleNotFat m x false ptr = .ok (0, heading ++
        (List.range ((secSize m x sec + 15) / 16)).flatMap (fun k =>
          textLine (wordSize x) ((secAddr m x sec + 16 * k) % 256 ^ wordSize x)
            (((m.bytes (ptr + secOffset m x sec) (secSize m x sec)).drop (16 * k)).take 16)),
        m') := by
  intro h
  obtain ⟨m', hr⟩ := h _ _ _ _ longFile_wfText
  obtain ⟨ret, hd⟩ := handleNotFat_unreached longFile_wfText (by decide +kernel)
  rw [hd] at hr
  have hout := (Prod.mk.inj (Prod.mk.inj (Checked.ok.inj hr)).2).1
  simp [heading, ascii] at hout

theorem handleNotFat_dumps_smallFile :
    ∃ m', handleNotFat ((smallFile true).image .little true) true false 0 = .ok (0, heading ++
      (List.range 2).flatMap (fun k => textLine 8 ((0x1000 + 16 * k) % 256 ^ 8)
        ((((smallFile true).image .little true).bytes 240 18).drop (16 * k) |>.take 16)), m') := by
  have h := handleNotFat_dumps smallFile_wfText
  have he : secAddr ((smallFile true).image .little true) true 104 = 0x1000 ∧
      secSize ((smallFile true).image .little true) true 104 = 18 ∧
      secOffset ((smallFile true).image .little true) true 104 = 240 := by decide +kernel
  have hd := h.1.mpr (h.2.1 (by decide +kernel))
  rw [he.1, he.2.1, he.2.2] at hd
  exact hd

end NmOtool.Otool
