import NmOtool.Nm.Requires

/-!
# ft_nm: section numbers

The sections of an image are numbered from 1 in load-command order. `get_section` finds the header
with a given number by a running count; it gives up at the first segment command that `g_map_size`
does not reach, and takes the number 0 for that of a section before the first.
-/

namespace NmOtool.Nm

open MachO Checked

variable {m : Buffer} {x : Bool} {ptr lc n i count : Nat} {cs : List Nat}

/-- The sections of those segment commands that `g_map_size` reaches behind their fixed part. -/
def sectionsReached (m : Buffer) (x : Bool) (cs : List Nat) : List Nat :=
  (cs.filter fun lc => lc + segmentSize x ≤ mapSize m).flatMap (sectionsAt m x)

theorem sectionsReached_cons {c : Nat} :
    sectionsReached m x (c :: cs) =
      (if c + segmentSize x ≤ mapSize m then sectionsAt m x c else []) ++
        sectionsReached m x cs := by
  unfold sectionsReached
  rw [List.filter_cons]
  by_cases h : c + segmentSize x ≤ mapSize m
  · rw [if_pos (decide_eq_true h), if_pos h, List.flatMap_cons]
  · rw [if_neg (by simpa using h), if_neg h, List.nil_append]

theorem sectionsReached_other {c : Nat} (h : ¬ IsSegment m c) :
    sectionsReached m x (c :: cs) = sectionsReached m x cs := by
  rw [sectionsReached_cons, sectionsAt, if_neg h, ite_self, List.nil_append]

/-- Behind a command that `g_map_size` does not reach no section is. -/
theorem sectionsReached_behind (h : mapSize m < lc + segmentSize x) :
    sectionsReached m x (commandsFrom m n lc) = [] := by
  unfold sectionsReached
  rw [List.filter_eq_nil_iff.mpr fun c hc => ?_, List.flatMap_nil]
  have := commandsFrom_ge hc
  simp only [decide_eq_true_eq]
  omega

/-- The sections that are reached are the first ones. -/
theorem sectionsReached_prefix (n lc : Nat) :
    sectionsReached m x (commandsFrom m n lc) <+: (commandsFrom m n lc).flatMap (sectionsAt m x) := by
  induction n generalizing lc with
  | zero => exact List.prefix_rfl
  | succ n ih =>
    by_cases h : lc + segmentSize x ≤ mapSize m
    · rw [commandsFrom, sectionsReached_cons, if_pos h, List.flatMap_cons]
      exact (List.prefix_append_right_inj _).mpr (ih _)
    · rw [sectionsReached_behind (by omega)]
      exact List.nil_prefix

/-! ## The lookup -/

/-- The headers behind the walk take up room below it, so the count does not wrap. -/
theorem count_next (hc : Covers m x lc) (hseg : IsSegment m lc) (hlc : lc < 2 ^ 32)
    (hcount : count * sectionSize x ≤ lc) :
    u32 (count + nsects m x lc) = count + nsects m x lc ∧
      (count + nsects m x lc) * sectionSize x ≤ lc + cmdsize m lc := by
  have hcov := hc hseg
  have hsize : cmdsize m lc < 2 ^ 32 := m.le_lt
  have hle : (count + nsects m x lc) * sectionSize x ≤ lc + cmdsize m lc := by
    rw [Nat.add_mul]
    omega
  refine ⟨u32_natCast (n := count + nsects m x lc) ?_, hle⟩
  have h68 := le_sectionSize x
  have := Nat.mul_le_mul_left (count + nsects m x lc) h68
  omega

/-- The walk finds the section with the number `i` among those that it reaches. -/
theorem getSectionFrom_reached (hwf : ∀ c ∈ commandsFrom m n lc, WfCommand m x c)
    (hcov : ∀ c ∈ commandsFrom m n lc, Covers m x c) (hcount : count * sectionSize x ≤ lc)
    (hi : count < i) (h256 : i < 256) :
    getSectionFrom false x i n lc count m =
      .ok ((sectionsReached m x (commandsFrom m n lc))[i - count - 1]?, m) := by
  induction n generalizing lc count with
  | zero => rfl
  | succ n ih =>
    have hlc := hwf lc List.mem_cons_self
    have hnext := fun c hc => hwf c (List.mem_cons_of_mem lc hc)
    have hnextCov := fun c hc => hcov c (List.mem_cons_of_mem lc hc)
    have hlt := mapSize_lt m
    by_cases hs : isSafe m lc
    · have hle := (isSafe_natCast m lc).mp hs
      by_cases hseg : IsSegment m lc
      · by_cases hss : isSegmantSafe m lc x
        · have hreach := (isSegmantSafe_iff m lc x).mp hss
          obtain ⟨hwrap, hbehind⟩ :=
            count_next (hcov lc List.mem_cons_self) hseg (by omega) hcount
          rw [getSectionFrom_next hs hseg hss, hwrap, commandsFrom, sectionsReached_cons,
            if_pos hreach]
          by_cases hfound : i ≤ count + nsects m x lc
          · rw [if_pos hfound, List.getElem?_append_left (by rw [sectionsAt_length hseg]; omega),
              headerAt_eq hseg hi hfound h256]
          · rw [if_neg hfound, ih hnext hnextCov hbehind (by omega),
              List.getElem?_append_right (by rw [sectionsAt_length hseg]; omega),
              sectionsAt_length hseg]
            congr 3
            omega
        · have hno : mapSize m < lc + segmentSize x :=
            Nat.lt_of_not_le fun h => hss ((isSegmantSafe_iff m lc x).mpr h)
          rw [getSectionFrom_unreached hlc hs hseg hss, sectionsReached_behind hno]
          rfl
      · rw [getSectionFrom_other hs hseg hlc.lt, commandsFrom, sectionsReached_other hseg]
        exact ih hnext hnextCov (hcount.trans (Nat.le_add_right _ _)) hi
    · have hno : mapSize m < lc + segmentSize x := by
        rw [isSafe_natCast] at hs
        omega
      rw [getSectionFrom, if_neg hs, sectionsReached_behind hno]
      rfl

/-- The number 0 passes for that of a section of the first segment that is reached. -/
theorem getSectionFrom_noSection (hwf : ∀ c ∈ commandsFrom m n lc, WfCommand m x c) :
    ∃ r, getSectionFrom false x 0 n lc count m = .ok (r, m) ∧
      (r = none ↔ ∀ c ∈ commandsFrom m n lc, IsSegment m c → mapSize m < c + segmentSize x) := by
  induction n generalizing lc count with
  | zero => exact ⟨none, rfl, by simp [commandsFrom]⟩
  | succ n ih =>
    have hlc := hwf lc List.mem_cons_self
    have hnext := fun c hc => hwf c (List.mem_cons_of_mem lc hc)
    have hstop : mapSize m < lc + segmentSize x →
        ∀ c ∈ commandsFrom m (n + 1) lc, IsSegment m c → mapSize m < c + segmentSize x := by
      intro hno c hc _
      have := commandsFrom_ge hc
      omega
    by_cases hs : isSafe m lc
    · by_cases hseg : IsSegment m lc
      · by_cases hss : isSegmantSafe m lc x
        · have hreach := (isSegmantSafe_iff m lc x).mp hss
          refine ⟨_, (getSectionFrom_next hs hseg hss).trans (if_pos (Nat.zero_le _)), ?_⟩
          apply iff_of_false (Option.some_ne_none _)
          intro h
          have := h lc List.mem_cons_self hseg
          omega
        · refine ⟨none, getSectionFrom_unreached hlc hs hseg hss, iff_of_true rfl (hstop ?_)⟩
          exact Nat.lt_of_not_le fun h => hss ((isSegmantSafe_iff m lc x).mpr h)
      · obtain ⟨r, hr, hnone⟩ := @ih (lc + cmdsize m lc) count hnext
        refine ⟨r, (getSectionFrom_other hs hseg hlc.lt).trans hr, hnone.trans ?_⟩
        simp [commandsFrom, hseg]
    · refine ⟨none, ?_, iff_of_true rfl (hstop ?_)⟩
      · rw [getSectionFrom, if_neg hs]
        rfl
      · rw [isSafe_natCast] at hs
        omega

/-- An image whose header `g_map_size` does not reach has no segment that it reaches. -/
theorem unreached_of_not_isLcSafe (h : ¬ isLcSafe m ptr x) :
    mapSize m < ptr + headerSize x + segmentSize x := by
  rw [isLcSafe_iff] at h
  cases x <;>
    simp only [headerSize, segmentSize, Bool.false_eq_true, if_false, if_true] at h ⊢ <;> omega

/-- The sections that the lookup can find. -/
abbrev reachedSections (m : Buffer) (x : Bool) (ptr : Nat) : List Nat :=
  sectionsReached m x (commands m x ptr)

theorem getSection_reached (hwf : WfSegments m x ptr) (hi : 0 < i) (h256 : i < 256) :
    getSection m ptr false x i = .ok ((reachedSections m x ptr)[i - 1]?, m) := by
  unfold getSection
  by_cases hlc : isLcSafe m ptr x
  · rw [getLc_host hlc, ok_bind]
    exact getSectionFrom_reached hwf.command hwf.covers (by omega) hi h256
  · rw [getLc_none hlc, ok_bind, reachedSections, commands,
      sectionsReached_behind (unreached_of_not_isLcSafe hlc)]
    rfl

theorem getSection_zero (hwf : WfSegments m x ptr) :
    ∃ r, getSection m ptr false x 0 = .ok (r, m) ∧
      (r = none ↔ ∀ lc ∈ commands m x ptr, IsSegment m lc → mapSize m < lc + segmentSize x) := by
  unfold getSection
  by_cases hlc : isLcSafe m ptr x
  · rw [getLc_host hlc, ok_bind]
    exact getSectionFrom_noSection hwf.command
  · rw [getLc_none hlc, ok_bind]
    refine ⟨none, rfl, iff_of_true rfl fun lc hmem _ => ?_⟩
    have hle := commandsFrom_ge hmem
    have hno := unreached_of_not_isLcSafe hlc
    omega

/-- The header of the section with the number `s`; none has the number 0. -/
def sectionNumbered (m : Buffer) (x : Bool) (ptr s : Nat) : Option Nat :=
  if s = 0 then none else (sections m x ptr)[s - 1]?

/-- A prefix has the element at `k` if it is long enough, and its absence in both is no
difference. -/
theorem getElem?_of_append {α : Type*} {as bs : List α} {k : Nat} (h : as <+: bs) :
    as[k]? = bs[k]? ↔ (k < bs.length → k < as.length) := by
  obtain ⟨cs, rfl⟩ := h
  rw [List.length_append]
  rcases Nat.lt_or_ge k as.length with hk | hk
  · simp [List.getElem?_append_left hk, hk]
  · rw [List.getElem?_eq_none hk, List.getElem?_append_right hk]
    constructor
    · intro h hlt
      rw [eq_comm, List.getElem?_eq_none_iff] at h
      omega
    · intro h
      rw [List.getElem?_eq_none (by omega)]

/-- The lookup finds the section with the number `s`, and nothing for a number that no section
has, if and only if the number is not 0, unless no segment is reached, and its section, if there is
one, is in a segment that is. -/
theorem getSection_numbered (hwf : WfSegments m x ptr) {s : Nat} (hs : s < 256) :
    getSection m ptr false x s = .ok (sectionNumbered m x ptr s, m) ↔
      (s = 0 → ∀ lc ∈ commands m x ptr, IsSegment m lc → mapSize m < lc + segmentSize x) ∧
        (s ≤ (sections m x ptr).length → s ≤ (reachedSections m x ptr).length) := by
  rcases Nat.eq_zero_or_pos s with rfl | hpos
  · obtain ⟨r, hr, hnone⟩ := getSection_zero hwf
    rw [hr, sectionNumbered, if_pos rfl, ← hnone]
    simp
  · have hprefix : reachedSections m x ptr <+: sections m x ptr := sectionsReached_prefix _ _
    have hne : s ≠ 0 := by omega
    rw [getSection_reached hwf hpos hs, sectionNumbered, if_neg hne, Checked.ok.injEq,
      Prod.mk.injEq, and_iff_left rfl, getElem?_of_append hprefix]
    simp only [hne, false_imp_iff, true_and]
    omega

theorem smallFile_segments :
    WfSegments ((smallFile true).image .little true) true 0 where
  header := by decide +kernel
  command := ((smallFile_wf true).wellFormed (smallFile_encodes .little true)).command
  covers := by decide +kernel

theorem getSection_numbered_smallFile :
    getSection ((smallFile true).image .little true) 0 false true 1 =
      .ok (some 104, (smallFile true).image .little true) := by
  have h : sectionNumbered ((smallFile true).image .little true) true 0 1 = some 104 := by
    decide +kernel
  rw [← h]
  exact (getSection_numbered smallFile_segments (by decide)).mpr
    ⟨fun h => absurd h (by decide), fun _ => by decide +kernel⟩

/-- Number 0 is taken for that of a section before the first. -/
theorem getSection_noSection :
    ¬ ∀ m x ptr s, WfSegments m x ptr → s < 256 →
      getSection m ptr false x s = .ok (sectionNumbered m x ptr s, m) := by
  intro h
  obtain ⟨r, hr, hnone⟩ := getSection_zero smallFile_segments
  have h0 := hr.symm.trans (h _ true 0 0 smallFile_segments (by decide))
  have hr0 : r = none := congrArg Prod.fst (Checked.ok.inj h0)
  exact absurd (hnone.mp hr0) (by decide +kernel)

end NmOtool.Nm
