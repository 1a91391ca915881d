import NmOtool.Otool.Fat
import NmOtool.Nm.Requires
import NmOtool.Nm.Dispatch

/-!
# ft_otool: what a run requires of a file

The weakest precondition of `otool`, for any file: `OtoolFits` holds of a map exactly when the run on
it stays in the map. As in `Nm.Requires` the predicates follow the states of their functions, and
what they add to them are the bounds that no check of the code gives.
-/

namespace NmOtool.Otool

open MachO Checked
open Nm (TFat HostEntry entryType entrySlice raised hostEntry_iff archCode archCode_eq_x86
  PrescanSafe fatOf initTFat nfatArch_ok initTFat_ok prescanSafe_of_ok returns_isHostarch
  returns_getOffsizeArch)

variable {m : Buffer} {s x : Bool} {add base size offset ptr lc sec i k n fuel : Nat}

/-! ## The dump -/

/-- The lines that are printed: `g_map_size` reaches the first byte of each. -/
def linesShown (m : Buffer) (base size : Nat) : Nat :=
  if base ≤ mapSize m then min (lineCount size) ((mapSize m - base) / 16 + 1) else 0

theorem lt_linesShown :
    k < linesShown m base size ↔ 16 * k < size ∧ base + 16 * k ≤ mapSize m := by
  unfold linesShown lineCount
  split <;> omega

theorem linesShown_le : linesShown m base size ≤ 2 ^ 28 := by
  have hg := mapSize_lt m
  unfold linesShown
  split <;> omega

/-- The image behind `k` lines. -/
def advance (m : Buffer) (x : Bool) (add k : Nat) : Buffer :=
  m.put (wordSize x) add (m.le (wordSize x) add + 16 * k)

@[simp] theorem size_advance : (advance m x add k).size = m.size := rfl

theorem le_advance : (advance m x add k).le (wordSize x) add =
    (m.le (wordSize x) add + 16 * k) % 256 ^ wordSize x := Buffer.le_put_self

theorem advance_zero : advance m x add 0 = m := Buffer.put_self

theorem advance_succ : (advance m x add k).put (wordSize x) add
    ((advance m x add k).le (wordSize x) add + 16) = advance m x add (k + 1) := by
  rw [le_advance, advance, advance, Buffer.put_put, ← Buffer.put_mod, Nat.mod_add_mod,
    Buffer.put_mod, Nat.mul_succ, Nat.add_assoc]

/-- Line `k`: its bytes are those of the image that the lines before it have left. -/
def shownLine (m : Buffer) (x : Bool) (add base size k : Nat) : List UInt8 :=
  textLine (wordSize x) ((m.le (wordSize x) add + 16 * k) % 256 ^ wordSize x)
    ((advance m x add k).bytes (base + 16 * k) (min 16 (size - 16 * k)))

def shownText (m : Buffer) (x : Bool) (add base size : Nat) : List UInt8 :=
  (List.range (linesShown m base size)).flatMap (shownLine m x add base size)

/-- Line `k` ends in the map. -/
def LineFits (m : Buffer) (base size k : Nat) : Prop := base + min size (16 * k + 16) ≤ m.size

instance (m : Buffer) (base size k : Nat) : Decidable (LineFits m base size k) :=
  inferInstanceAs (Decidable (_ ≤ _))

def LinesFit (m : Buffer) (base size : Nat) : Prop :=
  ∀ k, k < linesShown m base size → LineFits m base size k

instance (m : Buffer) (base size : Nat) : Decidable (LinesFit m base size) :=
  inferInstanceAs (Decidable (∀ k, k < _ → _))

theorem dumpSectionFrom_shown (hadd : add + wordSize x ≤ m.size) :
    ∀ fuel k, linesShown m (ptr + offset) size < fuel + k →
      k ≤ linesShown m (ptr + offset) size →
      (∀ j, k ≤ j → j < linesShown m (ptr + offset) size → LineFits m (ptr + offset) size j) →
      ∃ ret, dumpSectionFrom add x ⟨size, offset⟩ ptr fuel (16 * k) (advance m x add k) =
        .ok (ret, (List.range' k (linesShown m (ptr + offset) size - k)).flatMap
          (shownLine m x add (ptr + offset) size),
          advance m x add (linesShown m (ptr + offset) size)) := by
  intro fuel
  induction fuel with
  | zero => intro k h1 h2; omega
  | succ fuel ih =>
    intro k hf hk hfit
    unfold dumpSectionFrom
    simp only
    by_cases hshown : k < linesShown m (ptr + offset) size
    · obtain ⟨hlt, hs⟩ := lt_linesShown.mp hshown
      have hline : ptr + offset + min size (16 * k + 16) ≤ m.size := hfit k (Nat.le_refl _) hshown
      obtain ⟨ret, hr⟩ := ih (k + 1) (by omega) hshown fun j hj => hfit j (by omega)
      have hs' : isSafe (advance m x add k) (ptr + offset + 16 * k : Nat) :=
        (isSafe_natCast m _).mpr hs
      have hadd' : add + wordSize x ≤ (advance m x add k).size := hadd
      rw [if_pos hlt, if_pos hs', hexdumpAddress_ok hadd', ok_bind, hexdumpData,
        hexdumpDataFrom_ok (by omega) (by rw [size_advance]; omega), ok_bind,
        Buffer.field_ok hadd', ok_bind, Buffer.storeField_ok hadd', ok_bind, advance_succ,
        show 16 * k + 16 = 16 * (k + 1) by omega, hr]
      refine ⟨ret, ?_⟩
      have hcount : linesShown m (ptr + offset) size - k =
          linesShown m (ptr + offset) size - (k + 1) + 1 := by omega
      rw [hcount, List.range'_succ, List.flatMap_cons, shownLine, textLine, le_advance]
      simp
    · have heq : k = linesShown m (ptr + offset) size := by omega
      rw [heq, Nat.sub_self]
      by_cases hlt : 16 * k < size
      · have hs : ¬ ptr + offset + 16 * k ≤ mapSize m := fun hs =>
          hshown (lt_linesShown.mpr ⟨hlt, hs⟩)
        have hs' : ¬ isSafe (advance m x add k) (ptr + offset + 16 * k : Nat) := fun e =>
          hs ((isSafe_natCast m _).mp e)
        rw [← heq, if_pos hlt, if_neg hs']
        exact ⟨-1, rfl⟩
      · rw [← heq, if_neg hlt]
        exact ⟨0, rfl⟩

theorem dumpSectionFrom_leaves (hadd : add + wordSize x ≤ m.size) :
    ∀ fuel k, linesShown m (ptr + offset) size < fuel + k →
      (∃ j, k ≤ j ∧ j < linesShown m (ptr + offset) size ∧ ¬ LineFits m (ptr + offset) size j) →
      dumpSectionFrom add x ⟨size, offset⟩ ptr fuel (16 * k) (advance m x add k) = .fault := by
  intro fuel
  induction fuel with
  | zero => rintro k h1 ⟨j, h2, h3, -⟩; omega
  | succ fuel ih =>
    rintro k hf ⟨j, hkj, hj, hno⟩
    obtain ⟨hlt, hs⟩ := lt_linesShown.mp (Nat.lt_of_le_of_lt hkj hj)
    unfold dumpSectionFrom
    simp only
    have hs' : isSafe (advance m x add k) (ptr + offset + 16 * k : Nat) :=
      (isSafe_natCast m _).mpr (by omega)
    have hadd' : add + wordSize x ≤ (advance m x add k).size := hadd
    rw [if_pos (by omega), if_pos hs', hexdumpAddress_ok hadd', ok_bind, hexdumpData]
    by_cases hfit : LineFits m (ptr + offset) size k
    · have hne : k ≠ j := fun e => hno (e ▸ hfit)
      unfold LineFits at hfit
      rw [hexdumpDataFrom_ok (by omega) (by rw [size_advance]; omega), ok_bind,
        Buffer.field_ok hadd', ok_bind, Buffer.storeField_ok hadd', ok_bind, advance_succ,
        show 16 * k + 16 = 16 * (k + 1) by omega,
        ih (k + 1) (by omega) ⟨j, by omega, hj, hno⟩]
      rfl
    · have hmap := mapSize_le m
      unfold LineFits at hfit
      rw [hexdumpDataFrom_fault (by omega) (by rw [size_advance]; omega)
        (by rw [size_advance]; omega)]
      rfl

/-- The dump prints its lines if they lie in the map, and else leaves it. -/
theorem dumpSection_shown (hadd : add + wordSize x ≤ m.size)
    (hfit : LinesFit m (ptr + offset) size) :
    ∃ ret, dumpSection m add x ⟨size, offset⟩ ptr =
      .ok (ret, shownText m x add (ptr + offset) size,
        advance m x add (linesShown m (ptr + offset) size)) := by
  have hle : linesShown m (ptr + offset) size ≤ 2 ^ 28 := linesShown_le
  obtain ⟨ret, hr⟩ := dumpSectionFrom_shown hadd (2 ^ 28 + 2) 0 (by omega) (Nat.zero_le _)
    fun j _ hj => hfit j hj
  rw [advance_zero, Nat.sub_zero, ← List.range_eq_range'] at hr
  exact ⟨ret, hr⟩

theorem dumpSection_leaves (hadd : add + wordSize x ≤ m.size)
    (hfit : ¬ LinesFit m (ptr + offset) size) :
    dumpSection m add x ⟨size, offset⟩ ptr = .fault := by
  have hle : linesShown m (ptr + offset) size ≤ 2 ^ 28 := linesShown_le
  unfold LinesFit at hfit
  push Not at hfit
  obtain ⟨j, hj, hno⟩ := hfit
  have hf := dumpSectionFrom_leaves hadd (2 ^ 28 + 2) 0 (by omega) ⟨j, Nat.zero_le _, hj, hno⟩
  rw [advance_zero] at hf
  exact hf

/-! ## The search -/

/-- The header of section `i` of the segment at `lc`. -/
def headerOf (x : Bool) (lc i : Nat) : Nat :=
  lc + segmentSize x + u32 ((i * sectionSize x : Nat) : Int)

/-- The names that `text_in_seg` compares end in the map, one way or the other. -/
def NamesFit (m : Buffer) (x : Bool) (lc : Nat) : Nat → Nat → Prop
  | 0, _ => True
  | n + 1, i =>
    isSafe m (headerOf x lc i) → NameFits m (headerOf x lc i) SECT_TEXT SEG_TEXT ∧
      (¬ IsNamed m (headerOf x lc i) SEG_TEXT SECT_TEXT → NamesFit m x lc n (i + 1))

instance decidableNamesFit (m : Buffer) (x : Bool) (lc : Nat) :
    ∀ n i, Decidable (NamesFit m x lc n i)
  | 0, _ => inferInstanceAs (Decidable True)
  | n + 1, i =>
    have := decidableNamesFit m x lc n (i + 1)
    inferInstanceAs (Decidable (_ → _ ∧ (_ → _)))

/-- What it finds. -/
def foundFrom (m : Buffer) (x : Bool) (lc : Nat) : Nat → Nat → Option Nat
  | 0, _ => none
  | n + 1, i =>
    if isSafe m (headerOf x lc i) then
      if IsNamed m (headerOf x lc i) SEG_TEXT SECT_TEXT then some (headerOf x lc i)
      else foundFrom m x lc n (i + 1)
    else none

theorem textInSegFrom_eq : textInSegFrom m lc x n i =
    if NamesFit m x lc n i then .ok (foundFrom m x lc n i) else .fault := by
  induction n generalizing i with
  | zero => rfl
  | succ n ih =>
    have hnamed : isNamed m (headerOf x lc i) SECT_TEXT SEG_TEXT = _ :=
      isNamed_eq (by decide) (by decide)
    rw [textInSegFrom, foundFrom]
    change (if isSafe m (headerOf x lc i) then do
      if ← isNamed m (headerOf x lc i) SECT_TEXT SEG_TEXT then pure (some (headerOf x lc i))
      else textInSegFrom m lc x n (i + 1) else pure none) = _
    by_cases hs : isSafe m (headerOf x lc i)
    · rw [if_pos hs, if_pos hs, hnamed, ih]
      by_cases hfit : NameFits m (headerOf x lc i) SECT_TEXT SEG_TEXT
      · rw [if_pos hfit, ok_bind]
        by_cases hn : IsNamed m (headerOf x lc i) SEG_TEXT SECT_TEXT
        · simp [NamesFit, hs, hfit, hn]
        · simp [NamesFit, hs, hfit, hn]
      · rw [if_neg hfit, if_neg fun h : NamesFit m x lc (n + 1) i => hfit (h hs).1]
        rfl
    · rw [if_neg hs, if_neg hs, if_pos (show NamesFit m x lc (n + 1) i from fun h => absurd h hs)]
      rfl

theorem textInSeg_returns {K : Option Nat → Prop} (h : lc + segmentSize x ≤ m.size) :
    (textInSeg m lc x).Returns K ↔
      NamesFit m x lc (nsects m x lc) 0 ∧ K (foundFrom m x lc (nsects m x lc) 0) := by
  have hoff := nsectsOffset_lt x
  rw [textInSeg, Buffer.field_ok (by omega), ok_bind, textInSegFrom_eq]
  change (if NamesFit m x lc (nsects m x lc) 0 then ok (foundFrom m x lc (nsects m x lc) 0)
    else fault).Returns K ↔ _
  split <;> simp [*]

/-- Every command that the walk looks at has its `cmd` in the map, and its `cmdsize` unless it is a
segment in host order. -/
def SearchFits (s x : Bool) (K : Option Nat → Buffer → Prop) : Nat → Nat → Buffer → Prop
  | 0, _, m => K none m
  | n + 1, lc, m =>
    if isSafe m lc then
      lc + 4 ≤ m.size ∧ (s = true → lc + 8 ≤ m.size) ∧
        let m := commandImage s m lc
        if IsSegment m lc then
          if isSegmantSafe m lc x then
            let m := segmentImage s x m lc
            NamesFit m x lc (nsects m x lc) 0 ∧
              match foundFrom m x lc (nsects m x lc) 0 with
              | some sec => K (some sec) m
              | none => SearchFits s x K n (lc + cmdsize m lc) m
          else K none m
        else lc + 8 ≤ m.size ∧ SearchFits s x K n (lc + cmdsize m lc) m
    else K none m

theorem getTextSectionFrom_returns {K : Option Nat → Buffer → Prop} :
    ((getTextSectionFrom s x n lc m).Returns fun r => K r.1 r.2) ↔ SearchFits s x K n lc m := by
  induction n generalizing lc m with
  | zero => exact returns_ok
  | succ n ih =>
    rw [getTextSectionFrom, SearchFits]
    refine returns_ite ?_ returns_ok
    simp only [ite_bind]
    rw [returns_bind, returns_command, returns_bind, Buffer.returns_field, size_commandImage,
      and_left_comm]
    refine and_congr_right fun h4 => and_congr_right fun h8 => ?_
    refine returns_ite ?_ ?_
    · generalize commandImage s m lc = m₁
      by_cases hss : isSegmantSafe m₁ lc x
      · have hle := ((isSegmantSafe_iff m₁ lc x).mp hss).trans (mapSize_le m₁)
        have h56 := le_segmentSize x
        rw [if_pos hss, if_pos hss, segmentImage_ok hle, ok_bind, returns_bind,
          textInSeg_returns (by rw [size_segmentImage]; exact hle)]
        apply and_congr_right
        intro _
        cases foundFrom (segmentImage s x m₁ lc) x lc (nsects (segmentImage s x m₁ lc) x lc) 0 with
        | some sec => exact returns_ok
        | none =>
          simp only
          rw [Buffer.field_ok (by rw [size_segmentImage]; omega), ok_bind]
          exact ih
      · rw [if_neg hss, if_neg hss]
        exact returns_ok
    · rw [returns_bind, Buffer.returns_field, size_commandImage]
      exact and_congr_right fun _ => ih

/-! ## A thin file -/

/-- The header that the search finds, if `g_map_size` reaches its end, and the lines behind it. `K`
is about the bytes written and the image. -/
def SectionFits (s x : Bool) (ptr : Nat) (K : List UInt8 → Buffer → Prop) :
    Option Nat → Buffer → Prop
  | none, m => K [] m
  | some sec, m =>
    if isSafe m (sec + sectionSize x : Nat) then
      let m := sectionImage s x m sec
      let base := ptr + secOffset m x sec
      LinesFit m base (secSize m x sec) ∧
        K (heading ++ shownText m x (sec + 32) base (secSize m x sec))
          (advance m x (sec + 32) (linesShown m base (secSize m x sec)))
    else K [] m

theorem putTextSection_returns {K : List UInt8 → Buffer → Prop} {sec : Option Nat} :
    ((putTextSection m sec s x ptr).Returns fun r => K r.2.1 r.2.2) ↔
      SectionFits s x ptr K sec m := by
  cases sec with
  | none => exact returns_ok
  | some sec =>
    rw [putTextSection, SectionFits]
    by_cases hs : isSafe m (sec + sectionSize x : Nat)
    · have hle := ((isSafe_natCast m _).mp hs).trans (mapSize_le m)
      have hhead := words_le_sectionSize x
      have hswap : (if x then 24 else 16) ≤ sectionSize x := by cases x <;> decide
      rw [if_pos hs, if_pos hs]
      simp only [ite_bind]
      rw [returns_bind, returns_section, and_iff_right (fun _ => by omega)]
      have hsize : (sectionImage s x m sec).size = m.size := size_sectionImage
      have hadd : sec + 32 + wordSize x ≤ (sectionImage s x m sec).size := by omega
      rw [Buffer.field_ok (by omega), ok_bind, Buffer.field_ok (by omega), ok_bind]
      change ((dumpSection (sectionImage s x m sec) (sec + 32) x
        ⟨secSize (sectionImage s x m sec) x sec, secOffset (sectionImage s x m sec) x sec⟩ ptr >>=
          _).Returns _) ↔ _
      by_cases hfit : LinesFit (sectionImage s x m sec)
          (ptr + secOffset (sectionImage s x m sec) x sec) (secSize (sectionImage s x m sec) x sec)
      · obtain ⟨ret, hdump⟩ := dumpSection_shown hadd hfit
        rw [hdump, ok_bind, and_iff_right hfit]
        exact returns_ok
      · rw [dumpSection_leaves hadd hfit]
        exact iff_of_false returns_fault fun h => hfit h.1
    · rw [if_neg hs, if_neg hs]
      exact returns_ok

/-- `handle_not_fat` on the image at `ptr`. -/
def ThinFits (m : Buffer) (s x : Bool) (ptr : Nat) (K : List UInt8 → Buffer → Prop) : Prop :=
  if isSafe m ptr ∧ isLcSafe m ptr x then
    let m := headerImage s m ptr
    SearchFits s x (SectionFits s x ptr K) (ncmds m ptr) (ptr + headerSize x) m
  else K [] m

theorem handleNotFat_returns {K : List UInt8 → Buffer → Prop} :
    ((handleNotFat m x s ptr).Returns fun r => K r.2.1 r.2.2) ↔ ThinFits m s x ptr K := by
  unfold ThinFits
  unfold handleNotFat
  by_cases h : isSafe m ptr
  · rw [if_pos h]
    by_cases hlc : isLcSafe m ptr x
    · rw [if_pos ⟨h, hlc⟩, getLc_ok hlc, ok_bind]
      simp only
      rw [getTextSection, returns_bind, ← getTextSectionFrom_returns]
      apply returns_congr
      rintro ⟨sec, m'⟩ _
      rw [← putTextSection_returns, returns_bind]
      exact returns_congr fun _ _ => returns_ok
    · rw [if_neg fun h => hlc h.2, getLc_none hlc]
      exact returns_ok
  · rw [if_neg h, if_neg fun h' => h h'.1]
    exact returns_ok

/-! ## A fat file -/

/-- `handle_each_arch` on the entry at `array`: nothing is read when the entry starts behind
`g_map_size`, its CPU type otherwise, and the offset and the magic number it leads to when it is for
the host. -/
def EntryFits (K : List UInt8 → TFat → Buffer → Prop) (m : Buffer) (array ptr : Nat)
    (fat : TFat) : Prop :=
  if isSafe m array then
    array + 4 ≤ m.size ∧
      if HostEntry m array fat then
        let p := entrySlice m array ptr fat
        (array + 8 + wordSize fat.is64 ≤ m.size ∧ p + 4 ≤ m.size) ∧
          if notValidHeader (m.le 4 p) then K [] fat m
          else ThinFits m (shouldSwapFile (m.le 4 p)) (is64File (m.le 4 p)) p fun out m' =>
            K out (raised m array fat) m'
      else K [] fat m
  else K [] fat m

theorem handleEachArch_returns {K : List UInt8 → TFat → Buffer → Prop} {array : Nat} {fat : TFat} :
    ((handleEachArch m array ptr fat).Returns fun r => K r.2.1 r.2.2.2 r.2.2.1) ↔
      EntryFits K m array ptr fat := by
  rw [handleEachArch, EntryFits]
  refine returns_ite ?_ returns_ok
  rw [returns_bind, returns_isHostarch]
  apply and_congr_right
  intro _
  rw [show fatWord fat.shouldSwap 4 (m.le 4 array) = entryType m array fat from rfl]
  by_cases hhost : HostEntry m array fat
  · obtain ⟨h0, hno⟩ := hostEntry_iff.mp hhost
    rw [if_neg h0, if_neg hno, if_pos hhost, returns_bind, returns_getOffsizeArch, and_assoc]
    apply and_congr_right
    intro _
    rw [returns_bind, Buffer.returns_field]
    apply and_congr_right
    intro _
    apply returns_ite returns_ok
    have hraised : (if archCode (entryType m array fat) = MY_CPU_X86_64 then
        { fat with found64 := true } else fat) = raised m array fat := by
      simp only [archCode_eq_x86]
      rfl
    rw [hraised, returns_bind, ← handleNotFat_returns]
    exact returns_congr fun _ _ => returns_ok
  · rw [if_neg hhost]
    rw [hostEntry_iff, not_and_or, not_not, not_not] at hhost
    by_cases h0 : archCode (entryType m array fat) = 0
    · rw [if_pos h0]
      exact returns_ok
    · rw [if_neg h0, if_pos (hhost.resolve_left h0)]
      exact returns_ok

/-- The loop of `handle_fat` from entry `i`, with `n` entries left. -/
def LoopFits (ptr size : Nat) : Nat → Nat → TFat → Buffer → Prop
  | 0, _, _, _ => True
  | n + 1, i, fat, m =>
    EntryFits (fun _ fat m => LoopFits ptr size n (i + 1) fat m) m
      (ptr + i * size + fatHeaderSize) ptr fat

theorem handleFatFrom_ne_fault {fat : TFat} :
    handleFatFrom ptr size n i fat m ≠ .fault ↔ LoopFits ptr size n i fat m := by
  induction n generalizing i fat m with
  | zero => exact iff_of_true (fun h => by cases h) trivial
  | succ n ih =>
    rw [LoopFits, ← handleEachArch_returns, ← returns_true, handleFatFrom, returns_bind]
    apply returns_congr
    rintro ⟨_, out, m', fat'⟩ _
    rw [← ih, returns_bind, ← returns_true]
    exact returns_congr fun _ _ => returns_ok

/-- `handle_fat`: the scan for x86_64 checks nothing. -/
def FatFits (m : Buffer) (s x : Bool) : Prop :=
  PrescanSafe m x s ∧ LoopFits 0 (fatArchSize x) (nfatArchs m s) 0 (fatOf m x s) m

theorem handleFat_ne_fault (h8 : 8 ≤ mapSize m) : handleFat m x s 0 ≠ .fault ↔ FatFits m s x := by
  have hsz : 8 ≤ m.size := h8.trans (mapSize_le m)
  rw [handleFat, if_pos ((isSafe_natCast m _).mpr (by unfold fatHeaderSize; omega)),
    nfatArch_ok hsz, ok_bind, FatFits]
  by_cases hpre : PrescanSafe m x s
  · rw [initTFat_ok hsz hpre, ok_bind, and_iff_right hpre, ← handleFatFrom_ne_fault, ← returns_true,
      ← returns_true, returns_bind]
    exact returns_congr fun _ _ => returns_ok
  · have hfault : initTFat m x s 0 = .fault := by
      by_contra hne
      exact hpre (prescanSafe_of_ok hsz hne)
    rw [hfault]
    exact iff_of_false (fun h => h rfl) fun h => hpre h.1

/-! ## The whole run -/

/-- `otool` on a map. -/
def OtoolFits (m : Buffer) : Prop :=
  32 ≤ mapSize m → notValidFile (m.le 4 0) = false →
    if isFatFile (m.le 4 0) then FatFits m (shouldSwapFile (m.le 4 0)) (is64File (m.le 4 0))
    else ThinFits m (shouldSwapFile (m.le 4 0)) (is64File (m.le 4 0)) 0 fun _ _ => True

/-- The run stays in the map if and only if the map fits it. -/
theorem otool_inBounds {name : List UInt8} : otool m name ≠ .fault ↔ OtoolFits m := by
  unfold OtoolFits
  unfold otool
  by_cases h32 : 32 ≤ mapSize m
  · have hsz : 32 ≤ m.size := h32.trans (mapSize_le m)
    rw [if_pos ((isSafe_natCast m _).mpr h32), Buffer.field_ok (by omega), ok_bind,
      forall_prop_of_true h32]
    cases hv : notValidFile (m.le 4 0) with
    | true => exact iff_of_true (fun h => by cases h) fun h => by cases h
    | false =>
      simp only [Bool.false_eq_true, if_false, forall_const]
      rw [← returns_true, returns_bind, handleOtool]
      cases hf : isFatFile (m.le 4 0) with
      | true =>
        rw [if_pos rfl, if_pos rfl, ← handleFat_ne_fault (by omega), ← returns_true]
        exact returns_congr fun _ _ => returns_ok
      | false =>
        rw [if_neg Bool.false_ne_true, if_neg Bool.false_ne_true, ← handleNotFat_returns]
        exact returns_congr fun _ _ => returns_ok
  · rw [if_neg fun h => h32 ((isSafe_natCast m _).mp h)]
    exact iff_of_true (fun h => by cases h) fun h => absurd h h32

/-- The scan for x86_64 leaves a file of 32 bytes whose table has three entries. -/
theorem otool_shortTable : ¬ ∀ m name, 32 ≤ m.size → notValidFile (m.le 4 0) = false →
    otool m name ≠ .fault :=
  fun h => h Nm.shortTable [] (by decide) (by decide) rfl

end NmOtool.Otool
