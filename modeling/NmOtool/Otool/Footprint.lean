import NmOtool.Base.Footprint
import NmOtool.Otool.Requires

/-!
# ft_otool: what the dump of a slice reads and writes

The footprint of `handle_not_fat` on an image, access for access, and that the run is local to it:
on every image with the same bytes where it reads it writes the same text, and it rewrites nothing
but the regions it writes.
-/

namespace NmOtool

open MachO Checked Footprint

variable {R W : Nat → Prop} {m m' m₂ : Buffer} {s x : Bool} {p lc sec ptr base size i k n : Nat}

/-! ## Swaps and checks side by side -/

theorem Follows.headerImage (h : Follows R W m₂ m m')
    (hw : (rewriteIf s (p + 16) 4).Within R W) :
    Follows R W m₂ (headerImage s m p) (headerImage s m' p) := by
  cases s with
  | false => exact h
  | true => exact h.reverse (within_rewriteIf.mp hw rfl) (Nat.le_refl _) (Nat.le_refl _)

theorem Follows.commandImage (h : Follows R W m₂ m m') (hw : (rewriteIf s p 8).Within R W) :
    Follows R W m₂ (commandImage s m p) (commandImage s m' p) := by
  cases s with
  | false => exact h
  | true =>
    have hw := within_rewriteIf.mp hw rfl
    exact (h.reverse hw (Nat.le_refl _) (by omega)).reverse hw (by omega) (by omega)

theorem Follows.segmentImage (h : Follows R W m₂ m m')
    (hw : (rewriteIf s (p + if x then 50 else 34) 4).Within R W) :
    Follows R W m₂ (segmentImage s x m p) (segmentImage s x m' p) := by
  cases s with
  | false => exact h
  | true => exact h.reverse (within_rewriteIf.mp hw rfl) (Nat.le_refl _) (Nat.le_refl _)

theorem Follows.sectionImage (h : Follows R W m₂ m m')
    (hw : (rewriteIf s (p + 4) (if x then 20 else 12)).Within R W) :
    Follows R W m₂ (sectionImage s x m p) (sectionImage s x m' p) := by
  cases s with
  | false => exact h
  | true =>
    have hw := within_rewriteIf.mp hw rfl
    cases x with
    | false =>
      simp only [Bool.false_eq_true, if_false] at hw
      exact ((h.reverse hw (by omega) (by omega)).reverse hw (by omega) (by omega)).reverse hw
        (by omega) (by omega)
    | true =>
      simp only [if_true] at hw
      exact ((h.reverse hw (by omega) (by omega)).reverse hw (by omega) (by omega)).reverse hw
        (by omega) (by omega)

theorem Follows.mapSize_eq (h : Follows R W m₂ m m') : mapSize m' = mapSize m := by
  rw [mapSize, mapSize, h.agree.size]

theorem Follows.isSafe_iff (h : Follows R W m₂ m m') {z : Int} : isSafe m' z ↔ isSafe m z := by
  rw [isSafe, isSafe, h.mapSize_eq]

namespace Otool

/-! ## Names -/

/-- The bytes that a comparison with the literal reads: up to the first difference. -/
def compared (m : Buffer) : Nat → List UInt8 → Nat
  | _, [] => 1
  | p, b :: t => if m.byte p = b then compared m (p + 1) t + 1 else 1

theorem compared_congr (h : Buffer.AgreeOn R m m') {t : List UInt8}
    (hR : ∀ k, k < compared m p t → R (p + k)) :
    (Compares m' p t ↔ Compares m p t) ∧ (HasName m' p t ↔ HasName m p t) := by
  induction t generalizing p with
  | nil =>
    have hb := h.byte p (hR 0 Nat.one_pos)
    simp [Compares, HasName, Buffer.bytes_succ, h.size, hb]
  | cons b t ih =>
    have hcons : ∀ m : Buffer, HasName m p (b :: t) ↔ m.byte p = b ∧ HasName m (p + 1) t := by
      intro m
      rw [HasName, List.length_cons, Buffer.bytes_succ, List.cons_append, List.cons.injEq]
      rfl
    have hb : m'.byte p = m.byte p := by
      refine h.byte p (hR 0 ?_)
      unfold compared
      split <;> omega
    rw [hcons, hcons, Compares, Compares, h.size, hb]
    by_cases heq : m.byte p = b
    · obtain ⟨hc, hn⟩ := ih (p := p + 1) fun k hk => by
        rw [Nat.add_assoc, Nat.add_comm 1]
        exact hR (k + 1) (by rw [compared, if_pos heq]; omega)
      rw [hc, hn]
      exact ⟨Iff.rfl, Iff.rfl⟩
    · simp [heq]

/-- The test of the header at `sec`. -/
def nameFootprint (m : Buffer) (sec : Nat) (sect seg : List UInt8) : Footprint :=
  read sec (compared m sec sect) ++
    if HasName m sec sect then read (sec + 16) (compared m (sec + 16) seg) else empty

theorem nameFits_congr (h : Buffer.AgreeOn R m m') {sect seg : List UInt8}
    (hw : (nameFootprint m sec sect seg).Within R W) :
    (NameFits m' sec sect seg ↔ NameFits m sec sect seg) ∧
      (IsNamed m' sec seg sect ↔ IsNamed m sec seg sect) := by
  rw [nameFootprint, within_append, within_read] at hw
  obtain ⟨hc, hn⟩ := compared_congr h hw.1
  unfold NameFits IsNamed
  rw [hc, hn]
  by_cases hname : HasName m sec sect
  · rw [if_pos hname, within_read] at hw
    obtain ⟨hc', hn'⟩ := compared_congr h hw.2
    rw [hc', hn']
    exact ⟨Iff.rfl, Iff.rfl⟩
  · simp [hname]

/-- `text_in_seg` from section `i`, with `n` sections left. -/
def namesFootprint (m : Buffer) (x : Bool) (lc : Nat) : Nat → Nat → Footprint
  | 0, _ => empty
  | n + 1, i =>
    if isSafe m (headerOf x lc i) then
      nameFootprint m (headerOf x lc i) SECT_TEXT SEG_TEXT ++
        if IsNamed m (headerOf x lc i) SEG_TEXT SECT_TEXT then empty
        else namesFootprint m x lc n (i + 1)
    else empty

theorem namesFits_congr (h : Follows R W m₂ m m') (hw : (namesFootprint m x lc n i).Within R W) :
    (NamesFit m' x lc n i ↔ NamesFit m x lc n i) ∧ foundFrom m' x lc n i = foundFrom m x lc n i := by
  induction n generalizing i with
  | zero => exact ⟨Iff.rfl, rfl⟩
  | succ n ih =>
    unfold namesFootprint at hw
    rw [NamesFit, NamesFit, foundFrom, foundFrom]
    simp only [h.isSafe_iff]
    by_cases hs : isSafe m (headerOf x lc i)
    · rw [if_pos hs, within_append] at hw
      obtain ⟨hfit, hnamed⟩ := nameFits_congr h.agree hw.1
      rw [if_pos hs, if_pos hs, hfit]
      simp only [hnamed]
      by_cases hn : IsNamed m (headerOf x lc i) SEG_TEXT SECT_TEXT
      · simp [hn]
      · rw [if_neg hn] at hw
        obtain ⟨hrest, hfound⟩ := ih hw.2
        rw [hrest, hfound]
        exact ⟨Iff.rfl, rfl⟩
    · simp [hs]

/-! ## The search -/

/-- The walk; `K` is about the section header that it finds, and the image. -/
def searchFootprint (s x : Bool) (K : Option Nat → Buffer → Footprint) :
    Nat → Nat → Buffer → Footprint
  | 0, _, m => K none m
  | n + 1, lc, m =>
    if isSafe m lc then
      rewriteIf s lc 8 ++ read lc 4 ++
        let m := commandImage s m lc
        if IsSegment m lc then
          if isSegmantSafe m lc x then
            rewriteIf s (lc + if x then 50 else 34) 4 ++ read (lc + nsectsOffset x) 4 ++
              let m := segmentImage s x m lc
              namesFootprint m x lc (nsects m x lc) 0 ++
                match foundFrom m x lc (nsects m x lc) 0 with
                | some sec => K (some sec) m
                | none =>
                  read (lc + 4) 4 ++ searchFootprint s x K n (lc + cmdsize m lc) m
          else K none m
        else read (lc + 4) 4 ++ searchFootprint s x K n (lc + cmdsize m lc) m
    else K none m

theorem SearchFits.follow {K K' : Option Nat → Buffer → Prop}
    {F : Option Nat → Buffer → Footprint}
    (hK : ∀ sec a a', K sec a → (F sec a).Within R W → Follows R W m₂ a a' → K' sec a')
    (h : Follows R W m₂ m m') (hw : (searchFootprint s x F n lc m).Within R W)
    (hf : SearchFits s x K n lc m) : SearchFits s x K' n lc m' := by
  induction n generalizing lc m m' with
  | zero => exact hK _ _ _ hf hw h
  | succ n ih =>
    unfold searchFootprint at hw
    unfold SearchFits at hf ⊢
    simp only [h.isSafe_iff]
    by_cases hs : isSafe m lc
    · rw [if_pos hs] at hw hf ⊢
      simp only [within_append] at hw
      obtain ⟨⟨hswap, hcmd⟩, hw⟩ := hw
      obtain ⟨h4, h8, hf⟩ := hf
      rw [h.agree.size]
      refine ⟨h4, h8, ?_⟩
      have h1 := h.commandImage hswap
      have hc : cmd (commandImage s m' lc) lc = cmd (commandImage s m lc) lc :=
        h1.le (within_read.mp hcmd)
      have hseg : IsSegment (commandImage s m' lc) lc ↔ IsSegment (commandImage s m lc) lc := by
        rw [IsSegment, IsSegment, hc]
      simp only [hseg]
      by_cases hg : IsSegment (commandImage s m lc) lc
      · rw [if_pos hg] at hw hf ⊢
        have hss : isSegmantSafe (commandImage s m' lc) lc x ↔
            isSegmantSafe (commandImage s m lc) lc x := h1.isSafe_iff
        simp only [hss]
        by_cases hok : isSegmantSafe (commandImage s m lc) lc x
        · rw [if_pos hok] at hw hf ⊢
          simp only [within_append] at hw
          obtain ⟨⟨hswap, hnsects⟩, hnames, hw⟩ := hw
          have h2 := h1.segmentImage hswap
          have hn : nsects (segmentImage s x (commandImage s m' lc) lc) x lc =
              nsects (segmentImage s x (commandImage s m lc) lc) x lc :=
            h2.le (within_read.mp hnsects)
          obtain ⟨hfit, hfound⟩ := namesFits_congr h2 hnames
          simp only [hn, hfit, hfound]
          refine ⟨hf.1, ?_⟩
          have hf := hf.2
          cases hres : foundFrom (segmentImage s x (commandImage s m lc) lc) x lc
              (nsects (segmentImage s x (commandImage s m lc) lc) x lc) 0 with
          | some sec =>
            rw [hres] at hf hw
            exact hK _ _ _ hf hw h2
          | none =>
            rw [hres] at hf hw
            simp only [within_append] at hw
            have hsize : cmdsize (segmentImage s x (commandImage s m' lc) lc) lc =
                cmdsize (segmentImage s x (commandImage s m lc) lc) lc :=
              h2.le (within_read.mp hw.1)
            rw [hsize]
            exact ih h2 hw.2 hf
        · rw [if_neg hok] at hw hf ⊢
          exact hK _ _ _ hf hw h1
      · rw [if_neg hg] at hw hf ⊢
        simp only [within_append] at hw
        have hsize : cmdsize (commandImage s m' lc) lc = cmdsize (commandImage s m lc) lc :=
          h1.le (within_read.mp hw.1)
        rw [hsize, h1.agree.size]
        exact ⟨hf.1, ih h1 hw.2 hf.2⟩
    · rw [if_neg hs] at hw hf ⊢
      exact hK _ _ _ hf hw h

/-- What follows a search lies within what the whole does. -/
theorem within_of_found {F : Option Nat → Buffer → Footprint} {found : Option Nat} {a : Buffer}
    (h : getTextSectionFrom s x n lc m = .ok (found, a))
    (hw : (searchFootprint s x F n lc m).Within R W) : (F found a).Within R W := by
  have hf : SearchFits s x (fun r b => r = found ∧ b = a) n lc m :=
    getTextSectionFrom_returns.mp ⟨_, h, rfl, rfl⟩
  have hfol : SearchFits s x (fun _ _ => (F found a).Within R W) n lc m := by
    refine SearchFits.follow (fun r b _ hr hin _ => ?_) (.start .refl) hw hf
    obtain ⟨rfl, rfl⟩ := hr
    exact hin
  obtain ⟨_, -, hin⟩ := getTextSectionFrom_returns.mpr hfol
  exact hin

/-- The search alone. -/
theorem searchFootprint_alone {F : Option Nat → Buffer → Footprint}
    (hw : (searchFootprint s x F n lc m).Within R W) :
    (searchFootprint s x (fun _ _ => empty) n lc m).Within R W := by
  induction n generalizing lc m with
  | zero => exact within_empty
  | succ n ih =>
    unfold searchFootprint at hw ⊢
    by_cases hs : isSafe m lc
    · rw [if_pos hs, within_append] at hw ⊢
      refine ⟨hw.1, ?_⟩
      have hw := hw.2
      simp only at hw ⊢
      by_cases hg : IsSegment (commandImage s m lc) lc
      · rw [if_pos hg] at hw ⊢
        by_cases hok : isSegmantSafe (commandImage s m lc) lc x
        · rw [if_pos hok] at hw ⊢
          simp only [within_append] at hw ⊢
          refine ⟨hw.1, hw.2.1, ?_⟩
          have hw := hw.2.2
          cases hres : foundFrom (segmentImage s x (commandImage s m lc) lc) x lc
              (nsects (segmentImage s x (commandImage s m lc) lc) x lc) 0 with
          | some sec => exact within_empty
          | none =>
            rw [hres] at hw
            rw [within_append] at hw ⊢
            exact ⟨hw.1, ih hw.2⟩
        · rw [if_neg hok]
          exact within_empty
      · rw [if_neg hg, within_append] at hw ⊢
        exact ⟨hw.1, ih hw.2⟩
    · rw [if_neg hs]
      exact within_empty

/-! ## The dump -/

/-- The address, kept in the section header, and the lines. -/
def dumpFootprint (m : Buffer) (x : Bool) (add base size : Nat) : Footprint :=
  if linesShown m base size = 0 then empty
  else rewrite add (wordSize x) ++ read base (min size (16 * linesShown m base size))

theorem linesShown_congr (h : Follows R W m₂ m m') :
    linesShown m' base size = linesShown m base size := by
  rw [linesShown, linesShown, h.mapSize_eq]

theorem dumpSection_follow {add : Nat} (h : Follows R W m₂ m m')
    (hw : (dumpFootprint m x add base size).Within R W) :
    shownText m' x add base size = shownText m x add base size ∧
      Follows R W m₂ (advance m x add (linesShown m base size))
        (advance m' x add (linesShown m base size)) := by
  unfold dumpFootprint at hw
  by_cases h0 : linesShown m base size = 0
  · rw [shownText, shownText, linesShown_congr h, h0, advance_zero, advance_zero]
    exact ⟨rfl, h⟩
  · rw [if_neg h0, within_append] at hw
    have haddr : m'.le (wordSize x) add = m.le (wordSize x) add :=
      h.le (within_rewrite.mp hw.1).1
    have hadv : ∀ k, Follows R W m₂ (advance m x add k) (advance m' x add k) := by
      intro k
      rw [advance, advance, haddr]
      exact h.put hw.1
    refine ⟨?_, hadv _⟩
    rw [shownText, shownText, linesShown_congr h]
    apply List.flatMap_congr
    intro k hk
    have hk := List.mem_range.mp hk
    rw [shownLine, shownLine, haddr, Buffer.bytes_congr fun j hj => ?_]
    refine (hadv k).agree.byte _ ?_
    rw [Nat.add_assoc]
    exact within_read.mp hw.2 (16 * k + j) (by omega)

/-- The first line shows the address as it is. -/
theorem shownText_first {a : Nat} (h : 0 < linesShown m base size) :
    ∃ bs rest, shownText m x a base size =
      textLine (wordSize x) (m.le (wordSize x) a) bs ++ rest := by
  obtain ⟨c, hc⟩ : ∃ c, linesShown m base size = c + 1 :=
    ⟨linesShown m base size - 1, by omega⟩
  rw [shownText, hc, List.range_succ_eq_map, List.flatMap_cons, shownLine, Nat.mul_zero,
    Nat.add_zero, Nat.mod_eq_of_lt m.le_lt]
  exact ⟨_, _, rfl⟩

/-- The header that the search finds, and the lines behind it. -/
def sectionFootprint (s x : Bool) (ptr : Nat) : Option Nat → Buffer → Footprint
  | none, _ => empty
  | some sec, m =>
    if isSafe m (sec + sectionSize x : Nat) then
      rewriteIf s (sec + 4) (if x then 20 else 12) ++
        read (sec + 32 + wordSize x) (wordSize x) ++ read (sec + 32 + 2 * wordSize x) 4 ++
        let m := sectionImage s x m sec
        dumpFootprint m x (sec + 32) (ptr + secOffset m x sec) (secSize m x sec)
    else empty

theorem SectionFits.follow {K K' : List UInt8 → Buffer → Prop} {found : Option Nat}
    (hK : ∀ out a a', K out a → Follows R W m₂ a a' → K' out a') (h : Follows R W m₂ m m')
    (hw : (sectionFootprint s x ptr found m).Within R W) (hf : SectionFits s x ptr K found m) :
    SectionFits s x ptr K' found m' := by
  cases found with
  | none => exact hK _ _ _ hf h
  | some sec =>
    rw [sectionFootprint] at hw
    rw [SectionFits] at hf ⊢
    simp only [h.isSafe_iff]
    by_cases hs : isSafe m (sec + sectionSize x : Nat)
    · rw [if_pos hs] at hw hf ⊢
      simp only [within_append] at hw
      obtain ⟨⟨⟨hswap, hsize⟩, hoffset⟩, hdump⟩ := hw
      have h1 := h.sectionImage hswap
      have hsz : secSize (sectionImage s x m' sec) x sec =
          secSize (sectionImage s x m sec) x sec := h1.le (within_read.mp hsize)
      have hoff : secOffset (sectionImage s x m' sec) x sec =
          secOffset (sectionImage s x m sec) x sec := h1.le (within_read.mp hoffset)
      obtain ⟨htext, h2⟩ := dumpSection_follow h1 hdump
      simp only [hsz, hoff, htext, linesShown_congr h1]
      refine ⟨fun k hk => ?_, hK _ _ _ hf.2 h2⟩
      have hline := hf.1 k (linesShown_congr h1 ▸ hk)
      rwa [LineFits, ← h1.agree.size] at hline
    · rw [if_neg hs] at hw hf ⊢
      exact hK _ _ _ hf h

/-! ## A slice -/

/-- `handle_not_fat` on the image at `ptr`; `K` as for the search. -/
def thinFootprint (m : Buffer) (s x : Bool) (ptr : Nat) (K : Option Nat → Buffer → Footprint) :
    Footprint :=
  if isSafe m ptr ∧ isLcSafe m ptr x then
    rewriteIf s (ptr + 16) 4 ++ read (ptr + 16) 4 ++
      let m := headerImage s m ptr
      searchFootprint s x K (ncmds m ptr) (ptr + headerSize x) m
  else empty

theorem thinFootprint_alone {F : Option Nat → Buffer → Footprint}
    (hw : (thinFootprint m s x ptr F).Within R W) :
    (thinFootprint m s x ptr fun _ _ => empty).Within R W := by
  unfold thinFootprint at hw ⊢
  by_cases hs : isSafe m ptr ∧ isLcSafe m ptr x
  · rw [if_pos hs, within_append] at hw ⊢
    exact ⟨hw.1, searchFootprint_alone hw.2⟩
  · rw [if_neg hs]
    exact within_empty

theorem ThinFits.follow {K K' : List UInt8 → Buffer → Prop}
    (hK : ∀ out a a', K out a → Follows R W m₂ a a' → K' out a') (h : Follows R W m₂ m m')
    (hw : (thinFootprint m s x ptr (sectionFootprint s x ptr)).Within R W)
    (hf : ThinFits m s x ptr K) : ThinFits m' s x ptr K' := by
  unfold thinFootprint at hw
  unfold ThinFits at hf ⊢
  have hlc : isLcSafe m' ptr x ↔ isLcSafe m ptr x := by
    rw [isLcSafe_iff, isLcSafe_iff, h.mapSize_eq]
  simp only [h.isSafe_iff, hlc]
  by_cases hs : isSafe m ptr ∧ isLcSafe m ptr x
  · rw [if_pos hs] at hw hf ⊢
    simp only [within_append] at hw
    obtain ⟨⟨hswap, hncmds⟩, hw⟩ := hw
    have h1 := h.headerImage hswap
    have hn : ncmds (headerImage s m' ptr) ptr = ncmds (headerImage s m ptr) ptr :=
      h1.le (within_read.mp hncmds)
    simp only [hn]
    exact SearchFits.follow (fun _ _ _ hf hw h => hf.follow hK h hw) h1 hw hf
  · rw [if_neg hs] at hw hf ⊢
    exact hK _ _ _ hf h

end Otool

end NmOtool
