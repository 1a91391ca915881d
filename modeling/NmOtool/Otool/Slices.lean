import NmOtool.MachO.TextFile
import NmOtool.Otool.Host
import NmOtool.Otool.Footprint

/-!
# ft_otool: the dumps of a fat file

`handle_fat` dumps the slices one behind the other, and a dump rewrites the image: the addresses of
its lines, and the swaps of a slice in the other byte order. As long as no dump rewrites what a
later entry reads, the texts are those that `handle_not_fat` writes on the original image. Two
entries with the same slice are not of this kind.
-/

namespace NmOtool.Otool

open MachO Checked Footprint
open Nm (TFat HostEntry entryType entrySlice raised raised_eq fatOf nfatArch_ok initTFat_ok
  prescanSafe_of_ok arrayAt)

variable {R W : Nat → Prop} {m m' m₂ : Buffer} {s x : Bool} {array ptr size p sec i j k n : Nat}
  {fat fat' : TFat} {out : List UInt8}

/-! ## An entry -/

/-- `handle_each_arch` on the entry at `array`; `K` is about the section header that the search in
the slice finds. -/
def entryFootprint (K : Bool → Bool → Nat → Option Nat → Buffer → Footprint) (m : Buffer)
    (array ptr : Nat) (fat : TFat) : Footprint :=
  if isSafe m array then
    read array 4 ++
      if HostEntry m array fat then
        let p := entrySlice m array ptr fat
        read (array + 8) (wordSize fat.is64) ++ read p 4 ++
          if notValidHeader (m.le 4 p) then empty
          else
            let s := shouldSwapFile (m.le 4 p)
            let x := is64File (m.le 4 p)
            thinFootprint m s x p (K s x p)
      else empty
  else empty

theorem EntryFits.follow {F : Bool → Bool → Nat → Option Nat → Buffer → Footprint}
    {K K' : List UInt8 → TFat → Buffer → Prop} (h : Follows R W m₂ m m')
    (hw : (entryFootprint F m array ptr fat).Within R W) (hnil : K [] fat m → K' [] fat m')
    (hthin : let p := entrySlice m array ptr fat
      let s := shouldSwapFile (m.le 4 p)
      let x := is64File (m.le 4 p)
      (thinFootprint m s x p (F s x p)).Within R W →
        ThinFits m s x p (fun out a => K out (raised m array fat) a) →
        ThinFits m' s x p (fun out a => K' out (raised m array fat) a))
    (hf : EntryFits K m array ptr fat) : EntryFits K' m' array ptr fat := by
  unfold entryFootprint at hw
  unfold EntryFits at hf ⊢
  simp only [h.isSafe_iff]
  by_cases hs : isSafe m array
  · rw [if_pos hs] at hw hf ⊢
    rw [within_append] at hw
    obtain ⟨htype, hw⟩ := hw
    have htype : entryType m' array fat = entryType m array fat := by
      rw [entryType, entryType, h.le (within_read.mp htype)]
    have hhost : HostEntry m' array fat ↔ HostEntry m array fat := by
      rw [HostEntry, HostEntry, htype]
    have hraised : raised m' array fat = raised m array fat := by rw [raised, raised, htype]
    rw [h.agree.size]
    refine ⟨hf.1, ?_⟩
    have hf := hf.2
    simp only [hhost]
    by_cases he : HostEntry m array fat
    · rw [if_pos he] at hw hf ⊢
      simp only [within_append] at hw
      obtain ⟨⟨hoffset, hmagic⟩, hw⟩ := hw
      have hslice : entrySlice m' array ptr fat = entrySlice m array ptr fat := by
        rw [entrySlice, entrySlice, h.le (within_read.mp hoffset)]
      have hm : m'.le 4 (entrySlice m array ptr fat) = m.le 4 (entrySlice m array ptr fat) :=
        h.le (within_read.mp hmagic)
      simp only [hslice, hm, hraised]
      refine ⟨hf.1, ?_⟩
      have hf := hf.2
      by_cases hv : notValidHeader (m.le 4 (entrySlice m array ptr fat)) = true
      · rw [if_pos hv] at hf ⊢
        exact hnil hf
      · rw [if_neg hv] at hw hf ⊢
        exact hthin hw hf
    · rw [if_neg he] at hf ⊢
      exact hnil hf
  · rw [if_neg hs] at hf ⊢
    exact hnil hf

/-- `handle_each_arch` with the text and `t_fat` as its value. -/
def entryRun (array ptr : Nat) (fat : TFat) (m : Buffer) :
    Checked ((List UInt8 × TFat) × Buffer) := do
  let (_, out, m, fat) ← handleEachArch m array ptr fat
  pure ((out, fat), m)

theorem entryRun_returns {K : List UInt8 → TFat → Buffer → Prop} :
    ((entryRun array ptr fat m).Returns fun r => K r.1.1 r.1.2 r.2) ↔
      EntryFits K m array ptr fat := by
  rw [← handleEachArch_returns, entryRun, returns_bind]
  exact returns_congr fun _ _ => returns_ok

/-- The call is local to its footprint. -/
theorem entryRun_bounds (h : entryRun array ptr fat m = .ok ((out, fat'), m')) :
    (entryFootprint sectionFootprint m array ptr fat).Bounds (entryRun array ptr fat) m
      (out, fat') m' := by
  intro m₁ hag
  have hfits : EntryFits (fun o f a => (o, f) = (out, fat') ∧ a = m') m array ptr fat :=
    entryRun_returns.mp ⟨_, h, rfl, rfl⟩
  have hfol : EntryFits (fun o f a => (o, f) = (out, fat') ∧
      Follows (entryFootprint sectionFootprint m array ptr fat).Reads
        (entryFootprint sectionFootprint m array ptr fat).Writes m₁ m' a) m₁ array ptr fat := by
    refine EntryFits.follow (.start hag) within_self ?_ ?_ hfits
    · rintro ⟨hval, rfl⟩
      exact ⟨hval, .start hag⟩
    · intro p s x hw hf
      refine ThinFits.follow (fun o a a' hK hfol => ?_) (.start hag) hw hf
      obtain ⟨hval, rfl⟩ := hK
      exact ⟨hval, hfol⟩
  obtain ⟨r, hr, hval, hfol⟩ := entryRun_returns.mpr hfol
  exact ⟨r.2, hr.trans (congrArg ok (Prod.ext hval rfl)), hfol⟩

/-! ## The loop, entry for entry -/

/-- The loop of `handleFat` from entry `i`, with `n` entries left: the text of each. -/
def dumpsFrom (ptr size : Nat) :
    Nat → Nat → TFat → Buffer → Checked (List (List UInt8) × TFat × Buffer)
  | 0, _, fat, m => pure ([], fat, m)
  | n + 1, i, fat, m => do
    let ((out, fat), m) ← entryRun (ptr + i * size + fatHeaderSize) ptr fat m
    let (outs, fat, m) ← dumpsFrom ptr size n (i + 1) fat m
    pure (out :: outs, fat, m)

theorem handleFatFrom_eq : handleFatFrom ptr size n i fat m =
    dumpsFrom ptr size n i fat m >>= fun r => pure (r.1.flatten, r.2.2) := by
  induction n generalizing i fat m with
  | zero => rfl
  | succ n ih =>
    rw [handleFatFrom, dumpsFrom, entryRun]
    cases handleEachArch m (ptr + i * size + fatHeaderSize) ptr fat with
    | fault => rfl
    | ok r =>
      obtain ⟨ret, out, m₁, fat₁⟩ := r
      simp only [ok_bind, pure_eq, ih]
      cases dumpsFrom ptr size n (i + 1) fat₁ m₁ <;> rfl

/-- The entries in a row, while none of them changes `t_fat`. -/
theorem dumpsFrom_of_runAll {out : Nat → List UInt8}
    (h : runAll (fun k => entryRun (archAt x k) 0 fat) n i m =
      .ok ((List.range' i n).map fun k => (out k, fat), m')) :
    dumpsFrom 0 (fatArchSize x) n i fat m = .ok ((List.range' i n).map out, fat, m') := by
  induction n generalizing i m with
  | zero =>
    cases h
    rfl
  | succ n ih =>
    unfold runAll at h
    obtain ⟨⟨a, m₁⟩, hrun, h⟩ := bind_eq_ok.mp h
    obtain ⟨⟨as, m₂⟩, hrest, h⟩ := bind_eq_ok.mp h
    simp only [List.range'_succ, List.map_cons, pure_eq, ok.injEq, Prod.mk.injEq,
      List.cons.injEq] at h
    obtain ⟨⟨rfl, rfl⟩, rfl⟩ := h
    rw [dumpsFrom, arrayAt, hrun, ok_bind]
    simp only
    rw [ih hrest]
    rfl

/-- The entry behind the first `a`. -/
theorem dumpsFrom_at {a b : Nat} {os os' : List (List UInt8)} {fat₁ fat₂ : TFat} {m₁ m₂ : Buffer}
    (h : dumpsFrom ptr size (a + (b + 1)) i fat m = .ok (os', fat₂, m₂))
    (ha : dumpsFrom ptr size a i fat m = .ok (os, fat₁, m₁)) :
    ∃ (out : List UInt8) (r : TFat × Buffer), os'[os.length]? = some out ∧
      entryRun (ptr + (i + a) * size + fatHeaderSize) ptr fat₁ m₁ = .ok ((out, r.1), r.2) := by
  induction a generalizing i fat m os os' with
  | zero =>
    cases ha
    rw [Nat.zero_add, dumpsFrom] at h
    obtain ⟨⟨⟨out, fat₃⟩, m₃⟩, hrun, h⟩ := bind_eq_ok.mp h
    obtain ⟨⟨outs, fat₄, m₄⟩, -, h⟩ := bind_eq_ok.mp h
    cases h
    exact ⟨out, (fat₃, m₃), rfl, hrun⟩
  | succ a ih =>
    rw [Nat.add_right_comm, dumpsFrom] at h
    unfold dumpsFrom at ha
    obtain ⟨⟨⟨out, fat₃⟩, m₃⟩, hrun, h⟩ := bind_eq_ok.mp h
    rw [hrun, ok_bind] at ha
    obtain ⟨⟨outs, fat₄, m₄⟩, hrest, h⟩ := bind_eq_ok.mp h
    obtain ⟨⟨outs', fat₅, m₅⟩, hrest', ha⟩ := bind_eq_ok.mp ha
    cases h
    cases ha
    obtain ⟨out', r, hout, hcall⟩ := ih hrest hrest'
    rw [show i + 1 + a = i + (a + 1) by omega] at hcall
    exact ⟨out', r, by simpa using hout, hcall⟩

/-! ## The original image -/

/-- What `handle_not_fat` writes for entry `k` on the image itself: nothing unless the entry is for
the host and its slice begins with a thin magic number. -/
def sliceDump (m : Buffer) (x s : Bool) (k : Nat) : Checked (List UInt8) :=
  let p := archOffset m x s k
  if Eligible m x s k ∧ notValidHeader (m.le 4 p) = false then do
    let (_, out, _) ← handleNotFat m (is64File (m.le 4 p)) (shouldSwapFile (m.le 4 p)) p
    pure out
  else pure []

/-- The table and the slices lie in the file, and each dump on the image itself stays there. The
first 32 bytes `otool` has checked. -/
structure Inside (m : Buffer) (x s : Bool) : Prop where
  header : 32 ≤ mapSize m
  table : archAt x (nfatArchs m s) ≤ m.size
  slice : ∀ k, k < nfatArchs m s → Eligible m x s k → archOffset m x s k + 4 ≤ m.size
  text : ∀ k, k < nfatArchs m s → sliceDump m x s k ≠ .fault

/-- `g_map_size` reaches the entries whose slices are to be dumped. -/
def Reached (m : Buffer) (x s : Bool) : Prop :=
  ∀ k, k < nfatArchs m s → Eligible m x s k →
    notValidHeader (m.le 4 (archOffset m x s k)) = false → archAt x k ≤ mapSize m

theorem reached_of_lt (h : Inside m x s) (hsz : m.size < 2 ^ 32) : Reached m x s := by
  intro k hk _ _
  have := h.table
  have := archAt_succ_le (x := x) hk
  rw [mapSize_eq hsz]
  omega

theorem hostEntry_fatOf : HostEntry m (archAt x k) (fatOf m x s) ↔ Eligible m x s k := by
  rw [HostEntry, Eligible, fatOf, decide_eq_false_iff_not]
  rfl

theorem entrySlice_fatOf : entrySlice m (archAt x k) 0 (fatOf m x s) = archOffset m x s k :=
  Nat.zero_add _

/-- On the image itself, each call writes what it has to and leaves `t_fat` as it is. -/
theorem entryRun_table (hin : Inside m x s) (hr : Reached m x s) (hk : k < nfatArchs m s) :
    ∃ out a, sliceDump m x s k = .ok out ∧
      entryRun (archAt x k) 0 (fatOf m x s) m = .ok ((out, fatOf m x s), a) := by
  have hfits : EntryFits (fun o f _ => sliceDump m x s k = .ok o ∧ f = fatOf m x s) m
      (archAt x k) 0 (fatOf m x s) := by
    have htab := hin.table
    have hent := archAt_succ_le (x := x) hk
    have hword := wordSize_le_fatArch x
    have hdump := hin.text k hk
    have hskip : ¬ (Eligible m x s k ∧ notValidHeader (m.le 4 (archOffset m x s k)) = false) →
        sliceDump m x s k = .ok [] := fun h => if_neg h
    unfold EntryFits
    by_cases hs : isSafe m (archAt x k)
    · rw [if_pos hs]
      refine ⟨by omega, ?_⟩
      simp only [hostEntry_fatOf, entrySlice_fatOf]
      by_cases he : Eligible m x s k
      · rw [if_pos he]
        refine ⟨⟨?_, hin.slice k hk he⟩, ?_⟩
        · change archAt x k + 8 + wordSize x ≤ m.size
          omega
        · cases hv : notValidHeader (m.le 4 (archOffset m x s k)) with
          | true => exact ⟨hskip fun h => absurd (h.2.symm.trans hv) (by decide), trivial⟩
          | false =>
            rw [if_neg Bool.false_ne_true, ← handleNotFat_returns, raised_eq .refl hk]
            have hthin : sliceDump m x s k = _ := if_pos ⟨he, hv⟩
            rw [hthin] at hdump ⊢
            cases hrun : handleNotFat m (is64File (m.le 4 (archOffset m x s k)))
                (shouldSwapFile (m.le 4 (archOffset m x s k))) (archOffset m x s k) with
            | fault =>
              rw [hrun] at hdump
              exact absurd rfl hdump
            | ok r => exact ⟨r, rfl, rfl, rfl⟩
      · rw [if_neg he]
        exact ⟨hskip fun h => he h.1, trivial⟩
    · rw [if_neg hs]
      exact ⟨hskip fun h => hs ((isSafe_natCast m _).mpr (hr k hk h.1 h.2)), rfl⟩
  obtain ⟨⟨⟨out, f⟩, a⟩, hrun, hdump, hf⟩ := entryRun_returns.mpr hfits
  cases hf
  exact ⟨out, a, hdump, hrun⟩

/-! ## Dumps apart -/

/-- The text of `handle_fat` is, entry for entry, that of the dumps on the image itself. -/
def Concatenates (m : Buffer) (x s : Bool) : Prop :=
  ∃ (out : Nat → List UInt8) (m' : Buffer) (fat' : TFat),
    handleFat m x s 0 = .ok (0, (List.range (nfatArchs m s)).flatMap out, m') ∧
      dumpsFrom 0 (fatArchSize x) (nfatArchs m s) 0 (fatOf m x s) m =
        .ok ((List.range (nfatArchs m s)).map out, fat', m') ∧
      ∀ k, k < nfatArchs m s → sliceDump m x s k = .ok (out k)

/-- The footprint of entry `k` on the image itself. -/
def entryAt (m : Buffer) (x s : Bool) (k : Nat) : Footprint :=
  entryFootprint sectionFootprint m (archAt x k) 0 (fatOf m x s)

/-- No entry rewrites what a later one reads. -/
def DumpsApart (m : Buffer) (x s : Bool) : Prop :=
  ∀ k, k < nfatArchs m s → ∀ j, j < k → (entryAt m x s j).Apart (entryAt m x s k)

instance (m : Buffer) (x s : Bool) : Decidable (DumpsApart m x s) :=
  inferInstanceAs (Decidable (∀ k, k < _ → ∀ j, j < k → _))

/-- The runs that the entries have on the image itself. -/
theorem exists_runs (hin : Inside m x s) (hr : Reached m x s) :
    ∃ (out : Nat → List UInt8) (a : Nat → Buffer), ∀ k, k < nfatArchs m s →
      sliceDump m x s k = .ok (out k) ∧
        entryRun (archAt x k) 0 (fatOf m x s) m = .ok ((out k, fatOf m x s), a k) := by
  have hall : ∀ k, ∃ r : List UInt8 × Buffer, k < nfatArchs m s → sliceDump m x s k = .ok r.1 ∧
      entryRun (archAt x k) 0 (fatOf m x s) m = .ok ((r.1, fatOf m x s), r.2) := by
    intro k
    by_cases hk : k < nfatArchs m s
    · obtain ⟨out, a, hdump, hrun⟩ := entryRun_table hin hr hk
      exact ⟨(out, a), fun _ => ⟨hdump, hrun⟩⟩
    · exact ⟨([], m), fun h => absurd h hk⟩
  choose r hr using hall
  exact ⟨fun k => (r k).1, fun k => (r k).2, hr⟩

theorem handleFat_dumpsFrom (hin : Inside m x s) :
    handleFat m x s 0 = dumpsFrom 0 (fatArchSize x) (nfatArchs m s) 0 (fatOf m x s) m >>=
      fun r => pure (0, r.1.flatten, r.2.2) := by
  have h32 := hin.header
  have hsz : 32 ≤ m.size := h32.trans (mapSize_le m)
  have hpre : Nm.PrescanSafe m x s := fun k hk _ => by
    have := archAt_succ_le (x := x) hk
    have := wordSize_le_fatArch x
    have := hin.table
    omega
  have hsafe : isSafe m ((0 + fatHeaderSize : Nat) : Int) :=
    (isSafe_natCast m _).mpr (by unfold fatHeaderSize; omega)
  rw [handleFat, if_pos hsafe, nfatArch_ok (by omega), ok_bind, initTFat_ok (by omega) hpre,
    ok_bind, handleFatFrom_eq]
  cases dumpsFrom 0 (fatArchSize x) (nfatArchs m s) 0 (fatOf m x s) m <;> rfl

theorem concatenates_of_apart (hin : Inside m x s) (hr : Reached m x s)
    (hap : DumpsApart m x s) : Concatenates m x s := by
  obtain ⟨out, a, hruns⟩ := exists_runs hin hr
  obtain ⟨M, -, hall, -⟩ := runAll_apart (i := 0) (n := nfatArchs m s)
    (fun k _ hk => entryRun_bounds (hruns k (by omega)).2)
    (fun j k _ hjk hk => hap k (by omega) j hjk) fun _ _ _ => .refl (m := m)
  have hdumps := dumpsFrom_of_runAll hall
  rw [← List.range_eq_range'] at hdumps
  refine ⟨out, M (0 + nfatArchs m s), fatOf m x s, ?_, hdumps, fun k hk => (hruns k hk).1⟩
  rw [handleFat_dumpsFrom hin, hdumps, ok_bind, List.flatMap_def]
  rfl

/-! ## A slice twice -/

/-- The image at `p` is in host order, and lines of its text section are shown; the header of the
section is at `sec`. -/
structure ShowsText (m : Buffer) (w : Bool) (p sec : Nat) : Prop where
  magic : m.le 4 p = if w then MH_MAGIC_64 else MH_MAGIC
  safe : isSafe m p ∧ isLcSafe m p w
  found : getTextSection ⟨ncmds m p, headerSize w⟩ p false w m = .ok (some sec, m)
  header : isSafe m (sec + sectionSize w : Nat)
  shown : 0 < linesShown m (p + secOffset m w sec) (secSize m w sec)
  few : linesShown m (p + secOffset m w sec) (secSize m w sec) < 2 ^ 28

theorem ShowsText.kind {w : Bool} (h : ShowsText m w p sec) : notValidHeader (m.le 4 p) = false ∧
    shouldSwapFile (m.le 4 p) = false ∧ is64File (m.le 4 p) = w := by
  rw [h.magic]
  cases w <;> decide

/-- Entry `k` is for the host, and its slice is at `p`. -/
def LeadsTo (m : Buffer) (x s : Bool) (k p : Nat) : Prop :=
  Eligible m x s k ∧ archOffset m x s k = p

instance (m : Buffer) (x s : Bool) (k p : Nat) : Decidable (LeadsTo m x s k p) :=
  inferInstanceAs (Decidable (_ ∧ _))

/-- The entries lead to one image, and the address that its lines have is not among the bytes read
before they are shown. -/
def Repeats (m : Buffer) (x s : Bool) (j k : Nat) : Prop :=
  ∃ w p sec, ShowsText m w p sec ∧ LeadsTo m x s j p ∧ LeadsTo m x s k p ∧
    (rewrite (sec + 32) (wordSize w)).Apart
      (entryFootprint (fun _ _ _ _ _ => empty) m (archAt x k) 0 (fatOf m x s))

/-- What the run on the image writes. -/
theorem ThinFits.shown {w : Bool} {K : List UInt8 → Buffer → Prop} (h : ShowsText m w p sec)
    (hf : ThinFits m false w p K) :
    LinesFit m (p + secOffset m w sec) (secSize m w sec) ∧
      K (heading ++ shownText m w (sec + 32) (p + secOffset m w sec) (secSize m w sec))
        (advance m w (sec + 32) (linesShown m (p + secOffset m w sec) (secSize m w sec))) := by
  rw [ThinFits, if_pos h.safe] at hf
  obtain ⟨r, hr, hsec⟩ := getTextSectionFrom_returns.mpr hf
  have hfound : getTextSectionFrom false w (ncmds m p) (p + headerSize w) m = .ok (some sec, m) :=
    h.found
  obtain rfl := Checked.ok.inj (hr.symm.trans hfound)
  rw [SectionFits, if_pos h.header] at hsec
  exact hsec

theorem EntryFits.shown {w : Bool} {K : List UInt8 → TFat → Buffer → Prop}
    (h : ShowsText m w p sec) (hl : LeadsTo m x s k p) (hs : isSafe m (archAt x k))
    (hf : EntryFits K m (archAt x k) 0 (fatOf m x s)) :
    LinesFit m (p + secOffset m w sec) (secSize m w sec) ∧
      K (heading ++ shownText m w (sec + 32) (p + secOffset m w sec) (secSize m w sec))
        (raised m (archAt x k) (fatOf m x s))
        (advance m w (sec + 32) (linesShown m (p + secOffset m w sec) (secSize m w sec))) := by
  obtain ⟨hv, hswap, hw⟩ := h.kind
  rw [EntryFits, if_pos hs] at hf
  have hf := hf.2
  rw [if_pos (hostEntry_fatOf.mpr hl.1)] at hf
  simp only [entrySlice_fatOf, hl.2, hv, hswap, hw] at hf
  have hf := hf.2
  rw [if_neg Bool.false_ne_true] at hf
  exact ThinFits.shown h hf

/-- The footprint of the dump is part of that of the entry. -/
theorem entryAt_section {w : Bool} (h : ShowsText m w p sec) (hl : LeadsTo m x s k p)
    (hs : isSafe m (archAt x k)) (hw : (entryAt m x s k).Within R W) :
    (sectionFootprint false w p (some sec) m).Within R W := by
  obtain ⟨hv, hswap, hx⟩ := h.kind
  rw [entryAt, entryFootprint, if_pos hs, if_pos (hostEntry_fatOf.mpr hl.1)] at hw
  simp only [entrySlice_fatOf, hl.2, hv, hswap, hx, within_append] at hw
  have hw := hw.2.2
  rw [if_neg Bool.false_ne_true, thinFootprint, if_pos h.safe, within_append] at hw
  exact within_of_found h.found hw.2

theorem entryAt_alone (hw : (entryAt m x s k).Within R W) :
    (entryFootprint (fun _ _ _ _ _ => empty) m (archAt x k) 0 (fatOf m x s)).Within R W := by
  rw [entryAt, entryFootprint] at hw
  unfold entryFootprint
  by_cases hs : isSafe m (archAt x k)
  · rw [if_pos hs, within_append] at hw ⊢
    refine ⟨hw.1, ?_⟩
    have hw := hw.2
    by_cases he : HostEntry m (archAt x k) (fatOf m x s)
    · rw [if_pos he] at hw ⊢
      simp only [within_append] at hw ⊢
      refine ⟨hw.1, ?_⟩
      have hw := hw.2
      by_cases hv : notValidHeader (m.le 4 (entrySlice m (archAt x k) 0 (fatOf m x s))) = true
      · rw [if_pos hv]
        exact within_empty
      · rw [if_neg hv] at hw ⊢
        exact thinFootprint_alone hw
    · rw [if_neg he]
      exact within_empty
  · rw [if_neg hs]
    exact within_empty

/-- What the dump of the section reads and writes beside the lines. -/
theorem ShowsText.within {w : Bool} (h : ShowsText m w p sec)
    (hw : (sectionFootprint false w p (some sec) m).Within R W) :
    (read (sec + 32 + wordSize w) (wordSize w)).Within R W ∧
      (read (sec + 32 + 2 * wordSize w) 4).Within R W ∧
      (rewrite (sec + 32) (wordSize w)).Within R W := by
  rw [sectionFootprint, if_pos h.header] at hw
  simp only [within_append, sectionImage_false] at hw
  have hdump := hw.2
  rw [dumpFootprint, if_neg (Nat.pos_iff_ne_zero.mp h.shown), within_append] at hdump
  exact ⟨hw.1.1.2, hw.1.2, hdump.1⟩

/-- On an image that differs where the address is, the run shows the address of that image. -/
theorem ThinFits.again {w : Bool} {m₁ : Buffer} (h : ShowsText m w p sec)
    (hfit : LinesFit m (p + secOffset m w sec) (secSize m w sec)) (hag : Buffer.AgreeOn R m m₁)
    (hw : (thinFootprint m false w p fun _ _ => empty).Within R R)
    (hsize : (read (sec + 32 + wordSize w) (wordSize w)).Within R R)
    (hoffset : (read (sec + 32 + 2 * wordSize w) 4).Within R R)
    (haddr : ∀ k, k < wordSize w → ¬ R (sec + 32 + k)) :
    ThinFits m₁ false w p fun out _ => ∃ bs rest, out = heading ++
      (textLine (wordSize w) (m₁.le (wordSize w) (sec + 32)) bs ++ rest) := by
  have hstart : Follows R R m₁ m m₁ := .start hag
  rw [thinFootprint, if_pos h.safe, within_append, within_append] at hw
  obtain ⟨⟨-, hncmds⟩, hw⟩ := hw
  have hlc : isLcSafe m₁ p w := by
    rw [isLcSafe_iff, hstart.mapSize_eq, ← isLcSafe_iff]
    exact h.safe.2
  have hn : ncmds m₁ p = ncmds m p := hstart.le (within_read.mp hncmds)
  rw [ThinFits, if_pos ⟨hstart.isSafe_iff.mpr h.safe.1, hlc⟩]
  simp only [headerImage_false, hn] at hw ⊢
  have hfound : SearchFits false w (fun r b => r = some sec ∧ b = m) (ncmds m p)
      (p + headerSize w) m := getTextSectionFrom_returns.mp ⟨_, h.found, rfl, rfl⟩
  refine SearchFits.follow (fun r b b' hr _ hfol => ?_) hstart hw hfound
  obtain ⟨rfl, rfl⟩ := hr
  have hsz : secSize b' w sec = secSize b w sec := hfol.le (within_read.mp hsize)
  have hoff : secOffset b' w sec = secOffset b w sec := hfol.le (within_read.mp hoffset)
  have hshown := h.shown
  rw [SectionFits, if_pos (hfol.isSafe_iff.mpr h.header)]
  simp only [sectionImage_false, hsz, hoff]
  rw [← linesShown_congr hfol] at hshown
  refine ⟨fun k hk => ?_, ?_⟩
  · have hline := hfit k (linesShown_congr hfol ▸ hk)
    rwa [LineFits, ← hfol.agree.size] at hline
  · obtain ⟨bs, rest, htext⟩ := shownText_first hshown
    rw [htext, hfol.keep.le haddr]
    exact ⟨bs, rest, rfl⟩

theorem LeadsTo.safe {w : Bool} (h : ShowsText m w p sec) (hl : LeadsTo m x s k p)
    (hr : Reached m x s) (hk : k < nfatArchs m s) : isSafe m (archAt x k) := by
  refine (isSafe_natCast m _).mpr (hr k hk hl.1 ?_)
  rw [hl.2]
  exact h.kind.1

/-- Of two entries that lead to one image, the first rewrites what the second reads. -/
theorem not_apart {w : Bool} (hr : Reached m x s) (h : ShowsText m w p sec)
    (hi : LeadsTo m x s i p) (hj : LeadsTo m x s j p) (hin : i < nfatArchs m s)
    (hjn : j < nfatArchs m s) : ¬ (entryAt m x s i).Apart (entryAt m x s j) := by
  obtain ⟨-, -, hwi⟩ := h.within (entryAt_section h hi (hi.safe h hr hin) within_self)
  obtain ⟨-, -, hwj⟩ := h.within (entryAt_section h hj (hj.safe h hr hjn) within_self)
  have hpos : 0 < wordSize w := (Nat.succ_pos 3).trans_le (le_wordSize w)
  exact fun hap => apart_iff.mp hap _ ((within_rewrite.mp hwi).2 0 hpos)
    ((within_rewrite.mp hwj).1 0 hpos)

/-- What a dump of the image leaves for entry `k`, which leads to the image too: an address that
has gone up by 16 for each line, and all else as it was. `mj` is the image before the dump, `m₁` is
the one behind it, and `mk` the one that entry `k` finds. -/
theorem address_counted {w : Bool} {mj m₁ mk : Buffer} (hr : Reached m x s)
    (h : ShowsText m w p sec) (hj : LeadsTo m x s j p) (hk : LeadsTo m x s k p)
    (hjn : j < nfatArchs m s) (hkn : k < nfatArchs m s)
    (hbefore : Buffer.AgreeOn (entryAt m x s k).Reads m mj)
    (hdump : Follows (entryAt m x s j).Reads (entryAt m x s j).Writes mj
      (advance m w (sec + 32) (linesShown m (p + secOffset m w sec) (secSize m w sec))) m₁)
    (hbehind : Buffer.AgreeOn (entryAt m x s k).Reads m₁ mk) :
    Buffer.AgreeOn ((entryAt m x s k).Beside (sec + 32) (wordSize w)) m mk ∧
      mk.le (wordSize w) (sec + 32) = (m.le (wordSize w) (sec + 32) +
        16 * linesShown m (p + secOffset m w sec) (secSize m w sec)) % 256 ^ wordSize w := by
  obtain ⟨-, -, hwj⟩ := h.within (entryAt_section h hj (hj.safe h hr hjn) within_self)
  obtain ⟨-, -, hwk⟩ := h.within (entryAt_section h hk (hk.safe h hr hkn) within_self)
  constructor
  · refine Buffer.AgreeOn.trans ⟨?_, fun q hq => ?_⟩ (hbehind.mono fun q hq => hq.1)
    · rw [hdump.keep.size, hbefore.size]
    · by_cases hqj : (entryAt m x s j).Reads q
      · have hout : ¬ (sec + 32 ≤ q ∧ q < sec + 32 + wordSize w) := fun hin =>
          hq.2 (writes_rewrite.mpr hin)
        rw [hdump.agree.byte q hqj]
        apply Buffer.byte_put_out
        omega
      · rw [hdump.keep.byte q fun hw => hqj hw.reads, hbefore.byte q hq.1]
  · rw [hbehind.le (within_rewrite.mp hwk).1, hdump.agree.le (within_rewrite.mp hwj).1, le_advance]

/-- Entry `k` shows the lines from the address that it finds. -/
theorem entryRun_again {w : Bool} {mk a : Buffer} (h : ShowsText m w p sec)
    (hk : LeadsTo m x s k p) (hs : isSafe m (archAt x k))
    (hbefore : (rewrite (sec + 32) (wordSize w)).Apart
      (entryFootprint (fun _ _ _ _ _ => empty) m (archAt x k) 0 (fatOf m x s)))
    (hag : Buffer.AgreeOn ((entryAt m x s k).Beside (sec + 32) (wordSize w)) m mk)
    (hrun : entryRun (archAt x k) 0 (fatOf m x s) m = .ok ((out, fat), a)) :
    ∃ r bs rest, entryRun (archAt x k) 0 (fatOf m x s) mk = .ok r ∧ r.1.1 = heading ++
      (textLine (wordSize w) (mk.le (wordSize w) (sec + 32)) bs ++ rest) := by
  obtain ⟨hfit, hout⟩ := EntryFits.shown h hk hs (K := fun o _ _ => o = out)
    (entryRun_returns.mp ⟨_, hrun, rfl⟩)
  have hne : out ≠ [] := by
    rw [← hout]
    simp [heading, ascii]
  obtain ⟨hsize, hoffset, -⟩ := h.within (entryAt_section h hk hs within_self)
  have hagain : EntryFits (fun o _ _ => ∃ bs rest, o = heading ++
      (textLine (wordSize w) (mk.le (wordSize w) (sec + 32)) bs ++ rest)) mk (archAt x k) 0
      (fatOf m x s) := by
    refine EntryFits.follow (F := fun _ _ _ _ _ => empty) (K := fun o _ _ => o ≠ []) (.start hag)
      ((entryAt_alone within_self).beside hbefore) (absurd rfl) ?_
      (entryRun_returns.mp ⟨_, hrun, hne⟩)
    obtain ⟨-, hswap, hw⟩ := h.kind
    simp only [entrySlice_fatOf, hk.2, hswap, hw]
    intro hwithin _
    refine ThinFits.again h hfit hag hwithin (hsize.beside ?_) (hoffset.beside ?_)
      fun i hi hR => hR.2 (writes_rewrite.mpr ⟨by omega, by omega⟩)
    · exact apart_rewrite_read.mpr (by omega)
    · exact apart_rewrite_read.mpr (by omega)
  obtain ⟨r, hcall, bs, rest, ho⟩ := entryRun_returns.mpr hagain
  exact ⟨r, bs, rest, hcall, ho⟩

/-- A text that starts from the counted address is another one. -/
theorem address_ne {w : Bool} {v c : Nat} (hv : v < 256 ^ wordSize w) (h0 : 0 < c)
    (hc : c < 2 ^ 28) : (v + 16 * c) % 256 ^ wordSize w ≠ v := by
  cases w <;> simp only [wordSize, Bool.false_eq_true, if_false, if_true] at hv ⊢ <;> omega

/-- The text of an entry whose slice has been dumped once is not that of the first dump. -/
theorem not_concatenates (hin : Inside m x s) (hr : Reached m x s) (hk : k < nfatArchs m s)
    (hjk : j < k) (hap : ∀ i', i' < k → ∀ i, i < i' → (entryAt m x s i).Apart (entryAt m x s i'))
    (hothers : ∀ i, i < k → i ≠ j → (entryAt m x s i).Apart (entryAt m x s k))
    (hrep : Repeats m x s j k) : ¬ Concatenates m x s := by
  rintro ⟨out', m', fat', -, hdumps', hout⟩
  obtain ⟨w, p, sec, h, hlj, hlk, hbefore⟩ := hrep
  obtain ⟨out, a, hruns⟩ := exists_runs hin hr
  have hjn : j < nfatArchs m s := hjk.trans hk
  -- the images that the entries in front of `k` leave
  obtain ⟨M, hM, hall, hfols⟩ := runAll_apart (i := 0) (n := k)
    (fun i _ hi => entryRun_bounds (hruns i (by omega)).2)
    (fun i i' _ hii hi => hap i' (by omega) i hii) fun _ _ _ => .refl (m := m)
  rw [Nat.zero_add] at hall hfols
  have hbeforej : Buffer.AgreeOn (entryAt m x s k).Reads m (M j) := by
    have := agreeOn_apart (g := entryAt m x s k) (Nat.zero_le j)
      (fun i h1 h2 => hfols i h1 (by omega)) fun i _ h2 => hothers i (by omega) (by omega)
    rwa [hM] at this
  have hbehindj : Buffer.AgreeOn (entryAt m x s k).Reads (M (j + 1)) (M k) :=
    agreeOn_apart hjk (fun i h1 h2 => hfols i (by omega) h2)
      fun i h1 h2 => hothers i h2 (by omega)
  have hrunj := EntryFits.shown h hlj (hlj.safe h hr hjn) (K := fun o _ b => o = out j ∧ b = a j)
    (entryRun_returns.mp ⟨_, (hruns j hjn).2, rfl, rfl⟩)
  have hrunk := EntryFits.shown h hlk (hlk.safe h hr hk) (K := fun o _ _ => o = out k)
    (entryRun_returns.mp ⟨_, (hruns k hk).2, rfl⟩)
  have hfol := hfols j (Nat.zero_le _) hjk
  rw [← hrunj.2.2] at hfol
  obtain ⟨hag, haddr⟩ := address_counted hr h hlj hlk hjn hk hbeforej hfol hbehindj
  -- what entry `k` writes there, and what it would have to
  obtain ⟨r, bs, rest, hcall, ho⟩ :=
    entryRun_again h hlk (hlk.safe h hr hk) hbefore hag (hruns k hk).2
  obtain ⟨out₁, r', hget, hcall'⟩ := dumpsFrom_at (a := k) (b := nfatArchs m s - k - 1)
    (by rw [show k + (nfatArchs m s - k - 1 + 1) = nfatArchs m s by omega]; exact hdumps')
    (dumpsFrom_of_runAll hall)
  rw [Nat.zero_add k, arrayAt, hcall] at hcall'
  have hlast : r.1.1 = out k := by
    rw [List.length_map, List.length_range', List.getElem?_map, List.getElem?_range hk] at hget
    calc r.1.1 = out₁ := by rw [Checked.ok.inj hcall']
      _ = out' k := (Option.some.inj hget).symm
      _ = out k := Checked.ok.inj ((hout k hk).symm.trans (hruns k hk).1)
  obtain ⟨bs', rest', htext⟩ := shownText_first (x := w) (a := sec + 32) h.shown
  rw [hlast, ← hrunk.2, htext] at ho
  obtain ⟨hsame, -, -⟩ := textLine_inj m.le_lt (M k).le_lt (List.append_cancel_left ho)
  exact address_ne m.le_lt h.shown h.few (haddr.symm.trans hsame.symm)

/-- Where two entries either are apart or repeat a slice, the texts are those of the dumps on the
image itself only if all are apart. -/
theorem apart_of_concatenates (hin : Inside m x s) (hr : Reached m x s)
    (hor : ∀ k, k < nfatArchs m s → ∀ j, j < k →
      (entryAt m x s j).Apart (entryAt m x s k) ∨ Repeats m x s j k)
    (hc : Concatenates m x s) : DumpsApart m x s := by
  intro k
  induction k using Nat.strong_induction_on with
  | _ k ih =>
    intro hk j hjk
    refine (hor k hk j hjk).resolve_right fun hrep => ?_
    have hap := fun i' (hi' : i' < k) => ih i' hi' (hi'.trans hk)
    refine not_concatenates hin hr hk hjk hap (fun i hi hij => ?_) hrep hc
    -- another entry with this slice is not apart from `j`
    refine (hor k hk i hi).resolve_right fun ⟨w, p, sec, h, hli, hlk, _⟩ => ?_
    obtain ⟨_, _, _, _, hlj, hlk', _⟩ := hrep
    obtain rfl := hlk.2.symm.trans hlk'.2
    rcases Nat.lt_or_gt_of_ne hij with hlt | hlt
    · exact not_apart hr h hli hlj (hi.trans hk) (hjk.trans hk) (hap j hjk i hlt)
    · exact not_apart hr h hlj hli (hjk.trans hk) (hi.trans hk) (hap i hi j hlt)

/-- A fat dump is the concatenation of the dumps of its slices on the image itself, if `g_map_size`
reaches their entries and no entry rewrites what a later one reads; and only then, where two entries
that are not apart repeat a slice that shows text. -/
theorem handleFat_concatenates (hin : Inside m x s) :
    (Reached m x s ∧ DumpsApart m x s → Concatenates m x s) ∧
    (Reached m x s → (∀ k, k < nfatArchs m s → ∀ j, j < k →
        (entryAt m x s j).Apart (entryAt m x s k) ∨ Repeats m x s j k) →
      Concatenates m x s → DumpsApart m x s) ∧
    (m.size < 2 ^ 32 → Reached m x s) := by
  refine ⟨fun ⟨hr, hap⟩ => ?_, fun hr hor hc => ?_, fun hsz => ?_⟩
  · exact concatenates_of_apart hin hr hap
  · exact apart_of_concatenates hin hr hor hc
  · exact reached_of_lt hin hsz

/-- A fat file of two copies of a small file, at 48 and 250. Both entries are for x86_64; the first
leads to the copy at 48, the second to `offset`. -/
def twoSlices (offset : UInt8) : Buffer := .ofBytes 452 <|
  [0xbe, 0xba, 0xfe, 0xca, 2, 0, 0, 0] ++
    [7, 0, 0, 1, 3, 0, 0, 0, 48, 0, 0, 0, 202, 0, 0, 0, 0, 0, 0, 0] ++
    [7, 0, 0, 1, 3, 0, 0, 0, offset, 0, 0, 0, 202, 0, 0, 0, 0, 0, 0, 0] ++
    (smallText true).bytes .little true ++ (smallText true).bytes .little true

theorem twoSlices_inside (offset : UInt8) (h : offset = 48 ∨ offset = 250) :
    Inside (twoSlices offset) false false := by
  rcases h with rfl | rfl
  · exact ⟨by decide +kernel, by decide +kernel, by decide +kernel, by decide +kernel⟩
  · exact ⟨by decide +kernel, by decide +kernel, by decide +kernel, by decide +kernel⟩

theorem twoSlices_showsText : ShowsText (twoSlices 48) true 48 152 where
  magic := by decide +kernel
  safe := by decide +kernel
  found := by
    have hwf : ∀ c ∈ commandsFrom (twoSlices 48) (ncmds (twoSlices 48) 48) (48 + headerSize true),
        WfTextCommand (twoSlices 48) true c := by decide +kernel
    have hfind : (((commandsFrom (twoSlices 48) (ncmds (twoSlices 48) 48)
        (48 + headerSize true)).flatMap (sectionsAt (twoSlices 48) true)).find?
        (isText (twoSlices 48))).filter (fun a => decide (a ≤ mapSize (twoSlices 48))) =
        some 152 := by decide +kernel
    exact (getTextSectionFrom_host hwf).trans (by rw [hfind])
  header := by decide +kernel
  shown := by decide +kernel
  few := by decide +kernel

theorem handleFat_concatenates_twoSlices :
    Concatenates (twoSlices 250) false false ∧ ¬ Concatenates (twoSlices 48) false false := by
  have hrep : Repeats (twoSlices 48) false false 0 1 :=
    ⟨true, 48, 152, twoSlices_showsText, by decide +kernel, by decide +kernel, by decide +kernel⟩
  have happly := handleFat_concatenates (twoSlices_inside 250 (.inr rfl))
  have honly := handleFat_concatenates (twoSlices_inside 48 (.inl rfl))
  refine ⟨happly.1 ⟨happly.2.2 (by decide), by decide +kernel⟩, fun hc => ?_⟩
  refine absurd (honly.2.1 (honly.2.2 (by decide)) ?_ hc) (by decide +kernel)
  intro k hk j hjk
  have hn : nfatArchs (twoSlices 48) false = 2 := by decide +kernel
  obtain ⟨rfl, rfl⟩ : k = 1 ∧ j = 0 := by omega
  exact .inr hrep

/-- The second dump of the one slice starts where the first has ended. -/
theorem twoSlices_differs :
    ¬ ∀ m x s, Inside m x s → Concatenates m x s := by
  intro h
  obtain ⟨out, m', fat', hfat, -, hdump⟩ := h _ _ _ (twoSlices_inside 48 (.inl rfl))
  have hne : (handleFat (twoSlices 48) false false 0 >>= fun r => pure r.2.1) ≠ (do
      let a ← sliceDump (twoSlices 48) false false 0
      let b ← sliceDump (twoSlices 48) false false 1
      pure (a ++ b)) := by decide +kernel
  have hn : nfatArchs (twoSlices 48) false = 2 := by decide +kernel
  rw [hn] at hfat hdump
  rw [hfat, hdump 0 (by decide), hdump 1 (by decide)] at hne
  simp [List.range_succ] at hne

end NmOtool.Otool
