import NmOtool.Common.Relocate
import NmOtool.Otool.Slices

/-!
# ft_otool: a slice and the file cut out of it

All offsets of a Mach-O image count from its own start, and `ft_otool` keeps to that: on an image
behind any `d` bytes `handle_not_fat` writes what it writes on the image alone, makes the same
changes to it, and faults where it faults there. So the dump of a fat file is put together from
the dumps of the files that its slices are cut out to.
-/

namespace NmOtool.Otool

open MachO Checked
open Nm (Outcome)

variable {m f : Buffer} {d p lc n i k size : Nat} {s x : Bool}

/-! ## The walk to the section -/

theorem textInSegFrom_graft (h : d + f.size < 2 ^ 32) : ∀ n i,
    textInSegFrom (m.graft d f) (d + lc) x n i =
      map (Option.map (d + ·)) (textInSegFrom f lc x n i) := by
  intro n
  induction n with
  | zero => intro i; rfl
  | succ n ih =>
    intro i
    unfold textInSegFrom
    simp only [Nat.add_assoc]
    rw [map_ite]
    refine if_congr (isSafe_graft_nat h) ?_ rfl
    rw [isNamed_graft (by decide) (by decide), map_then]
    refine then_congr fun named _ => ?_
    rw [map_ite]
    exact if_congr Iff.rfl rfl (ih (i + 1))

theorem textInSeg_graft (h : d + f.size < 2 ^ 32) :
    textInSeg (m.graft d f) (d + lc) x = map (Option.map (d + ·)) (textInSeg f lc x) := by
  unfold textInSeg
  rw [Nat.add_assoc, Buffer.field_graft, map_then]
  exact then_congr fun nb _ => textInSegFrom_graft h nb 0

/-- The header that the walk has found, and the image it leaves. -/
def movedHeader (m : Buffer) (d : Nat) (r : Option Nat × Buffer) : Option Nat × Buffer :=
  (r.1.map (d + ·), m.graft d r.2)

theorem getTextSectionFrom_graft : ∀ n lc (f : Buffer), d + f.size < 2 ^ 32 →
    getTextSectionFrom s x n (d + lc) (m.graft d f) =
      map (movedHeader m d) (getTextSectionFrom s x n lc f) := by
  intro n
  induction n with
  | zero => intro lc f _; rfl
  | succ n ih =>
    intro lc f h
    unfold getTextSectionFrom
    rw [map_ite]
    refine if_congr (isSafe_graft_nat h) ?_ rfl
    simp only [ite_bind]
    refine map_step (swapIf_graft swapLoadcommand_graft) fun f₁ h₁ => ?_
    have hs₁ : d + f₁.size < 2 ^ 32 := by rwa [swapIf_size swapNb32_size h₁]
    rw [Buffer.field_graft, map_then]
    refine then_congr fun cmd _ => ?_
    rw [map_ite]
    refine if_congr Iff.rfl ?_ ?_
    · rw [map_ite]
      refine if_congr (isSegmantSafe_graft hs₁) ?_ rfl
      refine map_step (swapIf_graft swapSegmentCommand_graft) fun f₂ h₂ => ?_
      have hs₂ : d + f₂.size < 2 ^ 32 := by rwa [swapIf_size swapSegmentCommand_size h₂]
      refine map_step (textInSeg_graft hs₂) fun res _ => ?_
      cases res with
      | some sec => rfl
      | none =>
        simp only [Option.map_none]
        rw [Nat.add_assoc, Buffer.field_graft, map_then]
        exact then_congr fun cmdsize _ => Nat.add_assoc d lc cmdsize ▸ ih (lc + cmdsize) f₂ hs₂
    · rw [Nat.add_assoc, Buffer.field_graft, map_then]
      exact then_congr fun cmdsize _ => Nat.add_assoc d lc cmdsize ▸ ih (lc + cmdsize) f₁ hs₁

theorem getTextSectionFrom_size : ∀ n lc (f : Buffer) {r : Option Nat × Buffer},
    getTextSectionFrom s x n lc f = .ok r → r.2.size = f.size := by
  intro n
  induction n with
  | zero =>
    intro lc f r h
    cases h
    rfl
  | succ n ih =>
    intro lc f r h
    unfold getTextSectionFrom at h
    split at h
    · simp only [ite_bind] at h
      obtain ⟨f₁, h₁, h⟩ := bind_eq_ok.mp h
      have hs₁ : f₁.size = f.size := swapIf_size swapNb32_size h₁
      obtain ⟨cmd, -, h⟩ := bind_eq_ok.mp h
      split at h
      · split at h
        · obtain ⟨f₂, h₂, h⟩ := bind_eq_ok.mp h
          have hs₂ : f₂.size = f₁.size := swapIf_size swapSegmentCommand_size h₂
          obtain ⟨res, -, h⟩ := bind_eq_ok.mp h
          cases res with
          | some sec =>
            cases h
            exact hs₂.trans hs₁
          | none =>
            obtain ⟨cmdsize, -, h⟩ := bind_eq_ok.mp h
            exact (ih _ f₂ h).trans (hs₂.trans hs₁)
        · cases h
          exact hs₁
      · obtain ⟨cmdsize, -, h⟩ := bind_eq_ok.mp h
        exact (ih _ f₁ h).trans hs₁
    · cases h
      rfl

/-! ## The dump -/

theorem hexdumpDataFrom_graft : ∀ n j,
    hexdumpDataFrom (m.graft d f) (d + p) i size n j = hexdumpDataFrom f p i size n j := by
  intro n
  induction n with
  | zero => intro j; rfl
  | succ n ih =>
    intro j
    rw [hexdumpDataFrom, hexdumpDataFrom, ih (j + 1), Nat.add_assoc, Buffer.load_graft]

/-- What a printing function returns and writes, and the image it leaves. -/
def movedDump (m : Buffer) (d : Nat) (r : Int × List UInt8 × Buffer) : Int × List UInt8 × Buffer :=
  (r.1, r.2.1, m.graft d r.2.2)

theorem dumpSectionFrom_graft {nb : TNb} : ∀ fuel i (f : Buffer), d + f.size < 2 ^ 32 →
    dumpSectionFrom (d + lc) x nb (d + p) fuel i (m.graft d f) =
      map (movedDump m d) (dumpSectionFrom lc x nb p fuel i f) := by
  intro fuel
  induction fuel with
  | zero => intro i f _; rfl
  | succ fuel ih =>
    intro i f h
    unfold dumpSectionFrom
    simp only [Nat.add_assoc]
    rw [map_ite]
    refine if_congr Iff.rfl ?_ rfl
    rw [map_ite]
    refine if_congr (isSafe_graft_nat h) ?_ rfl
    rw [hexdumpAddress_graft, hexdumpData, hexdumpDataFrom_graft, map_then]
    refine then_congr fun address _ => ?_
    rw [map_then]
    refine then_congr fun data _ => ?_
    rw [Buffer.field_graft, map_then]
    refine then_congr fun v _ => ?_
    refine map_step Buffer.storeField_graft fun f₁ h₁ => ?_
    have hs₁ : f₁.size = f.size := by
      unfold Buffer.storeField at h₁
      split at h₁
      · cases h₁
        rfl
      · cases h₁
    rw [ih (i + 16) f₁ (hs₁ ▸ h), then_map, map_then]
    rfl

theorem putTextSection_graft (h : d + f.size < 2 ^ 32) {sec : Option Nat} :
    putTextSection (m.graft d f) (sec.map (d + ·)) s x (d + p) =
      map (movedDump m d) (putTextSection f sec s x p) := by
  cases sec with
  | none => rfl
  | some sec =>
    unfold putTextSection
    simp only [Option.map_some, Nat.add_assoc]
    rw [map_ite]
    refine if_congr (isSafe_graft_nat h) ?_ rfl
    simp only [ite_bind]
    refine map_step (swapIf_graft swapSection_graft) fun f₁ h₁ => ?_
    have hs₁ : d + f₁.size < 2 ^ 32 := by rwa [swapIf_size swapSection_size h₁]
    rw [Buffer.field_graft, map_then]
    refine then_congr fun size _ => ?_
    rw [Buffer.field_graft, map_then]
    refine then_congr fun offset _ => ?_
    rw [dumpSection, dumpSectionFrom_graft _ _ f₁ hs₁, then_map, map_then]
    rfl

/-- `handle_not_fat` on an image behind `d` bytes: the dump of the image alone. -/
theorem handleNotFat_graft (h : d + f.size < 2 ^ 32) :
    handleNotFat (m.graft d f) x s (d + p) = map (movedDump m d) (handleNotFat f x s p) := by
  unfold handleNotFat
  rw [map_ite]
  refine if_congr (isSafe_graft_nat h) ?_ rfl
  refine map_step (getLc_graft h) fun r hr => ?_
  obtain ⟨lcInfo, f₁⟩ := r
  have hs₁ : d + f₁.size < 2 ^ 32 := by rwa [getLc_size hr]
  cases lcInfo with
  | none => rfl
  | some lcInfo =>
    simp only
    unfold getTextSection
    rw [Nat.add_assoc]
    refine map_step (getTextSectionFrom_graft _ _ f₁ hs₁) fun r hr => ?_
    have hs₂ : d + r.2.size < 2 ^ 32 := by rwa [getTextSectionFrom_size _ _ _ hr]
    simp only [movedHeader]
    rw [putTextSection_graft hs₂, then_map, map_then]
    rfl

/-! ## Files cut out -/

variable {name : List UInt8}

/-- A slice is dumped as the file that is cut out at its start: the same text, the same changes in
the image, and no fault but where the file alone has one. -/
theorem handleNotFat_slice (hd : d ≤ m.size) (h : m.size < 2 ^ 32) :
    handleNotFat m x s d = map (movedDump m d) (handleNotFat (m.cut d) x s 0) := by
  have hsize : d + (m.cut d).size < 2 ^ 32 := by
    rw [Buffer.size_cut]
    omega
  have hgraft := handleNotFat_graft (m := m) (x := x) (s := s) (p := 0) hsize
  rwa [Buffer.graft_cut hd] at hgraft

/-- The second copy of the small file, and what it is cut out to. -/
theorem handleNotFat_slice_twoSlices :
    handleNotFat (twoSlices 250) true false 250 =
      map (movedDump (twoSlices 250) 250) (handleNotFat ((twoSlices 250).cut 250) true false 0) :=
  handleNotFat_slice (by decide) (by decide)

theorem handleNotFat_ret (h32 : 32 ≤ mapSize f) {r : Int × List UInt8 × Buffer}
    (h : handleNotFat f x s 0 = .ok r) : r.1 = 0 := by
  have hlc : isLcSafe f 0 x := (isLcSafe_iff f 0 x).mpr (by split <;> omega)
  rw [handleNotFat, if_pos ((isSafe_natCast f 0).mpr (Nat.zero_le _)), getLc_ok hlc, ok_bind] at h
  obtain ⟨sec, -, h⟩ := bind_eq_ok.mp h
  obtain ⟨dump, -, h⟩ := bind_eq_ok.mp h
  cases h
  rfl

/-- `ft_otool` on a thin file: the name of the file, and its dump. -/
theorem otool_thin (h32 : 32 ≤ mapSize f) (hthin : notValidHeader (f.le 4 0) = false) :
    otool f name =
      handleNotFat f (is64File (f.le 4 0)) (shouldSwapFile (f.le 4 0)) 0 >>= fun r =>
        .ok ⟨0, ftPrintfS name ++ ascii ":\n" ++ r.2.1, []⟩ := by
  obtain ⟨hvalid, hfat⟩ := thin_magic hthin
  have hsize := mapSize_le f
  rw [otool, if_pos ((isSafe_natCast f 32).mpr h32), Buffer.field_ok (by omega), ok_bind,
    if_neg (Bool.eq_false_iff.mp hvalid)]
  simp only [handleOtool]
  rw [if_neg (Bool.eq_false_iff.mp hfat)]
  refine then_congr fun r hr => ?_
  rw [← handleNotFat_ret h32 hr]
  rfl

/-- What `ft_otool` writes behind the name for the file cut out at entry `k`: nothing if the entry
is not for the host or leads to no thin image. -/
def CutDump (m : Buffer) (x s : Bool) (name : List UInt8) (k : Nat) (out : List UInt8) : Prop :=
  if Eligible m x s k ∧ notValidHeader (m.le 4 (archOffset m x s k)) = false then
    otool (m.cut (archOffset m x s k)) name = .ok ⟨0, ftPrintfS name ++ ascii ":\n" ++ out, []⟩
  else out = []

theorem cutDump_of_sliceDump {out : List UInt8} (hsz : m.size < 2 ^ 32)
    (hlong : Eligible m x s k → archOffset m x s k + 32 ≤ m.size)
    (h : sliceDump m x s k = .ok out) : CutDump m x s name k out := by
  unfold sliceDump at h
  unfold CutDump
  by_cases hk : Eligible m x s k ∧ notValidHeader (m.le 4 (archOffset m x s k)) = false
  · rw [if_pos hk] at h ⊢
    have h32 := hlong hk.1
    generalize archOffset m x s k = d at h hk h32 ⊢
    have hle : (m.cut d).le 4 0 = m.le 4 d :=
      Buffer.le_congr fun i _ => by rw [Nat.zero_add]; rfl
    have hmap : mapSize (m.cut d) = m.size - d := mapSize_eq (by rw [Buffer.size_cut]; omega)
    have hrun := handleNotFat_graft (m := m) (f := m.cut d) (d := d) (p := 0)
      (x := is64File (m.le 4 d)) (s := shouldSwapFile (m.le 4 d)) (by rw [Buffer.size_cut]; omega)
    rw [Buffer.graft_cut (by omega), Nat.add_zero] at hrun
    rw [hrun, then_map] at h
    obtain ⟨r, hr, hout⟩ := bind_eq_ok.mp h
    cases hout
    rw [otool_thin (by omega) (hle ▸ hk.2), hle, hr]
    rfl
  · rw [if_neg hk] at h ⊢
    cases h
    rfl

/-- The dump of a fat file is, behind the name, one dump behind the other of the files that its
slices for the host are cut out to, where no slice rewrites what a later one reads. -/
theorem otool_fat_cut (hfat : isFatFile (m.le 4 0) = true) (hx : is64File (m.le 4 0) = x)
    (hs : shouldSwapFile (m.le 4 0) = s) (hsz : m.size < 2 ^ 32) (hin : Inside m x s)
    (hap : DumpsApart m x s)
    (hlong : ∀ k, k < nfatArchs m s → Eligible m x s k → archOffset m x s k + 32 ≤ m.size)
    (name : List UInt8) :
    ∃ out : Nat → List UInt8,
      otool m name = .ok ⟨0, ftPrintfS name ++ ascii ":\n" ++
        (List.range (nfatArchs m s)).flatMap out, []⟩ ∧
      ∀ k, k < nfatArchs m s → CutDump m x s name k (out k) := by
  obtain ⟨out, m', fat', hrun, -, hdump⟩ :=
    concatenates_of_apart hin (reached_of_lt hin hsz) hap
  have h32 := hin.header
  have hsize := mapSize_le m
  refine ⟨out, ?_, fun k hk => cutDump_of_sliceDump hsz (hlong k hk) (hdump k hk)⟩
  rw [otool, if_pos ((isSafe_natCast m 32).mpr h32), Buffer.field_ok (by omega), ok_bind,
    if_neg (Bool.eq_false_iff.mp (fat_magic hfat))]
  simp only [handleOtool]
  rw [if_pos hfat, hx, hs, hrun]
  rfl

theorem otool_fat_cut_twoSlices : ∃ out : Nat → List UInt8,
    otool (twoSlices 250) (ascii "a") = .ok ⟨0, ftPrintfS (ascii "a") ++ ascii ":\n" ++
      (List.range (nfatArchs (twoSlices 250) false)).flatMap out, []⟩ ∧
    ∀ k, k < nfatArchs (twoSlices 250) false →
      CutDump (twoSlices 250) false false (ascii "a") k (out k) := by
  refine otool_fat_cut (by decide +kernel) (by decide +kernel) (by decide +kernel) (by decide)
    (twoSlices_inside 250 (.inr rfl)) (by decide +kernel) (fun k hk _ => ?_) (ascii "a")
  have hn : nfatArchs (twoSlices 250) false = 2 := by decide +kernel
  rcases (by omega : k = 0 ∨ k = 1) with rfl | rfl <;> decide +kernel

end NmOtool.Otool
