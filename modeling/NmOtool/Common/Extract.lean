import NmOtool.Nm.Arranged
import NmOtool.Nm.Relocate
import NmOtool.Otool.Readback

/-!
# Slices extracted from a fat file

Both programs take a slice to reach to the end of the file, whatever the table says of its size. A
well-formed image inside the size of its entry does not show what follows it: a fat file gives what
its slices give in files of their own.
-/

namespace NmOtool.MachO

variable {m : Buffer} {x s : Bool} {n ptr sym sec k lc : Nat}

/-- The size in the table entry `k`. -/
def archSize (m : Buffer) (x s : Bool) (k : Nat) : Nat :=
  fatWord s (wordSize x) (m.le (wordSize x) (archAt x k + 8 + wordSize x))

/-- The slice of entry `k` in a file of its own. -/
def slice (m : Buffer) (x s : Bool) (k : Nat) : Buffer :=
  (m.cut (archOffset m x s k)).take (archSize m x s k)

/-! ## Bytes behind an image -/

theorem commandsFrom_take : commandsFrom (m.take n) k lc = commandsFrom m k lc := by
  induction k generalizing lc with
  | zero => rfl
  | succ k ih => exact congrArg (lc :: ·) ih

theorem commands_take : commands (m.take n) x ptr = commands m x ptr := commandsFrom_take

theorem sections_take : sections (m.take n) x ptr = sections m x ptr := by
  rw [sections, commands_take]
  rfl

theorem WfCommand.of_take (hn : n ≤ m.size) (h : WfCommand (m.take n) x lc) : WfCommand m x lc where
  atLeast := h.atLeast
  inside := Nat.le_trans h.inside hn
  width := h.width
  sections hseg := Nat.le_trans (h.sections hseg) hn

theorem WellFormed.of_take (hn : n ≤ m.size) (h : WellFormed (m.take n) x ptr sym) :
    WellFormed m x ptr sym where
  header := Nat.le_trans h.header hn
  magic := h.magic
  command lc hlc := (h.command lc (commands_take.symm ▸ hlc)).of_take hn
  symtab := by
    rw [← h.symtab, symtabCommand, symtabCommand, commands_take]
    rfl
  table :=
    { inside := Nat.le_trans h.table.inside hn
      entries := Nat.le_trans h.table.entries hn
      strings := Nat.le_trans h.table.strings hn
      strx := h.table.strx
      name := h.table.name
      sect := fun i hi hin => sections_take (m := m) (n := n) ▸ h.table.sect i hi hin }

theorem le_cut : (m.cut n).le 4 0 = m.le 4 n :=
  Buffer.le_congr fun i _ => by rw [Nat.zero_add]; rfl

end NmOtool.MachO

/-! ## ft_nm -/

namespace NmOtool.Nm

open MachO Checked

variable {m : Buffer} {x y s : Bool} {n sym k : Nat} {d : Picture} {flags name : List UInt8}
  {num : TNu}

/-- The image shows the same symbols with more bytes behind it. -/
theorem Depicts.of_take (hn : n ≤ m.size) (h : Depicts (m.take n) x sym d) : Depicts m x sym d where
  wf := h.wf.of_take hn
  picture := by
    rw [← h.picture, Nm.picture, Nm.picture, sections_take]
    congr 1
    refine List.map_congr_left fun i hi => ?_
    have hterm := h.wf.table.terminated (List.mem_range.mp hi)
    rw [symbolOf, symbolOf]
    congr 1
    · exact (Buffer.cstr_take hn hterm).symm
    · rw [nValue, nValue, Buffer.le_take]
      rfl

theorem nm_take (hn : n ≤ m.size) (hsz : m.size < 2 ^ 31) (h : Depicts (m.take n) x sym d) :
    nm m name num flags = nm (m.take n) name num flags := by
  rw [nm_depicts (h.of_take hn) hsz, nm_depicts h (Nat.lt_of_le_of_lt hn hsz)]

/-- A fat file is listed as the file that its first slice for the host is extracted to. -/
theorem nm_fat_slice (hfat : isFatFile (m.le 4 0) = true) (hx : is64File (m.le 4 0) = x)
    (hs : shouldSwapFile (m.le 4 0) = s) (hsz : m.size < 2 ^ 31)
    (htable : archAt x (nfatArchs m s) ≤ m.size) (hk : FirstForHost m x s k)
    (hend : archOffset m x s k + archSize m x s k ≤ m.size)
    (h : Depicts (slice m x s k) y sym d) (hne : d.symbols ≠ []) :
    nm m name num flags = nm (slice m x s k) name num flags := by
  have hcut : (m.cut (archOffset m x s k)).size = m.size - archOffset m x s k := rfl
  have hn : archSize m x s k ≤ (m.cut (archOffset m x s k)).size := by omega
  have htail : nm (m.cut (archOffset m x s k)) name num flags = nm (slice m x s k) name num flags :=
    nm_take hn (by omega) h
  have hlisted : nm (slice m x s k) name num flags = .ok (d.outcome y name num flags) :=
    nm_depicts h (by rw [slice, Buffer.size_take]; omega) name num
  have hmagic : (m.cut (archOffset m x s k)).le 4 0 = if y then MH_MAGIC_64 else MH_MAGIC :=
    h.wf.magic
  have hthin : notValidHeader (m.le 4 (archOffset m x s k)) = false := by
    rw [← le_cut, hmagic]
    cases y <;> decide
  rw [hlisted]
  refine nm_fat_cut hfat hx hs (by omega) htable hk hthin (htail.trans hlisted) ?_
  rw [Picture.outcome, if_neg hne]

/-- A fat file of the small file at 48, with ten bytes behind it. -/
def packedFile : Buffer :=
  (Buffer.ofBytes 48 ([0xbe, 0xba, 0xfe, 0xca, 1, 0, 0, 0] ++
    [7, 0, 0, 1, 3, 0, 0, 0, 48, 0, 0, 0, 4, 1])).graft 48
      (((smallFile true).image .little true).take 270)

theorem slice_packedFile : slice packedFile false false 0 = (smallFile true).image .little true := by
  have hoffset : archOffset packedFile false false 0 = 48 := by decide +kernel
  have hsize : archSize packedFile false false 0 = ((smallFile true).image .little true).size := by
    decide +kernel
  rw [slice, hoffset, hsize, packedFile, Buffer.cut_graft]
  rfl

theorem nm_fat_slice_packedFile : nm packedFile (ascii "a") ⟨false, true⟩ (ascii "r") =
    nm (slice packedFile false false 0) (ascii "a") ⟨false, true⟩ (ascii "r") :=
  nm_fat_slice (by decide +kernel) (by decide +kernel) (by decide +kernel) (by decide +kernel)
    (by decide +kernel)
    ⟨by decide +kernel, by decide +kernel, fun j hj => absurd hj (Nat.not_lt_zero j)⟩
    (by decide +kernel) (slice_packedFile ▸ smallFile_depicts.2) (by decide +kernel)

end NmOtool.Nm

/-! ## ft_otool -/

namespace NmOtool.Otool

open MachO Checked

variable {m : Buffer} {x y s : Bool} {n sec k : Nat} {name : List UInt8}

theorem secAddr_take : secAddr (m.take n) x sec = secAddr m x sec := by
  rw [secAddr, secAddr, Buffer.le_take]

theorem secOffset_take : secOffset (m.take n) x sec = secOffset m x sec := by
  rw [secOffset, secOffset, Buffer.le_take]

theorem secSize_take : secSize (m.take n) x sec = secSize m x sec := by
  rw [secSize, secSize, Buffer.le_take]

theorem dumpText_take {w addr base size : Nat} :
    dumpText (m.take n) w addr base size = dumpText m w addr base size :=
  List.flatMap_congr fun j _ => by rw [lineAt, lineAt, Buffer.bytes_take]

theorem HostText.of_take (hn : n ≤ m.size) (hsz : m.size < 2 ^ 32) (h : HostText (m.take n) x sec) :
    HostText m x sec where
  magic := h.magic
  text :=
    { command := fun lc hlc =>
        have hc := h.text.command lc (commands_take.symm ▸ hlc)
        { hc.toWfCommand.of_take hn with covers := hc.covers }
      text := by
        rw [← h.text.text, sections_take]
        rfl
      inside := by
        have hin := h.text.inside
        rw [secOffset_take, secSize_take] at hin
        exact Nat.le_trans hin hn
      apart := by
        have hap := h.text.apart
        rwa [secOffset_take, secSize_take] at hap }
  size := hsz

/-- What follows a well-formed thin image in its file changes nothing. -/
theorem otool_take (hn : n ≤ m.size) (hsz : m.size < 2 ^ 32) (h : HostText (m.take n) x sec) :
    otool m name = otool (m.take n) name := by
  rw [otool_hostText h, otool_hostText (h.of_take hn hsz), secAddr_take, secOffset_take,
    secSize_take, dumpText_take]

theorem sliceDump_of_text (hsz : m.size < 2 ^ 32) (hk : Eligible m x s k)
    (hend : archOffset m x s k + archSize m x s k ≤ m.size)
    (htext : HostText (slice m x s k) y sec) (name : List UInt8) :
    ∃ out, sliceDump m x s k = .ok out ∧
      otool (slice m x s k) name = .ok ⟨0, ftPrintfS name ++ ascii ":\n" ++ out, []⟩ := by
  have hcut : (m.cut (archOffset m x s k)).size = m.size - archOffset m x s k := rfl
  have hn : archSize m x s k ≤ (m.cut (archOffset m x s k)).size := by omega
  have h : HostText (m.cut (archOffset m x s k)) y sec := htext.of_take hn (by omega)
  obtain ⟨hthin, hwidth, hhost⟩ := h.dispatch
  obtain ⟨hiff, hreach, -⟩ := handleNotFat_dumps h.text
  obtain ⟨m', hr⟩ := hiff.mpr (hreach h.size)
  have hslice := handleNotFat_slice (m := m) (x := y) (s := false) (d := archOffset m x s k)
    (by omega) hsz
  rw [le_cut] at hthin hwidth hhost
  refine ⟨_, ?_, (otool_take hn h.size htext).symm.trans (otool_hostText h)⟩
  unfold sliceDump
  simp only
  rw [if_pos ⟨hk, hthin⟩, hwidth, hhost, hslice, hr, Nat.zero_add]
  rfl

/-- The dump of a fat file is, behind the name, one dump behind the other of the files that its
slices for the host are extracted to, where no slice rewrites what a later one reads. -/
theorem otool_fat_slices (hfat : isFatFile (m.le 4 0) = true) (hx : is64File (m.le 4 0) = x)
    (hs : shouldSwapFile (m.le 4 0) = s) (hsz : m.size < 2 ^ 32) (h32 : 32 ≤ m.size)
    (htable : archAt x (nfatArchs m s) ≤ m.size) (hap : DumpsApart m x s)
    (hend : ∀ k, k < nfatArchs m s → Eligible m x s k →
      archOffset m x s k + archSize m x s k ≤ m.size)
    (htext : ∀ k, k < nfatArchs m s → Eligible m x s k → ∃ y sec, HostText (slice m x s k) y sec)
    (name : List UInt8) :
    ∃ out : Nat → List UInt8,
      otool m name = .ok ⟨0, ftPrintfS name ++ ascii ":\n" ++
        (List.range (nfatArchs m s)).flatMap out, []⟩ ∧
      ∀ k, k < nfatArchs m s → if Eligible m x s k then
        otool (slice m x s k) name = .ok ⟨0, ftPrintfS name ++ ascii ":\n" ++ out k, []⟩
      else out k = [] := by
  have hin : Inside m x s := {
    header := by rwa [mapSize_eq hsz]
    table := htable
    slice := fun k hk hel => by
      obtain ⟨y, sec, h⟩ := htext k hk hel
      have := h.text.header
      have := le_segmentSize y
      have := hend k hk hel
      rw [slice, Buffer.size_take] at *
      omega
    text := fun k hk => by
      by_cases hel : Eligible m x s k
      · obtain ⟨y, sec, h⟩ := htext k hk hel
        obtain ⟨out, hout, -⟩ := sliceDump_of_text hsz hel (hend k hk hel) h name
        exact hout ▸ nofun
      · rw [sliceDump, if_neg fun h => hel h.1]
        nofun }
  obtain ⟨out, m', fat', hrun, -, hdump⟩ :=
    concatenates_of_apart hin (reached_of_lt hin hsz) hap
  refine ⟨out, ?_, fun k hk => ?_⟩
  · rw [otool, if_pos ((isSafe_natCast m 32).mpr hin.header), Buffer.field_ok (by omega), ok_bind,
      if_neg (Bool.eq_false_iff.mp (fat_magic hfat))]
    simp only [handleOtool]
    rw [if_pos hfat, hx, hs, hrun]
    rfl
  · have hout := hdump k hk
    split
    · next hel =>
      obtain ⟨y, sec, h⟩ := htext k hk hel
      obtain ⟨out', hout', hslice⟩ := sliceDump_of_text hsz hel (hend k hk hel) h name
      rw [hout] at hout'
      cases hout'
      exact hslice
    · next hel =>
      rw [sliceDump, if_neg fun h => hel h.1] at hout
      exact (Checked.ok.inj hout).symm

theorem twoSlices_hostText {k : Nat} (hk : k = 0 ∨ k = 1) :
    HostText (slice (twoSlices 250) false false k) true 104 := by
  rcases hk with rfl | rfl <;>
    exact ⟨by decide +kernel, ⟨by decide +kernel, by decide +kernel, by decide +kernel,
      by decide +kernel⟩, by decide +kernel⟩

theorem otool_fat_slices_twoSlices : ∃ out : Nat → List UInt8,
    otool (twoSlices 250) (ascii "a") = .ok ⟨0, ftPrintfS (ascii "a") ++ ascii ":\n" ++
      (List.range (nfatArchs (twoSlices 250) false)).flatMap out, []⟩ ∧
    ∀ k, k < nfatArchs (twoSlices 250) false → if Eligible (twoSlices 250) false false k then
      otool (slice (twoSlices 250) false false k) (ascii "a") =
        .ok ⟨0, ftPrintfS (ascii "a") ++ ascii ":\n" ++ out k, []⟩
    else out k = [] := by
  have hn : nfatArchs (twoSlices 250) false = 2 := by decide +kernel
  exact otool_fat_slices (by decide +kernel) (by decide +kernel) (by decide +kernel)
    (by decide +kernel) (by decide +kernel) (by decide +kernel) (by decide +kernel)
    (by decide +kernel) (fun k hk _ => ⟨true, 104, twoSlices_hostText (by omega)⟩) (ascii "a")

end NmOtool.Otool
