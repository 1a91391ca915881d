import NmOtool.Nm.Readback
import NmOtool.Otool.Relocate

/-!
# ft_otool: a dump is read back

The output for a well-formed thin file in the order of the host determines the bytes of its text
section and, unless there are none, the address of the first; and nothing else of the file shows.
-/

namespace NmOtool.Otool

open MachO Checked

variable {m m' : Buffer} {x : Bool} {sec sec' : Nat} {name : List UInt8}

/-- The contents of the section whose header is at `sec`. -/
def contents (m : Buffer) (x : Bool) (sec : Nat) : List UInt8 :=
  m.bytes (secOffset m x sec) (secSize m x sec)

/-- `m` is a well-formed thin file of the width `x`, in the order of the host, that `g_map_size`
measures; its first text section has its header at `sec`. -/
structure HostText (m : Buffer) (x : Bool) (sec : Nat) : Prop where
  magic : m.le 4 0 = if x then MH_MAGIC_64 else MH_MAGIC
  text : WfText m x 0 sec
  size : m.size < 2 ^ 32

theorem HostText.dispatch (h : HostText m x sec) : notValidHeader (m.le 4 0) = false ∧
    is64File (m.le 4 0) = x ∧ shouldSwapFile (m.le 4 0) = false := by
  rw [h.magic]
  cases x <;> decide

theorem otool_hostText (h : HostText m x sec) : otool m name =
    .ok ⟨0, ftPrintfS name ++ ascii ":\n" ++ (heading ++
      dumpText m (wordSize x) (secAddr m x sec) (secOffset m x sec) (secSize m x sec)), []⟩ := by
  obtain ⟨hthin, hwidth, hhost⟩ := h.dispatch
  have hend := h.text.header
  have hss := le_segmentSize x
  have hhs := le_headerSize x
  have hmap := mapSize_eq h.size
  obtain ⟨hiff, hreach, -⟩ := handleNotFat_dumps h.text
  obtain ⟨m', hr⟩ := hiff.mpr (hreach h.size)
  rw [otool_thin (by omega) hthin, hwidth, hhost, hr, ok_bind, Nat.zero_add]
  rfl

/-- Two files of one width have the same output exactly if their text sections hold the same bytes,
loaded at the same address unless there are none. -/
theorem otool_same_dump (h : HostText m x sec) (h' : HostText m' x sec') (name : List UInt8) :
    otool m' name = otool m name ↔
      contents m' x sec' = contents m x sec ∧
        (contents m x sec ≠ [] → secAddr m' x sec' = secAddr m x sec) := by
  have hnil : contents m x sec = [] ↔ secSize m x sec = 0 := by
    rw [contents, ← List.length_eq_zero_iff, Buffer.length_bytes]
  rw [otool_hostText h, otool_hostText h']
  constructor
  · intro hsame
    have hout := congrArg Nm.Outcome.out (Checked.ok.inj hsame)
    have hdump := List.append_cancel_left (List.append_cancel_left hout)
    rcases Nat.eq_zero_or_pos (secSize m x sec) with h0 | hpos
    · have h0' : secSize m' x sec' = 0 := by
        by_contra hne
        rw [h0] at hdump
        exact dumpText_ne_nil (Nat.pos_of_ne_zero hne) hdump
      refine ⟨?_, fun hne => absurd (hnil.mpr h0) hne⟩
      rw [contents, contents, h0, h0', Buffer.bytes_zero, Buffer.bytes_zero]
    · obtain ⟨haddr, hbytes⟩ := dumpText_inj Buffer.le_lt Buffer.le_lt hpos hdump.symm
      exact ⟨hbytes.symm, fun _ => haddr.symm⟩
  · rintro ⟨hbytes, haddr⟩
    have hsize : secSize m' x sec' = secSize m x sec := by
      simpa [contents] using congrArg List.length hbytes
    have hdump : dumpText m' (wordSize x) (secAddr m' x sec') (secOffset m' x sec')
        (secSize m' x sec') = dumpText m (wordSize x) (secAddr m x sec) (secOffset m x sec)
        (secSize m x sec) := by
      rw [contents, contents, hsize] at hbytes
      rw [hsize]
      rcases Nat.eq_zero_or_pos (secSize m x sec) with h0 | hpos
      · rw [h0]
        rfl
      · rw [haddr fun hne => by rw [hnil] at hne; omega]
        exact dumpText_congr hbytes
    rw [hdump]

/-- The symbol table does not show. -/
theorem otool_same_dump_turnedFile :
    otool (Nm.turnedFile.image .little true) (ascii "a") =
      otool ((smallFile true).image .little true) (ascii "a") := by
  have hsmall : HostText ((smallFile true).image .little true) true 104 :=
    ⟨by decide +kernel, smallFile_wfText, by decide +kernel⟩
  have hturned : HostText (Nm.turnedFile.image .little true) true 104 :=
    ⟨by decide +kernel,
      ⟨by decide +kernel, by decide +kernel, by decide +kernel, by decide +kernel⟩,
      by decide +kernel⟩
  exact (otool_same_dump hsmall hturned _).mpr ⟨by decide +kernel, fun _ => by decide +kernel⟩

end NmOtool.Otool
