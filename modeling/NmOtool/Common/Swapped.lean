import NmOtool.Common.Swap
import NmOtool.MachO.Encode

/-!
# Load commands of a byte-swapped file

What a run with `should_swap = 1` reads of the header and of a command, behind their swaps. Both
come out right, but the number of sections of a segment does not: `swap_segment_command` reverses
bytes of `filesize` (`fileoff`) in its place.
-/

namespace NmOtool

open MachO

variable {m : Buffer} {x : Bool} {p : Nat}

theorem read_headerImage {d : Description} (hd : d.Wf x) (hm : m.Holds 0 (d.encode .big x)) :
    ncmds (headerImage true m 0) 0 = d.commands.length := by
  have h : m.le 4 (0 + 16) = byteSwap 4 d.commands.length := Description.read_ncmds hd hm
  unfold headerImage ncmds
  rw [if_pos rfl, Buffer.le_reverse_self, h, byteSwap_byteSwap hd.ncmds]

theorem read_commandImage {c : Command} {p : Nat} (hc : c.Wf x) (hm : m.Holds p (c.encode .big x)) :
    cmd (commandImage true m p) p = c.cmd x ∧ cmdsize (commandImage true m p) p = c.size x := by
  have h1 : m.le 4 p = byteSwap 4 (c.cmd x) := Command.read_cmd hc hm
  have h2 : m.le 4 (p + 4) = byteSwap 4 (c.size x) := Command.read_cmdsize hc hm
  unfold commandImage cmd cmdsize
  rw [if_pos rfl, Buffer.le_reverse_out (by omega), Buffer.le_reverse_self, Buffer.le_reverse_self,
    Buffer.le_reverse_out (by omega), h1, h2, byteSwap_byteSwap (Command.cmd_lt hc),
    byteSwap_byteSwap hc.1]
  exact ⟨rfl, rfl⟩

/-- The number of sections stays as a little-endian reader finds it. -/
theorem read_segmentImage {segname : List UInt8} {extent prot : List Nat} {flags : Nat}
    {sections : List Section} (h : (Command.segment segname extent prot flags sections).Wf x)
    (hm : m.Holds p ((Command.segment segname extent prot flags sections).encode .big x)) :
    nsects (segmentImage true x (commandImage true m p) p) x p = byteSwap 4 sections.length := by
  have h48 := le_nsectsOffset x
  have hn : nsects m x p = byteSwap 4 sections.length := Command.read_nsects h hm
  rw [← hn, nsects, agreeOn_segmentImage.le fun k _ => .inr (by omega),
    agreeOn_commandImage.le fun k _ => .inr (by omega), nsects]

end NmOtool
