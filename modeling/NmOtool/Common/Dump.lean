import NmOtool.Common.Image
import NmOtool.Common.Printf

/-!
# Hexadecimal dumps

`hexdump_address` of `dump.c`, which the two programs share: the value at an address of the map,
its highest byte first, two digits a byte.
-/

namespace NmOtool

open MachO

/-- The loop of `hexdumpAddress` over the `count` low bytes, the highest first. -/
def hexdumpBytes (m : Buffer) (add : Nat) : Nat → Checked (List UInt8)
  | 0 => pure []
  | count + 1 => do
    let test ← m.load (add + count)
    let rest ← hexdumpBytes m add count
    pure (ftPrintfX2 test ++ rest)

def hexdumpAddress (m : Buffer) (add : Nat) (is64 : Bool) : Checked (List UInt8) :=
  hexdumpBytes m add (wordSize is64)

/-- The `2 * w` digits of a `w`-byte value. -/
def hexWord (w v : Nat) : List UInt8 := (toLE w v).reverse.flatMap ftPrintfX2

theorem hexdumpBytes_ok {m : Buffer} {p : Nat} :
    ∀ n, p + n ≤ m.size → hexdumpBytes m p n = .ok ((m.bytes p n).reverse.flatMap ftPrintfX2) := by
  intro n
  induction n with
  | zero => intro _; rfl
  | succ n ih =>
    intro h
    rw [hexdumpBytes, Buffer.load_ok (by omega), Checked.ok_bind, ih (by omega), Checked.ok_bind,
      Buffer.bytes_add, Buffer.bytes_succ, Buffer.bytes_zero, List.reverse_append]
    rfl

theorem hexdumpAddress_ok {m : Buffer} {p : Nat} {is64 : Bool} (h : p + wordSize is64 ≤ m.size) :
    hexdumpAddress m p is64 = .ok (hexWord (wordSize is64) (m.le (wordSize is64) p)) := by
  have hb := toLE_ofLE (m.bytes p (wordSize is64))
  rw [Buffer.length_bytes] at hb
  rw [hexdumpAddress, hexdumpBytes_ok _ h, hexWord, Buffer.le, hb]

/-- The highest byte is read first, and the last of the map. -/
theorem hexdumpAddress_le {m : Buffer} {p : Nat} {is64 : Bool} {s : List UInt8}
    (h : hexdumpAddress m p is64 = .ok s) : p + wordSize is64 ≤ m.size := by
  have hpos : 0 < wordSize is64 := by cases is64 <;> decide
  rw [hexdumpAddress, show wordSize is64 = wordSize is64 - 1 + 1 by omega, hexdumpBytes] at h
  obtain ⟨test, hb, -⟩ := Checked.bind_eq_ok.mp h
  unfold Buffer.load at hb
  split at hb
  · omega
  · cases hb

theorem length_hexWord (w v : Nat) : (hexWord w v).length = 2 * w := by
  have key : ∀ bs : List UInt8, (bs.flatMap ftPrintfX2).length = 2 * bs.length := by
    intro bs
    induction bs with
    | nil => rfl
    | cons b bs ih =>
      rw [List.flatMap_cons, List.length_append, ih, ftPrintfX2_eq]
      simp
      omega
  rw [hexWord, key]
  simp

/-- The digits give the value. -/
theorem hexWord_inj {w a b : Nat} (ha : a < 256 ^ w) (hb : b < 256 ^ w)
    (h : hexWord w a = hexWord w b) : a = b := by
  have key : ∀ bs cs : List UInt8, bs.length = cs.length →
      bs.flatMap ftPrintfX2 = cs.flatMap ftPrintfX2 → bs = cs := by
    intro bs cs hlen h
    induction bs generalizing cs with
    | nil => exact (List.length_eq_zero_iff.mp hlen.symm).symm
    | cons b bs ih =>
      obtain ⟨c, cs, rfl⟩ := List.exists_cons_of_length_eq_add_one hlen.symm
      rw [List.flatMap_cons, List.flatMap_cons] at h
      obtain ⟨h1, h2⟩ := List.append_inj h (by rw [ftPrintfX2_eq, ftPrintfX2_eq]; rfl)
      rw [ftPrintfX2_inj h1, ih cs (by simpa using hlen) h2]
  have hrev := key _ _ (by simp) h
  rw [← ofLE_toLE ha, ← ofLE_toLE hb, List.reverse_inj.mp hrev]

end NmOtool
