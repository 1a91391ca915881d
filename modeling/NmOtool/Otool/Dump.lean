import NmOtool.Common.Dump

/-!
# ft_otool: the dump of a section

`dump.c`: the lines of 16 bytes, each behind its address. The address of the next line is kept in
the section header itself, so the loop rewrites the image as it goes.
-/

namespace NmOtool.Otool

open MachO

/-- `t_nb`: the size and the file offset of a section. -/
structure TNb where
  size : Nat
  offset : Nat
  deriving DecidableEq, Repr

/-- The loop of `hexdumpData` from byte `j`, with `n` rounds left. -/
def hexdumpDataFrom (m : Buffer) (add i size : Nat) : Nat → Nat → Checked (List UInt8)
  | 0, _ => pure []
  | n + 1, j =>
    if j + i = size then pure []
    else do
      let test ← m.load (add + j)
      let rest ← hexdumpDataFrom m add i size n (j + 1)
      pure (ftPrintfX2 test ++ ascii " " ++ rest)

def hexdumpData (m : Buffer) (add i size : Nat) : Checked (List UInt8) :=
  hexdumpDataFrom m add i size 16 0

/-- The loop of `dumpSection` from byte `i`: the value returned, the bytes written, the image.
`is_safe` ends it once `i` passes `g_map_size < 2 ^ 32`, so `2 ^ 28 + 2` rounds are enough. -/
def dumpSectionFrom (add : Nat) (is64 : Bool) (nb : TNb) (ptr : Nat) :
    Nat → Nat → Buffer → Checked (Int × List UInt8 × Buffer)
  | 0, _, _ => .fault
  | fuel + 1, i, m =>
    if i < nb.size then
      let str := ptr + nb.offset + i
      if isSafe m str then do
        let address ← hexdumpAddress m add is64
        let data ← hexdumpData m str i nb.size
        let v ← m.field (wordSize is64) add
        let m ← m.storeField (wordSize is64) add (v + 16)
        let (ret, out, m) ← dumpSectionFrom add is64 nb ptr fuel (i + 16) m
        pure (ret, address ++ ascii "\t" ++ data ++ ascii "\n" ++ out, m)
      else
        pure (-1, [], m)
    else
      pure (0, [], m)

def dumpSection (m : Buffer) (add : Nat) (is64 : Bool) (nb : TNb) (ptr : Nat) :
    Checked (Int × List UInt8 × Buffer) :=
  dumpSectionFrom add is64 nb ptr (2 ^ 28 + 2) 0 m

/-! ## What is printed -/

variable {m m₀ : Buffer} {x : Bool} {add base size addr ptr p i j k n w : Nat}

def byteText (b : UInt8) : List UInt8 := ftPrintfX2 b ++ ascii " "

/-- A line: the address, a tab, the bytes. -/
def textLine (w addr : Nat) (bs : List UInt8) : List UInt8 :=
  hexWord w addr ++ ascii "\t" ++ bs.flatMap byteText ++ ascii "\n"

theorem textLine_ne_nil (w addr : Nat) (bs : List UInt8) : textLine w addr bs ≠ [] := by
  simp [textLine, ascii]

/-- Line `k` of the dump of the `size` bytes at `base`, loaded at `addr`. -/
def lineAt (m : Buffer) (w addr base size k : Nat) : List UInt8 :=
  textLine w ((addr + 16 * k) % 256 ^ w) (((m.bytes base size).drop (16 * k)).take 16)

/-- The lines that cover `size` bytes. -/
def lineCount (size : Nat) : Nat := (size + 15) / 16

def dumpText (m : Buffer) (w addr base size : Nat) : List UInt8 :=
  (List.range (lineCount size)).flatMap (lineAt m w addr base size)

/-- The last line starts where `g_map_size` reaches. -/
def Reaches (m : Buffer) (base size : Nat) : Prop :=
  size = 0 ∨ base + 16 * ((size - 1) / 16) ≤ mapSize m

instance (m : Buffer) (base size : Nat) : Decidable (Reaches m base size) :=
  inferInstanceAs (Decidable (_ ∨ _))

theorem hexdumpDataFrom_ok (h : i + j ≤ size) (hm : p + j + min n (size - i - j) ≤ m.size) :
    hexdumpDataFrom m p i size n j =
      .ok ((m.bytes (p + j) (min n (size - i - j))).flatMap byteText) := by
  induction n generalizing j with
  | zero => rw [hexdumpDataFrom, Nat.zero_min]; rfl
  | succ n ih =>
    unfold hexdumpDataFrom
    by_cases he : j + i = size
    · rw [if_pos he, show size - i - j = 0 by omega, Nat.min_zero]
      rfl
    · rw [show min (n + 1) (size - i - j) = min n (size - i - (j + 1)) + 1 by omega] at hm ⊢
      rw [if_neg he, Buffer.load_ok (by omega), Checked.ok_bind, ih (by omega) (by omega),
        Buffer.bytes_succ, List.flatMap_cons, Checked.ok_bind]
      rfl

theorem drop_take_bytes :
    ((m.bytes base size).drop (16 * k)).take 16 =
      m.bytes (base + 16 * k) (min 16 (size - 16 * k)) := by
  rw [Buffer.drop_bytes]
  rcases Nat.le_total 16 (size - 16 * k) with h16 | h16
  · rw [Buffer.take_bytes h16, Nat.min_eq_left h16]
  · rw [List.take_of_length_le (by simpa using h16), Nat.min_eq_right h16]

/-- The loop before line `k`: the bytes still to print are those of `m₀`, and the header holds the
address of the line. -/
structure BeforeLine (m₀ : Buffer) (x : Bool) (add base size addr k : Nat) (m : Buffer) : Prop where
  data : Buffer.AgreeOn (fun q => base ≤ q ∧ q < base + size) m₀ m
  address : m.le (wordSize x) add = (addr + 16 * k) % 256 ^ wordSize x

theorem BeforeLine.next (h : BeforeLine m₀ x add base size addr k m)
    (hdis : ∀ q, base ≤ q → q < base + size → q < add ∨ add + wordSize x ≤ q) :
    BeforeLine m₀ x add base size addr (k + 1)
      (m.put (wordSize x) add (m.le (wordSize x) add + 16)) := by
  refine ⟨h.data.trans (Buffer.agreeOn_put fun q hq => hdis q hq.1 hq.2), ?_⟩
  rw [Buffer.le_put_self, h.address, Nat.mod_add_mod]
  congr 1

/-- From line `k` on, the loop prints `n` lines, and all that are left if `g_map_size` reaches the
last one. -/
theorem dumpSectionFrom_ok {offset : Nat} (hadd : add + wordSize x ≤ m₀.size)
    (hin : ptr + offset + size ≤ m₀.size)
    (hdis : ∀ q, ptr + offset ≤ q → q < ptr + offset + size → q < add ∨ add + wordSize x ≤ q) :
    ∀ fuel k m, k ≤ 2 ^ 28 → 2 ^ 28 + 2 ≤ fuel + k → k ≤ lineCount size →
      BeforeLine m₀ x add (ptr + offset) size addr k m →
      ∃ n ret m', dumpSectionFrom add x ⟨size, offset⟩ ptr fuel (16 * k) m =
          .ok (ret, (List.range' k n).flatMap
            (lineAt m₀ (wordSize x) addr (ptr + offset) size), m') ∧
        n ≤ lineCount size - k ∧
        (n = lineCount size - k ↔
          (k < lineCount size → ptr + offset + 16 * (lineCount size - 1) ≤ mapSize m₀)) := by
  have hg : mapSize m₀ < 2 ^ 32 := mapSize_lt m₀
  intro fuel
  induction fuel with
  | zero => intro k m h1 h2; omega
  | succ fuel ih =>
    intro k m hk hf hkn hst
    have hsz : m.size = m₀.size := hst.data.size
    have hms : mapSize m = mapSize m₀ := by rw [mapSize, mapSize, hsz]
    unfold dumpSectionFrom
    simp only
    by_cases hlt : 16 * k < size
    · have hklt : k < lineCount size := by unfold lineCount; omega
      rw [if_pos hlt]
      by_cases hs : ptr + offset + 16 * k ≤ mapSize m
      · obtain ⟨n, ret, m', hr, hn, hiff⟩ := ih (k + 1) _ (by omega) (by omega) hklt
          (hst.next hdis)
        have hline : m.bytes (ptr + offset + 16 * k) (min 16 (size - 16 * k)) =
            ((m₀.bytes (ptr + offset) size).drop (16 * k)).take 16 := by
          rw [drop_take_bytes]
          exact Buffer.bytes_congr fun q hq => hst.data.byte _ (by omega)
        rw [if_pos ((isSafe_natCast m _).mpr hs), hexdumpAddress_ok (by omega), Checked.ok_bind,
          hexdumpData, hexdumpDataFrom_ok (by omega) (by omega), Checked.ok_bind,
          Buffer.field_ok (by omega), Checked.ok_bind, Buffer.storeField_ok (by omega),
          Checked.ok_bind, show 16 * k + 16 = 16 * (k + 1) by omega, hr]
        refine ⟨n + 1, ret, m', ?_, by omega, ?_⟩
        · rw [List.range'_succ, List.flatMap_cons, lineAt, textLine, Nat.sub_zero,
            Nat.add_zero (ptr + offset + 16 * k), hline, hst.address]
          simp
        · have : lineCount size - k = lineCount size - (k + 1) + 1 := by omega
          rw [this, Nat.add_right_cancel_iff, hiff]
          refine ⟨fun h _ => ?_, fun h _ => h hklt⟩
          by_cases hlast : k + 1 < lineCount size
          · exact h hlast
          · rw [show lineCount size - 1 = k by omega]
            omega
      · rw [if_neg fun e => hs ((isSafe_natCast m _).mp e)]
        refine ⟨0, -1, m, by simp, by omega, ?_⟩
        refine ⟨fun h => by omega, fun h => ?_⟩
        omega
    · have hke : k = lineCount size := by unfold lineCount at hkn ⊢; omega
      rw [if_neg hlt]
      exact ⟨0, 0, m, by simp, by omega, by omega⟩

theorem dumpSection_ok {offset : Nat} (hadd : add + wordSize x ≤ m.size)
    (hin : ptr + offset + size ≤ m.size)
    (hdis : ∀ q, ptr + offset ≤ q → q < ptr + offset + size → q < add ∨ add + wordSize x ≤ q) :
    ∃ n ret m', dumpSection m add x ⟨size, offset⟩ ptr =
        .ok (ret, (List.range n).flatMap
          (lineAt m (wordSize x) (m.le (wordSize x) add) (ptr + offset) size), m') ∧
      n ≤ lineCount size ∧ (n = lineCount size ↔ Reaches m (ptr + offset) size) := by
  have hstart : BeforeLine m x add (ptr + offset) size (m.le (wordSize x) add) 0 m :=
    ⟨.refl, by rw [Nat.mul_zero, Nat.add_zero, Nat.mod_eq_of_lt m.le_lt]⟩
  obtain ⟨n, ret, m', hr, hn, hiff⟩ := dumpSectionFrom_ok hadd hin hdis (2 ^ 28 + 2) 0 m
    (by omega) (by omega) (by omega) hstart
  refine ⟨n, ret, m', ?_, hn, ?_⟩
  · rw [List.range_eq_range']
    exact hr
  · rw [Nat.sub_zero] at hiff
    rw [hiff]
    unfold Reaches lineCount
    rcases Nat.eq_zero_or_pos size with h0 | hpos
    · exact ⟨fun _ => .inl h0, fun _ h => by omega⟩
    · rw [show (size + 15) / 16 - 1 = (size - 1) / 16 by omega]
      exact ⟨fun h => .inr (h (by omega)), fun h _ => h.resolve_left (by omega)⟩

/-- A dump that leaves the file: the line with the byte behind its end is not printed. -/
theorem hexdumpDataFrom_fault (h : i + j ≤ size) (hp : p + j ≤ m.size)
    (hm : m.size < p + j + min n (size - i - j)) : hexdumpDataFrom m p i size n j = .fault := by
  induction n generalizing j with
  | zero => omega
  | succ n ih =>
    rw [hexdumpDataFrom, if_neg (by omega)]
    rcases Nat.eq_or_lt_of_le hp with he | hlt
    · rw [Buffer.load_fault (by omega)]
      rfl
    · rw [Buffer.load_ok hlt, Checked.ok_bind, ih (by omega) (by omega) (by omega)]
      rfl

theorem dumpSectionFrom_fault {offset : Nat} (hadd : add + wordSize x ≤ m.size)
    (hsz : m.size < 2 ^ 32) (hout : m.size < ptr + offset + size) :
    ∀ fuel k m₁, m₁.size = m.size → ptr + offset + 16 * k ≤ m.size → 2 ^ 28 + 2 ≤ fuel + k →
      dumpSectionFrom add x ⟨size, offset⟩ ptr fuel (16 * k) m₁ = .fault := by
  intro fuel
  induction fuel with
  | zero => intro k m₁ h1 h2 h3; omega
  | succ fuel ih =>
    intro k m₁ hm₁ hk hf
    have hmap : mapSize m₁ = m₁.size := mapSize_eq (by omega)
    unfold dumpSectionFrom
    simp only
    rw [if_pos (by omega), if_pos ((isSafe_natCast m₁ _).mpr (by omega)),
      hexdumpAddress_ok (by omega), Checked.ok_bind, hexdumpData]
    by_cases hline : ptr + offset + 16 * k + min 16 (size - 16 * k) ≤ m.size
    · rw [hexdumpDataFrom_ok (by omega) (by omega), Checked.ok_bind, Buffer.field_ok (by omega),
        Checked.ok_bind, Buffer.storeField_ok (by omega), Checked.ok_bind,
        show 16 * k + 16 = 16 * (k + 1) by omega,
        ih (k + 1) _ (by rw [Buffer.size_put, hm₁]) (by omega) (by omega)]
      rfl
    · rw [hexdumpDataFrom_fault (by omega) (by omega) (by omega)]
      rfl

/-- A dump without lines. -/
theorem dumpSection_nil {offset : Nat} (h : size = 0 ∨ ¬ ptr + offset ≤ mapSize m) :
    ∃ ret, dumpSection m add x ⟨size, offset⟩ ptr = .ok (ret, [], m) := by
  rw [dumpSection, show 2 ^ 28 + 2 = 2 ^ 28 + 1 + 1 from rfl, dumpSectionFrom]
  simp only [Nat.add_zero]
  by_cases h0 : 0 < size
  · rw [if_pos h0, if_neg fun hs => h.resolve_left (by omega) ((isSafe_natCast m _).mp hs)]
    exact ⟨-1, rfl⟩
  · rw [if_neg h0]
    exact ⟨0, rfl⟩

/-- A dump that prints anything has all its bytes in the file. -/
theorem dumpSection_inside {offset : Nat} {ret : Int} {out : List UInt8} {m₁ : Buffer}
    (hadd : add + wordSize x ≤ m.size) (hsz : m.size < 2 ^ 32)
    (h : dumpSection m add x ⟨size, offset⟩ ptr = .ok (ret, out, m₁)) (hne : out ≠ []) :
    ptr + offset + size ≤ m.size := by
  have hmap := mapSize_eq hsz
  by_contra hout
  by_cases hstart : ptr + offset ≤ m.size
  · have hfault : dumpSection m add x ⟨size, offset⟩ ptr = .fault :=
      dumpSectionFrom_fault hadd hsz (by omega) (2 ^ 28 + 2) 0 m rfl (by omega) (by omega)
    rw [hfault] at h
    cases h
  · obtain ⟨ret', hnil⟩ : ∃ ret', dumpSection m add x ⟨size, offset⟩ ptr = .ok (ret', [], m) :=
      dumpSection_nil (.inr (by omega))
    rw [hnil] at h
    cases h
    exact hne rfl

/-- Fewer lines are another text. -/
theorem flatMap_range_inj {f : Nat → List UInt8} (hf : ∀ k, f k ≠ []) {a b : Nat} (hab : a ≤ b)
    (h : (List.range a).flatMap f = (List.range b).flatMap f) : a = b := by
  obtain ⟨d, rfl⟩ := Nat.exists_eq_add_of_le hab
  rw [List.range_add, List.flatMap_append] at h
  have hnil := List.append_right_eq_self.mp h.symm
  cases d with
  | zero => rfl
  | succ d =>
    rw [List.range_succ_eq_map] at hnil
    simp only [List.map_cons, List.flatMap_cons, List.append_eq_nil_iff] at hnil
    exact absurd hnil.1 (hf _)

/-- The lines cover the contents: their bytes are all of them, in order. -/
theorem flatten_lines (bs : List UInt8) :
    (List.range (lineCount bs.length)).flatMap (fun k => (bs.drop (16 * k)).take 16) = bs := by
  have key : ∀ n, (List.range n).flatMap (fun k => (bs.drop (16 * k)).take 16) =
      bs.take (16 * n) := by
    intro n
    induction n with
    | zero => simp
    | succ n ih =>
      rw [List.range_succ, List.flatMap_append, ih, Nat.mul_succ, List.take_add]
      simp
  rw [key, List.take_of_length_le]
  unfold lineCount
  omega

/-! ## Reading a dump back -/

theorem textLine_inj {a b : Nat} {bs cs r s : List UInt8} (ha : a < 256 ^ w) (hb : b < 256 ^ w)
    (h : textLine w a bs ++ r = textLine w b cs ++ s) : a = b ∧ bs = cs ∧ r = s := by
  -- the bytes end where a line feed stands in the place of a digit
  have key : ∀ bs cs : List UInt8, bs.flatMap byteText ++ (ascii "\n" ++ r) =
      cs.flatMap byteText ++ (ascii "\n" ++ s) → bs = cs ∧ r = s := by
    intro bs
    induction bs with
    | nil =>
      intro cs h
      cases cs with
      | nil => exact ⟨rfl, List.append_cancel_left h⟩
      | cons c cs =>
        have hc := c.toNat_lt
        rw [List.flatMap_cons, byteText, ftPrintfX2_eq] at h
        exact absurd (List.cons.inj h).1.symm (hexDigit_ne_newline (by omega))
    | cons b bs ih =>
      intro cs h
      cases cs with
      | nil =>
        have hb := b.toNat_lt
        rw [List.flatMap_cons, byteText, ftPrintfX2_eq] at h
        exact absurd (List.cons.inj h).1 (hexDigit_ne_newline (by omega))
      | cons c cs =>
        rw [List.flatMap_cons, List.flatMap_cons, List.append_assoc, List.append_assoc] at h
        obtain ⟨h1, h2⟩ := List.append_inj h (by simp [byteText, ftPrintfX2_eq])
        obtain ⟨rfl, rfl⟩ := ih cs h2
        exact ⟨by rw [ftPrintfX2_inj (List.append_cancel_right h1)], rfl⟩
  simp only [textLine, List.append_assoc] at h
  obtain ⟨h1, h2⟩ := List.append_inj h (by rw [length_hexWord, length_hexWord])
  exact ⟨hexWord_inj ha hb h1, key bs cs (List.append_cancel_left h2)⟩

/-- The lines of a dump, as addresses and bytes. -/
def linesOf (m : Buffer) (w addr base size : Nat) : List (Nat × List UInt8) :=
  (List.range (lineCount size)).map fun k =>
    ((addr + 16 * k) % 256 ^ w, ((m.bytes base size).drop (16 * k)).take 16)

theorem dumpText_eq : dumpText m w addr base size =
    (linesOf m w addr base size).flatMap fun l => textLine w l.1 l.2 := by
  rw [dumpText, linesOf, List.flatMap_map]
  rfl

/-- A dump shows its address and the bytes of its contents only. -/
theorem dumpText_congr {m' : Buffer} {base' : Nat} (h : m.bytes base size = m'.bytes base' size) :
    dumpText m w addr base size = dumpText m' w addr base' size := by
  rw [dumpText_eq, dumpText_eq, linesOf, linesOf, h]

theorem dumpText_ne_nil (h : 0 < size) : dumpText m w addr base size ≠ [] := by
  obtain ⟨c, hc⟩ : ∃ c, lineCount size = c + 1 := ⟨lineCount size - 1, by unfold lineCount; omega⟩
  rw [dumpText, hc, List.range_succ_eq_map, List.flatMap_cons]
  exact fun h0 => textLine_ne_nil _ _ _ (List.append_eq_nil_iff.mp h0).1

theorem lines_inj {ls ls' : List (Nat × List UInt8)} (hl : ∀ l ∈ ls, l.1 < 256 ^ w)
    (hl' : ∀ l ∈ ls', l.1 < 256 ^ w)
    (h : (ls.flatMap fun l => textLine w l.1 l.2) = ls'.flatMap fun l => textLine w l.1 l.2) :
    ls = ls' := by
  induction ls generalizing ls' with
  | nil =>
    cases ls' with
    | nil => rfl
    | cons l' ls' =>
      rw [List.flatMap_cons] at h
      exact absurd (List.append_eq_nil_iff.mp h.symm).1 (textLine_ne_nil _ _ _)
  | cons l ls ih =>
    cases ls' with
    | nil =>
      rw [List.flatMap_cons] at h
      exact absurd (List.append_eq_nil_iff.mp h).1 (textLine_ne_nil _ _ _)
    | cons l' ls' =>
      obtain ⟨h1, h2, h3⟩ := textLine_inj (hl l List.mem_cons_self) (hl' l' List.mem_cons_self) h
      rw [Prod.ext h1 h2, ih (fun l h => hl l (List.mem_cons_of_mem _ h))
        (fun l h => hl' l (List.mem_cons_of_mem _ h)) h3]

/-- A dump gives the address and the contents of what it shows, unless that is empty. -/
theorem dumpText_inj {m' : Buffer} {addr' base' size' : Nat} (ha : addr < 256 ^ w)
    (ha' : addr' < 256 ^ w) (hpos : 0 < size)
    (h : dumpText m w addr base size = dumpText m' w addr' base' size') :
    addr = addr' ∧ m.bytes base size = m'.bytes base' size' := by
  rw [dumpText_eq, dumpText_eq] at h
  have hbound : ∀ (m : Buffer) addr base size, ∀ l ∈ linesOf m w addr base size, l.1 < 256 ^ w := by
    intro m addr base size l hl
    obtain ⟨k, -, rfl⟩ := List.mem_map.mp hl
    exact Nat.mod_lt _ (Nat.pow_pos (by decide))
  have hlines := lines_inj (hbound m addr base size) (hbound m' addr' base' size') h
  have hcover : ∀ (m : Buffer) addr base size,
      (linesOf m w addr base size).flatMap Prod.snd = m.bytes base size := by
    intro m addr base size
    have := flatten_lines (m.bytes base size)
    rw [Buffer.length_bytes] at this
    rw [linesOf, List.flatMap_map]
    exact this
  refine ⟨?_, by rw [← hcover m addr, hlines, hcover]⟩
  have hcount : lineCount size = lineCount size' := by
    simpa [linesOf] using congrArg List.length hlines
  obtain ⟨c, hc⟩ : ∃ c, lineCount size = c + 1 := ⟨lineCount size - 1, by unfold lineCount; omega⟩
  rw [linesOf, linesOf, ← hcount, hc, List.range_succ_eq_map, List.map_cons, List.map_cons] at hlines
  have hfirst := (Prod.mk.inj (List.cons.inj hlines).1).1
  simpa [Nat.mod_eq_of_lt ha, Nat.mod_eq_of_lt ha'] using hfirst

end NmOtool.Otool
