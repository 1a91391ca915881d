import NmOtool.Base.Buffer
import NmOtool.MachO.Layout
import Mathlib.Tactic.IntervalCases

/-!
# Byte swapping

`swap_bytes.c`, `swap_elements.c` and `swap_elements_2.c`, which the two programs share line for
line. `swapUint32` and `swapUint64` swap a value; the others rewrite the image in place. Every
in-place swap is a composition of `Buffer.reverse`: `swapEndiane_eq` says so for one field, and
the structure helpers follow.
-/

namespace NmOtool

open MachO

/-! ## Values -/

def swapUint64 (n : BitVec 64) : BitVec 64 :=
  let n := ((n <<< 8) &&& 0xFF00FF00FF00FF00#64) ||| ((n >>> 8) &&& 0x00FF00FF00FF00FF#64)
  let n := ((n <<< 16) &&& 0xFFFF0000FFFF0000#64) ||| ((n >>> 16) &&& 0x0000FFFF0000FFFF#64)
  (n <<< 32) ||| (n >>> 32)

def swapUint32 (n : BitVec 32) : BitVec 32 :=
  let n := ((n <<< 8) &&& 0xFF00FF00#32) ||| ((n >>> 8) &&& 0xFF00FF#32)
  (n <<< 16) ||| (n >>> 16)

theorem getLsbD_swapUint64 (n : BitVec 64) {i : Nat} (h : i < 64) :
    (swapUint64 n).getLsbD i = n.getLsbD (56 + 2 * (i % 8) - i) := by
  interval_cases i <;> simp [swapUint64]

theorem getLsbD_swapUint32 (n : BitVec 32) {i : Nat} (h : i < 32) :
    (swapUint32 n).getLsbD i = n.getLsbD (24 + 2 * (i % 8) - i) := by
  interval_cases i <;> simp [swapUint32]

theorem toNat_swapUint64 (n : BitVec 64) : (swapUint64 n).toNat = byteSwap 8 n.toNat := by
  refine eq_byteSwap (swapUint64 n).isLt fun k hk => byte_eq_of_bits fun j hj => ?_
  rw [BitVec.testBit_toNat, BitVec.testBit_toNat, getLsbD_swapUint64 n (by omega)]
  congr 1
  omega

theorem toNat_swapUint32 (n : BitVec 32) : (swapUint32 n).toNat = byteSwap 4 n.toNat := by
  refine eq_byteSwap (swapUint32 n).isLt fun k hk => byte_eq_of_bits fun j hj => ?_
  rw [BitVec.testBit_toNat, BitVec.testBit_toNat, getLsbD_swapUint32 n (by omega)]
  congr 1
  omega

/-! ## Fields in place -/

/-- The loop of `swapEndiane` from the counters `i` and `j`; `byte + 1` rounds are enough. -/
def swapEndianeFrom (data : Nat) : Nat → Int → Int → Buffer → Checked Buffer
  | 0, _, _, m => .ok m
  | fuel + 1, i, j, m =>
    let i := i + 1
    let j := j - 1
    if i ≤ j then do
      let temp ← m.load (data + i).toNat
      let b ← m.load (data + j).toNat
      let m ← m.store (data + i).toNat b
      let m ← m.store (data + j).toNat temp
      swapEndianeFrom data fuel i j m
    else
      .ok m

def swapEndiane (m : Buffer) (data byte : Nat) : Checked Buffer :=
  swapEndianeFrom data (byte + 1) (-1) byte m

def swap32 (m : Buffer) (data : Nat) : Checked Buffer := swapEndiane m data 4

def swap64 (m : Buffer) (data : Nat) : Checked Buffer := swapEndiane m data 8

/-- The loop of `swapNb32` from the counter `i`, with `nb` words left. The product `i * 4` is an
`int`, and its overflow is a fault. -/
def swapNb32From (ptr : Nat) : Nat → Nat → Buffer → Checked Buffer
  | 0, _, m => .ok m
  | nb + 1, i, m =>
    if i * 4 < 2 ^ 31 then do
      let m ← swap32 m (ptr + i * 4)
      swapNb32From ptr nb (i + 1) m
    else .fault

def swapNb32 (m : Buffer) (ptr nb : Nat) : Checked Buffer := swapNb32From ptr nb 0 m

/-! ## Structures in place -/

def swapMachHeader (m : Buffer) (ptr : Nat) : Checked Buffer := swap32 m (ptr + 16)

def swapLoadcommand (m : Buffer) (ptr : Nat) : Checked Buffer := swapNb32 m ptr 2

def swapSymtab (m : Buffer) (ptr : Nat) : Checked Buffer := swapNb32 m (ptr + 8) 4

def swapNlist (m : Buffer) (ptr : Nat) (is64 : Bool) : Checked Buffer := do
  let m ← swapNb32 m ptr 1
  let m ← swapEndiane m (ptr + 5) 2
  if is64 then swap64 m (ptr + 7) else swapNb32 m (ptr + 7) 1

/-- `sizeof(vm_prot_t)`. -/
def vmProtSize : Nat := 4

def swapSegmentCommand (m : Buffer) (ptr : Nat) (is64 : Bool) : Checked Buffer :=
  if is64 then swapNb32 m (ptr + 42 + 2 * vmProtSize) 1
  else swapNb32 m (ptr + 26 + 2 * vmProtSize) 1

def swapSection (m : Buffer) (ptr : Nat) (is64 : Bool) : Checked Buffer :=
  if is64 then do
    let m ← swap64 m (ptr + 4)
    let m ← swap64 m (ptr + 12)
    swap32 m (ptr + 20)
  else
    swapNb32 m (ptr + 4) 3

/-! ## Every swap is a reversal -/

/-- The image after `k` rounds of `swapEndiane`: the outer `k` bytes at each end exchanged. -/
def swapEnds (m : Buffer) (p n k : Nat) : Buffer where
  size := m.size
  byte q :=
    if (p ≤ q ∧ q < p + k) ∨ (p + (n - k) ≤ q ∧ q < p + n) then m.byte (p + (p + n - 1 - q))
    else m.byte q

theorem swapEnds_zero (m : Buffer) (p n : Nat) : swapEnds m p n 0 = m := by
  cases m
  simp only [swapEnds, Buffer.mk.injEq, true_and]
  funext q
  rw [if_neg (by omega)]

/-- All is reversed when at most the byte in the middle is left. -/
theorem swapEnds_half (m : Buffer) {p n k : Nat} (h : n ≤ 2 * k + 1) (hk : k ≤ n) :
    swapEnds m p n k = m.reverse p n := by
  simp only [swapEnds, Buffer.reverse, Buffer.mk.injEq, true_and]
  funext q
  by_cases hq : p ≤ q ∧ q < p + n
  · rw [if_pos hq]
    by_cases hmid : q = p + k ∧ n = 2 * k + 1
    · rw [if_neg (by omega)]
      congr 1
      omega
    · rw [if_pos (by omega)]
  · rw [if_neg (by omega), if_neg hq]

/-- One round: the bytes `p + k` and `p + (n - 1 - k)` change places. -/
theorem swapEnds_succ (m : Buffer) {p n k : Nat} (h : 2 * k < n) :
    swapEnds m p n (k + 1) =
      { swapEnds m p n k with
        byte := fun q =>
          if q = p + (n - 1 - k) then m.byte (p + k)
          else if q = p + k then m.byte (p + (n - 1 - k))
          else (swapEnds m p n k).byte q } := by
  simp only [swapEnds, Buffer.mk.injEq, true_and]
  funext q
  by_cases h1 : q = p + (n - 1 - k)
  · rw [if_pos (by omega), if_pos h1]
    congr 1
    omega
  · rw [if_neg h1]
    by_cases h2 : q = p + k
    · rw [if_pos (by omega), if_pos h2]
      congr 1
      omega
    · rw [if_neg h2]
      by_cases h3 : (p ≤ q ∧ q < p + k) ∨ (p + (n - k) ≤ q ∧ q < p + n)
      · rw [if_pos (by omega), if_pos h3]
      · rw [if_neg (by omega), if_neg h3]

/-- From round `k` on, the loop reverses what is left. -/
theorem swapEndianeFrom_eq (m : Buffer) {p n : Nat} (hn : p + n ≤ m.size) :
    ∀ fuel k, 2 * k ≤ n + 1 → n + 2 ≤ fuel + 2 * k + 1 →
      swapEndianeFrom p fuel ((k : Int) - 1) ((n : Int) - k) (swapEnds m p n k) =
        .ok (m.reverse p n) := by
  intro fuel
  induction fuel with
  | zero =>
    intro k h1 h2
    rw [swapEndianeFrom, swapEnds_half m (by omega) (by omega)]
  | succ fuel ih =>
    intro k h1 h2
    unfold swapEndianeFrom
    simp only
    by_cases hk : 2 * k < n
    · have e1 : ((p : Int) + ((k : Int) - 1 + 1)).toNat = p + k := by omega
      have e2 : ((p : Int) + ((n : Int) - k - 1)).toNat = p + (n - 1 - k) := by omega
      rw [if_pos (by omega), e1, e2, Buffer.load_ok (by simp only [swapEnds]; omega),
        Checked.ok_bind, Buffer.load_ok (by simp only [swapEnds]; omega), Checked.ok_bind]
      have b1 : (swapEnds m p n k).byte (p + k) = m.byte (p + k) := if_neg (by omega)
      have b2 : (swapEnds m p n k).byte (p + (n - 1 - k)) = m.byte (p + (n - 1 - k)) :=
        if_neg (by omega)
      rw [Buffer.store, if_pos (by simp only [swapEnds]; omega), Checked.ok_bind, Buffer.store,
        if_pos (by simp only [swapEnds]; omega), Checked.ok_bind, b1, b2]
      have := ih (k + 1) (by omega) (by omega)
      rw [swapEnds_succ m hk] at this
      rw [← this]
      congr 1 <;> omega
    · rw [if_neg (by omega), swapEnds_half m (by omega) (by omega)]

theorem swapEndiane_ok {m : Buffer} {p n : Nat} (h : p + n ≤ m.size) :
    swapEndiane m p n = .ok (m.reverse p n) := by
  have := swapEndianeFrom_eq m h (n + 1) 0 (by omega) (by omega)
  rw [swapEnds_zero] at this
  simpa [swapEndiane] using this

/-- The first round already reads both ends. -/
theorem swapEndiane_fault {m : Buffer} {p n : Nat} (hn : 0 < n) (h : m.size < p + n) :
    swapEndiane m p n = .fault := by
  unfold swapEndiane swapEndianeFrom
  simp only
  rw [if_pos (by omega), show ((p : Int) + ((n : Int) - 1)).toNat = p + (n - 1) by omega]
  rw [Buffer.load_fault (show m.size ≤ p + (n - 1) by omega)]
  cases m.load ((p : Int) + (-1 + 1)).toNat <;> rfl

/-! ## The structures -/

section
variable {m : Buffer} {p : Nat}

theorem swap32_ok (h : p + 4 ≤ m.size) : swap32 m p = .ok (m.reverse p 4) := swapEndiane_ok h

/-- Words `i`, …, `i + nb - 1` from `p`, each reversed. -/
def reverseWords (p : Nat) : Nat → Nat → Buffer → Buffer
  | 0, _, m => m
  | nb + 1, i, m => reverseWords p nb (i + 1) (m.reverse (p + i * 4) 4)

theorem swapNb32From_ok :
    ∀ nb i (m : Buffer), i + nb ≤ 2 ^ 29 → p + (i + nb) * 4 ≤ m.size →
      swapNb32From p nb i m = .ok (reverseWords p nb i m)
  | 0, _, _, _, _ => rfl
  | nb + 1, i, m, hint, h => by
    rw [swapNb32From, if_pos (by omega), swap32_ok (by omega), Checked.ok_bind,
      swapNb32From_ok nb (i + 1) (m.reverse (p + i * 4) 4) (by omega) (by simp; omega),
      reverseWords]

theorem swapNb32_ok {nb : Nat} (hint : nb ≤ 2 ^ 29) (h : p + nb * 4 ≤ m.size) :
    swapNb32 m p nb = .ok (reverseWords p nb 0 m) :=
  swapNb32From_ok nb 0 m (by omega) (by omega)

@[simp] theorem size_reverseWords (p : Nat) :
    ∀ nb i (m : Buffer), (reverseWords p nb i m).size = m.size
  | 0, _, _ => rfl
  | nb + 1, i, m => by rw [reverseWords, size_reverseWords p nb (i + 1)]; rfl

theorem swapMachHeader_ok (h : p + 20 ≤ m.size) :
    swapMachHeader m p = .ok (m.reverse (p + 16) 4) :=
  swap32_ok (by omega)

theorem swapLoadcommand_ok (h : p + 8 ≤ m.size) :
    swapLoadcommand m p = .ok ((m.reverse p 4).reverse (p + 4) 4) :=
  swapNb32_ok (by decide) (by omega)

theorem swapSymtab_ok (h : p + 24 ≤ m.size) :
    swapSymtab m p = .ok ((((m.reverse (p + 8) 4).reverse (p + 12) 4).reverse (p + 16) 4).reverse
      (p + 20) 4) :=
  swapNb32_ok (by decide) (by omega)

theorem swapSegmentCommand_ok {is64 : Bool} (h : p + segmentSize is64 ≤ m.size) :
    swapSegmentCommand m p is64 = .ok (m.reverse (p + if is64 then 50 else 34) 4) := by
  cases is64 <;> simp only [segmentSize, Bool.false_eq_true, if_false, if_true] at h
  · exact swapNb32_ok (by decide) (by simp only [vmProtSize]; omega)
  · exact swapNb32_ok (by decide) (by simp only [vmProtSize]; omega)

end

/-! ## The image behind an optional swap

A run rewrites a structure before it reads it if the file is in the other byte order, `s`. -/

section
variable {m : Buffer} {s x : Bool} {p : Nat}

def headerImage (s : Bool) (m : Buffer) (p : Nat) : Buffer := if s then m.reverse (p + 16) 4 else m

def commandImage (s : Bool) (m : Buffer) (p : Nat) : Buffer :=
  if s then (m.reverse p 4).reverse (p + 4) 4 else m

def symtabImage (s : Bool) (m : Buffer) (p : Nat) : Buffer :=
  if s then
    (((m.reverse (p + 8) 4).reverse (p + 12) 4).reverse (p + 16) 4).reverse (p + 20) 4
  else m

def segmentImage (s x : Bool) (m : Buffer) (p : Nat) : Buffer :=
  if s then m.reverse (p + if x then 50 else 34) 4 else m

def sectionImage (s x : Bool) (m : Buffer) (p : Nat) : Buffer :=
  if s then
    if x then ((m.reverse (p + 4) 8).reverse (p + 12) 8).reverse (p + 20) 4
    else ((m.reverse (p + 4) 4).reverse (p + 8) 4).reverse (p + 12) 4
  else m

def entryImage (s x : Bool) (m : Buffer) (p : Nat) : Buffer :=
  if s then ((m.reverse p 4).reverse (p + 5) 2).reverse (p + 7) (wordSize x) else m

@[simp] theorem headerImage_false : headerImage false m p = m := rfl

@[simp] theorem commandImage_false : commandImage false m p = m := rfl

@[simp] theorem symtabImage_false : symtabImage false m p = m := rfl

@[simp] theorem segmentImage_false : segmentImage false x m p = m := rfl

@[simp] theorem sectionImage_false : sectionImage false x m p = m := rfl

@[simp] theorem entryImage_false : entryImage false x m p = m := rfl

@[simp] theorem size_headerImage : (headerImage s m p).size = m.size := by cases s <;> rfl

@[simp] theorem size_commandImage : (commandImage s m p).size = m.size := by cases s <;> rfl

@[simp] theorem size_symtabImage : (symtabImage s m p).size = m.size := by cases s <;> rfl

@[simp] theorem size_segmentImage : (segmentImage s x m p).size = m.size := by cases s <;> rfl

@[simp] theorem size_sectionImage : (sectionImage s x m p).size = m.size := by
  cases s <;> cases x <;> rfl

@[simp] theorem size_entryImage : (entryImage s x m p).size = m.size := by cases s <;> rfl

/-! What a swap leaves alone. -/

theorem agreeOn_headerImage :
    m.AgreeOn (fun q => q < p + 16 ∨ p + 20 ≤ q) (headerImage s m p) := by
  cases s with
  | false => exact .refl
  | true => exact Buffer.agreeOn_reverse fun q hq => by omega

theorem agreeOn_commandImage :
    m.AgreeOn (fun q => q < p ∨ p + 8 ≤ q) (commandImage s m p) := by
  cases s with
  | false => exact .refl
  | true =>
    unfold commandImage
    rw [if_pos rfl]
    refine (Buffer.agreeOn_reverse ?_).trans (Buffer.agreeOn_reverse ?_) <;> intro q hq <;> omega

theorem agreeOn_symtabImage :
    m.AgreeOn (fun q => q < p + 8 ∨ p + 24 ≤ q) (symtabImage s m p) := by
  cases s with
  | false => exact .refl
  | true =>
    unfold symtabImage
    rw [if_pos rfl]
    refine (((Buffer.agreeOn_reverse ?_).trans (Buffer.agreeOn_reverse ?_)).trans
      (Buffer.agreeOn_reverse ?_)).trans (Buffer.agreeOn_reverse ?_) <;> intro q hq <;> omega

theorem agreeOn_segmentImage :
    m.AgreeOn (fun q => q < p + 8 ∨ p + nsectsOffset x ≤ q) (segmentImage s x m p) := by
  cases s with
  | false => exact .refl
  | true =>
    unfold segmentImage nsectsOffset
    apply Buffer.agreeOn_reverse
    intro q hq
    cases x <;> simp only [Bool.false_eq_true, if_false, if_true] at hq ⊢ <;> omega

theorem agreeOn_sectionImage :
    m.AgreeOn (fun q => q < p + 4 ∨ p + 24 ≤ q) (sectionImage s x m p) := by
  cases s with
  | false => exact .refl
  | true =>
    unfold sectionImage
    cases x <;> simp only [Bool.false_eq_true, if_false, if_true] <;>
      refine ((Buffer.agreeOn_reverse ?_).trans (Buffer.agreeOn_reverse ?_)).trans
        (Buffer.agreeOn_reverse ?_) <;> intro q hq <;> omega

theorem agreeOn_entryImage :
    m.AgreeOn (fun q => q < p ∨ p + nlistSize x ≤ q) (entryImage s x m p) := by
  cases s with
  | false => exact .refl
  | true =>
    have hw : 7 + wordSize x < nlistSize x := by cases x <;> decide
    unfold entryImage
    rw [if_pos rfl]
    refine ((Buffer.agreeOn_reverse ?_).trans (Buffer.agreeOn_reverse ?_)).trans
      (Buffer.agreeOn_reverse ?_) <;> intro q hq <;> omega

/-! A swap of bytes that read the same backwards leaves everything alone. -/

def HeaderMirrored (m : Buffer) (p : Nat) : Prop := m.Mirrored (p + 16) 4

def CommandMirrored (m : Buffer) (p : Nat) : Prop := m.Mirrored p 4 ∧ m.Mirrored (p + 4) 4

def SegmentMirrored (m : Buffer) (x : Bool) (p : Nat) : Prop :=
  m.Mirrored (p + if x then 50 else 34) 4

def SectionMirrored (m : Buffer) (x : Bool) (p : Nat) : Prop :=
  if x then m.Mirrored (p + 4) 8 ∧ m.Mirrored (p + 12) 8 ∧ m.Mirrored (p + 20) 4
  else m.Mirrored (p + 4) 4 ∧ m.Mirrored (p + 8) 4 ∧ m.Mirrored (p + 12) 4

instance : Decidable (HeaderMirrored m p) := inferInstanceAs (Decidable (Buffer.Mirrored ..))
instance : Decidable (CommandMirrored m p) := inferInstanceAs (Decidable (_ ∧ _))
instance : Decidable (SegmentMirrored m x p) := inferInstanceAs (Decidable (Buffer.Mirrored ..))
instance : Decidable (SectionMirrored m x p) :=
  inferInstanceAs (Decidable (if x then _ ∧ _ ∧ _ else _ ∧ _ ∧ _))

theorem headerImage_mirrored (h : HeaderMirrored m p) : headerImage s m p = m := by
  cases s with
  | false => rfl
  | true => exact Buffer.reverse_of_mirrored h

theorem commandImage_mirrored (h : CommandMirrored m p) : commandImage s m p = m := by
  cases s with
  | false => rfl
  | true =>
    rw [commandImage, if_pos rfl, Buffer.reverse_of_mirrored h.1, Buffer.reverse_of_mirrored h.2]

theorem segmentImage_mirrored (h : SegmentMirrored m x p) : segmentImage s x m p = m := by
  cases s with
  | false => rfl
  | true => exact Buffer.reverse_of_mirrored h

theorem sectionImage_mirrored (h : SectionMirrored m x p) : sectionImage s x m p = m := by
  cases s with
  | false => rfl
  | true =>
    rw [sectionImage, if_pos rfl]
    cases x <;> obtain ⟨h1, h2, h3⟩ := h <;>
      simp only [Bool.false_eq_true, if_false, if_true, Buffer.reverse_of_mirrored h1,
        Buffer.reverse_of_mirrored h2, Buffer.reverse_of_mirrored h3]

theorem headerImage_ok (h : p + 20 ≤ m.size) :
    (if s then swapMachHeader m p else pure m) = .ok (headerImage s m p) := by
  cases s with
  | false => rfl
  | true => exact swapMachHeader_ok h

theorem commandImage_ok (h : p + 8 ≤ m.size) :
    (if s then swapLoadcommand m p else pure m) = .ok (commandImage s m p) := by
  cases s with
  | false => rfl
  | true => exact swapLoadcommand_ok h

theorem symtabImage_ok (h : p + 24 ≤ m.size) :
    (if s then swapSymtab m p else pure m) = .ok (symtabImage s m p) := by
  cases s with
  | false => rfl
  | true => exact swapSymtab_ok h

theorem segmentImage_ok (h : p + segmentSize x ≤ m.size) :
    (if s then swapSegmentCommand m p x else pure m) = .ok (segmentImage s x m p) := by
  cases s with
  | false => rfl
  | true => exact swapSegmentCommand_ok h

theorem returns_swapEndiane {n : Nat} {K : Buffer → Prop} (hn : 0 < n) :
    (swapEndiane m p n).Returns K ↔ p + n ≤ m.size ∧ K (m.reverse p n) := by
  rcases Nat.lt_or_ge m.size (p + n) with h | h
  · rw [swapEndiane_fault hn h]
    simp [Nat.not_le.mpr h]
  · rw [swapEndiane_ok h]
    simp [h]

theorem returns_swapNb32From {K : Buffer → Prop} :
    ∀ nb i (m : Buffer), i + nb < 2 ^ 29 → ((swapNb32From p (nb + 1) i m).Returns K ↔
      p + (i + nb + 1) * 4 ≤ m.size ∧ K (reverseWords p (nb + 1) i m))
  | 0, i, m, hint => by
    rw [swapNb32From, if_pos (by omega), Checked.returns_bind, swap32,
      returns_swapEndiane (by decide), swapNb32From, Checked.returns_ok, reverseWords, reverseWords]
    exact and_congr_left fun _ => by omega
  | nb + 1, i, m, hint => by
    rw [swapNb32From, if_pos (by omega), Checked.returns_bind, swap32,
      returns_swapEndiane (by decide), returns_swapNb32From nb (i + 1) _ (by omega),
      Buffer.size_reverse, ← and_assoc, reverseWords]
    exact and_congr_left fun _ => by omega

theorem returns_command {K : Buffer → Prop} :
    (if s then swapLoadcommand m p else pure m).Returns K ↔
      (s = true → p + 8 ≤ m.size) ∧ K (commandImage s m p) := by
  cases s with
  | false => simp
  | true =>
    simp only [if_true, swapLoadcommand, swapNb32, forall_const]
    exact returns_swapNb32From 1 0 m (by decide)

/-- The bytes of a section header that the swap touches end at 24 or at 16. -/
theorem returns_section {K : Buffer → Prop} :
    (if s then swapSection m p x else pure m).Returns K ↔
      (s = true → p + (if x then 24 else 16) ≤ m.size) ∧ K (sectionImage s x m p) := by
  cases s with
  | false => simp
  | true =>
    cases x with
    | false =>
      simp only [if_true, swapSection, swapNb32, Bool.false_eq_true, if_false, forall_const]
      exact (returns_swapNb32From 2 0 m (by decide)).trans (and_congr_left fun _ => by omega)
    | true =>
      simp only [if_true, swapSection, swap64, swap32, Checked.returns_bind, forall_const,
        returns_swapEndiane (show 0 < 8 by decide), returns_swapEndiane (show 0 < 4 by decide),
        Buffer.size_reverse, ← and_assoc]
      exact and_congr_left fun _ => by omega

/-- An entry is touched up to its last byte but one. -/
theorem returns_entry {K : Buffer → Prop} :
    (if s then swapNlist m p x else pure m).Returns K ↔
      (s = true → p + 7 + wordSize x ≤ m.size) ∧ K (entryImage s x m p) := by
  cases s with
  | false => simp
  | true =>
    simp only [if_true, swapNlist, Checked.returns_bind, swapNb32, forall_const,
      returns_swapNb32From 0 0 _ (by decide), returns_swapEndiane (show 0 < 2 by decide),
      size_reverseWords]
    cases x with
    | false =>
      simp only [Bool.false_eq_true, if_false, returns_swapNb32From 0 0 _ (by decide),
        Buffer.size_reverse, size_reverseWords, ← and_assoc]
      exact and_congr (by simp only [wordSize, Bool.false_eq_true, if_false]; omega) Iff.rfl
    | true =>
      simp only [if_true, swap64, returns_swapEndiane (show 0 < 8 by decide), Buffer.size_reverse,
        size_reverseWords, ← and_assoc]
      exact and_congr (by simp only [wordSize, if_true]; omega) Iff.rfl

theorem swapSection_ok (h : p + (if x then 24 else 16) ≤ m.size) :
    swapSection m p x = .ok (sectionImage true x m p) :=
  Checked.returns_eq.mp ((returns_section (s := true)).mpr ⟨fun _ => h, rfl⟩)

theorem swapNlist_ok (h : p + 7 + wordSize x ≤ m.size) :
    swapNlist m p x = .ok (entryImage true x m p) :=
  Checked.returns_eq.mp ((returns_entry (s := true)).mpr ⟨fun _ => h, rfl⟩)

end

/-! ## In place and by value

Both are the reversal of the bytes, and undo themselves. -/

/-- `m'` is `m` with the `n` bytes at `p` reversed, and no other byte changed. -/
structure ReversedAt (m m' : Buffer) (p n : Nat) : Prop where
  size : m'.size = m.size
  inside : m'.bytes p n = (m.bytes p n).reverse
  outside : ∀ q, q < p ∨ p + n ≤ q → m'.byte q = m.byte q

/-- `m'` is `m` with each of the `k` words from `p` on reversed, and no other byte changed. -/
structure WordsReversed (m m' : Buffer) (p k : Nat) : Prop where
  size : m'.size = m.size
  words : ∀ t < k, m'.bytes (p + t * 4) 4 = (m.bytes (p + t * 4) 4).reverse
  outside : ∀ q, q < p ∨ p + k * 4 ≤ q → m'.byte q = m.byte q

section
variable {m m' m₁ m₂ : Buffer} {p q n k : Nat}

theorem reversedAt_reverse : ReversedAt m (m.reverse p n) p n where
  size := rfl
  inside := Buffer.bytes_reverse_self
  outside _ hq := Buffer.byte_reverse_out hq

theorem reverse_reverse : (m.reverse p n).reverse p n = m := by
  apply Buffer.eq_of_bytes (p := p) (n := n)
  · rfl
  · rw [Buffer.bytes_reverse_self, Buffer.bytes_reverse_self, List.reverse_reverse]
  · intro q hq
    rw [Buffer.byte_reverse_out hq, Buffer.byte_reverse_out hq]

theorem WordsReversed.symm (h : WordsReversed m m' p k) : WordsReversed m' m p k where
  size := h.size.symm
  words t ht := by rw [h.words t ht, List.reverse_reverse]
  outside q hq := (h.outside q hq).symm

/-- The words and what is around them are the whole buffer. -/
theorem WordsReversed.unique (h₁ : WordsReversed m m₁ p k) (h₂ : WordsReversed m m₂ p k) :
    m₁ = m₂ := by
  apply Buffer.eq_of_bytes (p := p) (n := k * 4)
  · exact h₁.size.trans h₂.size.symm
  · apply Buffer.bytes_congr
    intro i hi
    have hword : i / 4 < k := by omega
    have hbyte := Buffer.byte_of_bytes (k := i % 4)
      ((h₁.words (i / 4) hword).trans (h₂.words (i / 4) hword).symm) (Nat.mod_lt i (by decide))
    rwa [show p + i / 4 * 4 + i % 4 = p + i by omega] at hbyte
  · exact fun q hq => (h₁.outside q hq).trans (h₂.outside q hq).symm

theorem byte_reverseWords_out :
    ∀ nb i (m : Buffer), q < p + i * 4 ∨ p + (i + nb) * 4 ≤ q →
      (reverseWords p nb i m).byte q = m.byte q
  | 0, _, _, _ => rfl
  | nb + 1, i, m, hq => by
    rw [reverseWords, byte_reverseWords_out nb (i + 1) _ (by omega),
      Buffer.byte_reverse_out (by omega)]

theorem bytes_reverseWords :
    ∀ nb i (m : Buffer) {t : Nat}, i ≤ t → t < i + nb →
      (reverseWords p nb i m).bytes (p + t * 4) 4 = (m.bytes (p + t * 4) 4).reverse
  | 0, _, _, _, hi, ht => by omega
  | nb + 1, i, m, t, hi, ht => by
    unfold reverseWords
    rcases Nat.lt_or_eq_of_le hi with hlt | rfl
    · rw [bytes_reverseWords nb (i + 1) _ hlt (by omega), Buffer.bytes_reverse_out (by omega)]
    · -- The word itself; the others do not touch it.
      rw [← Buffer.bytes_reverse_self]
      apply Buffer.bytes_congr
      exact fun j hj => byte_reverseWords_out nb (i + 1) _ (by omega)

theorem wordsReversed_reverseWords : WordsReversed m (reverseWords p k 0 m) p k where
  size := size_reverseWords p k 0 m
  words _ ht := bytes_reverseWords k 0 m (Nat.zero_le _) (by omega)
  outside _ hq := byte_reverseWords_out k 0 m (by omega)

theorem reverseWords_reverseWords : reverseWords p k 0 (reverseWords p k 0 m) = m :=
  wordsReversed_reverseWords.unique wordsReversed_reverseWords.symm

/-- The counter reaches a word whose offset is no `int`. -/
theorem swapNb32From_fault :
    ∀ nb i (m : Buffer), 0 < nb → 2 ^ 29 < i + nb → swapNb32From p nb i m = .fault
  | 0, _, _, hpos, _ => absurd hpos (by decide)
  | nb + 1, i, m, _, hint => by
    unfold swapNb32From
    split
    · next hi =>
      rcases Nat.lt_or_ge m.size (p + i * 4 + 4) with hout | hin
      · rw [swap32, swapEndiane_fault (by decide) hout, Checked.fault_bind]
      · rw [swap32_ok hin, Checked.ok_bind, swapNb32From_fault nb (i + 1) _ (by omega) (by omega)]
    · rfl

theorem swapNb32_fault (hint : 2 ^ 29 < k) : swapNb32 m p k = .fault :=
  swapNb32From_fault k 0 m (by omega) (by omega)

/-- A load behind the reversal in place is the swap of the value loaded before. -/
theorem swapEndiane_field :
    (swapEndiane m p (n + 1) >>= fun m => m.field (n + 1) p) =
      m.field (n + 1) p >>= fun v => .ok (byteSwap (n + 1) v) := by
  rcases Nat.lt_or_ge m.size (p + (n + 1)) with hout | hin
  · rw [swapEndiane_fault (Nat.succ_pos n) hout, Buffer.field_fault hout]
    rfl
  · rw [swapEndiane_ok hin, Checked.ok_bind, Buffer.field_ok hin, Checked.ok_bind,
      Buffer.field_ok (by simpa using hin), Buffer.le_reverse_self]

theorem swap32_field :
    (swap32 m p >>= fun m => m.field 4 p) =
      m.field 4 p >>= fun v => .ok (swapUint32 (.ofNat 32 v)).toNat := by
  rw [swap32, swapEndiane_field]
  rcases Nat.lt_or_ge m.size (p + 4) with hout | hin
  · rw [Buffer.field_fault hout]
    rfl
  · have hv : m.le 4 p < 2 ^ 32 := Buffer.le_lt
    rw [Buffer.field_ok hin, Checked.ok_bind, Checked.ok_bind, toNat_swapUint32,
      BitVec.toNat_ofNat, Nat.mod_eq_of_lt hv]

theorem swap64_field :
    (swap64 m p >>= fun m => m.field 8 p) =
      m.field 8 p >>= fun v => .ok (swapUint64 (.ofNat 64 v)).toNat := by
  rw [swap64, swapEndiane_field]
  rcases Nat.lt_or_ge m.size (p + 8) with hout | hin
  · rw [Buffer.field_fault hout]
    rfl
  · have hv : m.le 8 p < 2 ^ 64 := Buffer.le_lt
    rw [Buffer.field_ok hin, Checked.ok_bind, Checked.ok_bind, toNat_swapUint64,
      BitVec.toNat_ofNat, Nat.mod_eq_of_lt hv]

end

/-- `swap_endiane` reverses the bytes it is given and undoes itself, and loads behind `swap_32` and
`swap_64` agree with `swap_uint32` and `swap_uint64`; `swap_nb_32` reverses `k` words and undoes
itself if and only if the last offset is an `int`. -/
theorem swap_reverses (m : Buffer) (p : Nat) :
    (∀ n, p + n ≤ m.size →
      ∃ m', swapEndiane m p n = .ok m' ∧ ReversedAt m m' p n ∧ swapEndiane m' p n = .ok m) ∧
    (∀ k, p + k * 4 ≤ m.size →
      ((∃ m', swapNb32 m p k = .ok m' ∧ WordsReversed m m' p k ∧ swapNb32 m' p k = .ok m) ↔
        k ≤ 2 ^ 29)) ∧
    ((swap32 m p >>= fun m => m.field 4 p) =
      m.field 4 p >>= fun v => .ok (swapUint32 (.ofNat 32 v)).toNat) ∧
    ((swap64 m p >>= fun m => m.field 8 p) =
      m.field 8 p >>= fun v => .ok (swapUint64 (.ofNat 64 v)).toNat) := by
  refine ⟨fun n hn => ?_, fun k hk => ?_, swap32_field, swap64_field⟩
  · refine ⟨m.reverse p n, swapEndiane_ok hn, reversedAt_reverse, ?_⟩
    rw [swapEndiane_ok (by simpa using hn), reverse_reverse]
  · constructor
    · rintro ⟨m', hrun, -⟩
      by_contra hint
      rw [swapNb32_fault (Nat.not_le.mp hint)] at hrun
      cases hrun
    · intro hint
      refine ⟨reverseWords p k 0 m, swapNb32_ok hint hk, wordsReversed_reverseWords, ?_⟩
      rw [swapNb32_ok hint (by rwa [size_reverseWords]), reverseWords_reverseWords]

theorem swap_reverses_twoWords :
    ∃ m', swapNb32 (.ofBytes 9 [1, 2, 3, 4, 5, 6, 7, 8, 9]) 1 2 = .ok m' ∧
      WordsReversed (.ofBytes 9 [1, 2, 3, 4, 5, 6, 7, 8, 9]) m' 1 2 ∧
      swapNb32 m' 1 2 = .ok (.ofBytes 9 [1, 2, 3, 4, 5, 6, 7, 8, 9]) :=
  ((swap_reverses (.ofBytes 9 [1, 2, 3, 4, 5, 6, 7, 8, 9]) 1).2.1 2 (by decide)).mpr (by decide)

/-- Words that lie in the buffer, the last of them 2 ^ 31 bytes behind the first. -/
theorem swapNb32_large :
    0 + (2 ^ 29 + 1) * 4 ≤ (Buffer.ofBytes (2 ^ 31 + 4) []).size ∧
      swapNb32 (.ofBytes (2 ^ 31 + 4) []) 0 (2 ^ 29 + 1) = .fault :=
  ⟨by decide, swapNb32_fault (by decide)⟩

end NmOtool
