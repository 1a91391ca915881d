import NmOtool.Nm.Host

/-!
# ft_nm: an entry behind `swap_nlist`

`swap_nlist` reverses the bytes 0-3, then 5-6 and then 7-14 (7-10), one byte before `n_desc` and
`n_value`, so an entry of a big-endian file comes out with the section number, `n_desc` and the value
mixed up (`Mixed`). `Preserved` are the symbols that show the same all the same.
-/

namespace NmOtool.Nm

open MachO Checked

variable {m m₁ : Buffer} {x : Bool} {e : Nat} {s : Symbol}

/-! ## One entry -/

/-- Where `swap_nlist` takes byte `k` of an entry from. -/
def swapIndex (x : Bool) (k : Nat) : Nat :=
  if k < 4 then 3 - k else if k < 5 then k else if k < 7 then 11 - k
  else if k < 7 + wordSize x then 13 + wordSize x - k else k

theorem byte_entryImage (k : Nat) :
    (entryImage true x m e).byte (e + k) = m.byte (e + swapIndex x k) := by
  unfold entryImage swapIndex Buffer.reverse
  simp only [if_true]
  split_ifs <;> first | omega | exact congrArg _ (by omega)

/-- The value that an entry has after its swap: the two low bytes lost, the low byte of `n_desc`
and the lowest byte of the value on top. -/
def mixedValue (x : Bool) (s : Symbol) : Nat :=
  ofLE ((toLE (wordSize x) s.value).drop 2 ++ [UInt8.ofNat s.desc] ++
    (toLE (wordSize x) s.value).take 1)

/-- What a little-endian reader finds in the swapped entry at `e` of the symbol `s`. -/
structure Mixed (m : Buffer) (x : Bool) (e : Nat) (s : Symbol) : Prop where
  strx : strx m e = s.strx
  type : nType m e = s.type
  sect : nSect m e = s.desc / 256
  weak : (nDesc m e &&& N_WEAK_REF != 0) = (s.sect &&& 0x40 != 0)
  value : nValue m x e = mixedValue x s

/-- The high byte of `n_desc` has no part in the weak bit. -/
theorem weak_low (a : UInt8) (b : Nat) :
    (a.toNat + 256 * b &&& N_WEAK_REF != 0) = (a &&& 0x40 != 0) := by
  have hlow : a.toNat + 256 * b &&& N_WEAK_REF = (a &&& 0x40).toNat := by
    have hbit : (a.toNat + 256 * b).testBit 6 = a.toNat.testBit 6 := by
      have ha := a.toNat_lt
      have h := Nat.testBit_mod_two_pow (a.toNat + 256 * b) 8 6
      rw [show (a.toNat + 256 * b) % 2 ^ 8 = a.toNat by omega] at h
      simpa using h.symm
    rw [UInt8.toNat_and, show N_WEAK_REF = 2 ^ 6 from rfl, Nat.and_two_pow, hbit,
      show (0x40 : UInt8).toNat = 2 ^ 6 from rfl, Nat.and_two_pow]
  rw [hlow, Bool.eq_iff_iff, bne_iff_ne, bne_iff_ne, ne_eq, ne_eq, not_iff_not, ← UInt8.toNat_inj]
  rfl

/-- The bytes of the value: its own from the third on, then the low byte of `n_desc`, and the byte
that the swap does not reach. -/
theorem nValue_entryImage (hd : m.Holds (e + 6) (ByteOrder.big.encode 2 s.desc))
    (hv : m.Holds (e + 8) (ByteOrder.big.encode (wordSize x) s.value)) :
    nValue (entryImage true x m e) x e = mixedValue x s := by
  have hb : ∀ k, (entryImage true x m e).byte (e + k) = m.byte (e + swapIndex x k) :=
    byte_entryImage
  have hlow : m.byte (e + 6 + 1) = UInt8.ofNat s.desc := hd.byte rfl
  have hbyte : ∀ t, t < wordSize x →
      m.byte (e + (8 + t)) = UInt8.ofNat (s.value / 256 ^ (wordSize x - 1 - t)) := by
    intro t ht
    rw [← Nat.add_assoc]
    apply hv.byte
    rw [ByteOrder.encode, ByteOrder.arrange_big, List.getElem?_reverse (by simpa using ht),
      length_toLE, getElem?_toLE _ (by omega)]
  have hw := le_wordSize x
  have hlen : ((toLE (wordSize x) s.value).drop 2).length = wordSize x - 2 := by simp
  rw [nValue, Buffer.le, mixedValue]
  congr 1
  apply List.ext_getElem?
  intro j
  rw [List.append_assoc]
  rcases Nat.lt_trichotomy j (wordSize x - 2) with hj | rfl | hj
  · have hidx : swapIndex x (8 + j) = 8 + (wordSize x - 3 - j) := by
      unfold swapIndex
      split_ifs <;> omega
    rw [Buffer.getElem?_bytes (by omega), Nat.add_assoc, hb, hidx, hbyte _ (by omega),
      List.getElem?_append_left (by omega), List.getElem?_drop, getElem?_toLE _ (by omega)]
    congr 4
    omega
  · have hidx : swapIndex x (8 + (wordSize x - 2)) = 6 + 1 := by
      unfold swapIndex
      split_ifs <;> omega
    rw [Buffer.getElem?_bytes (by omega), Nat.add_assoc, hb, hidx, ← Nat.add_assoc, hlow,
      List.getElem?_append_right (by omega), hlen, Nat.sub_self]
    rfl
  · rw [List.getElem?_append_right (by omega), hlen]
    rcases Nat.lt_or_ge j (wordSize x) with hlt | hge
    · have hidx : swapIndex x (8 + j) = 8 + (wordSize x - 1) := by
        unfold swapIndex
        split_ifs <;> omega
      rw [Buffer.getElem?_bytes hlt, Nat.add_assoc, hb, hidx, hbyte _ (by omega),
        show j - (wordSize x - 2) = 1 by omega, List.singleton_append, List.getElem?_cons_succ,
        List.getElem?_take_of_lt (by decide), getElem?_toLE _ (by omega), Nat.sub_self]
    · rw [List.getElem?_eq_none (by simpa using hge), List.getElem?_eq_none (by simp; omega)]

theorem mixed_of_holds (hm : m.Holds e (s.encode .big x)) (h1 : s.strx < 256 ^ 4)
    (h2 : s.desc < 256 ^ 2) : Mixed (entryImage true x m e) x e s := by
  obtain ⟨hx, ht, hd, hv⟩ := holds_fields hm
  have hb : ∀ k, (entryImage true x m e).byte (e + k) = m.byte (e + swapIndex x k) :=
    byte_entryImage
  have hhigh : m.byte (e + 6) = UInt8.ofNat (s.desc / 256) := hd.byte (k := 0) rfl
  refine ⟨?_, ?_, ?_, ?_, nValue_entryImage hd hv⟩
  · have hle : (entryImage true x m e).le 4 e = byteSwap 4 (m.le 4 e) := by
      unfold entryImage
      rw [if_pos rfl, Buffer.le_reverse_out (by omega), Buffer.le_reverse_out (by omega),
        Buffer.le_reverse_self]
    rw [strx, hle, hx.le h1]
    exact byteSwap_byteSwap h1
  · rw [nType, hb]
    exact ht.byte (k := 0) rfl
  · rw [nSect, hb, show swapIndex x 5 = 6 from rfl, hhigh, UInt8.toNat_ofNat']
    omega
  · have hdesc : nDesc (entryImage true x m e) e = s.sect.toNat +
        256 * ((entryImage true x m e).byte (e + 6 + 1)).toNat := by
      rw [nDesc, Buffer.le, Buffer.bytes_succ, Buffer.bytes_succ, Buffer.bytes_zero, hb,
        show swapIndex x 6 = 5 from rfl, show m.byte (e + 5) = s.sect from ht.byte (k := 1) rfl]
      simp
    rw [hdesc, weak_low]

theorem Mixed.congr {S : Nat → Prop} (h : Mixed m x e s) (hm : m.AgreeOn S m₁)
    (hS : ∀ q, e ≤ q → q < e + nlistSize x → S q) : Mixed m₁ x e s := by
  rw [nlistSize_eq] at hS
  refine ⟨?_, ?_, ?_, ?_, ?_⟩
  · rw [← h.strx]
    exact hm.le fun k _ => hS _ (by omega) (by omega)
  · rw [← h.type]
    exact hm.byte _ (hS _ (by omega) (by omega))
  · rw [← h.sect]
    exact congrArg UInt8.toNat (hm.byte _ (hS _ (by omega) (by omega)))
  · rw [← h.weak, nDesc, hm.le fun k _ => hS _ (by omega) (by omega), nDesc]
  · rw [← h.value]
    exact hm.le fun k _ => hS _ (by omega) (by omega)

/-! ## What survives -/

/-- The type field is none that `pre_symbol_letter` knows: the letter is that of the weak bit. -/
def WeakType (t : UInt8) : Prop :=
  N_STAB &&& t = 0 ∧ t &&& N_TYPE ∉ [N_UNDF, N_ABS, N_SECT, N_PBUD, N_INDR]

/-- The symbol comes out of the mixed entry as it went in: all bytes of its value are the low byte
of `n_desc`, and where the weak bit matters, `n_sect` and `n_desc` have the same one. -/
structure Preserved (x : Bool) (s : Symbol) : Prop where
  value : toLE (wordSize x) s.value = List.replicate (wordSize x) (UInt8.ofNat s.desc)
  weak : WeakType s.type → (s.sect &&& 0x40 != 0) = (s.desc &&& N_WEAK_REF != 0)

theorem mixedValue_eq (hv : s.value < 256 ^ wordSize x) : mixedValue x s = s.value ↔
    toLE (wordSize x) s.value = List.replicate (wordSize x) (UInt8.ofNat s.desc) := by
  have hiff : mixedValue x s = s.value ↔ (toLE (wordSize x) s.value).drop 2 ++
      [UInt8.ofNat s.desc] ++ (toLE (wordSize x) s.value).take 1 = toLE (wordSize x) s.value := by
    have hw := le_wordSize x
    unfold mixedValue
    constructor
    · intro h
      refine ofLE_inj ?_ (h.trans (ofLE_toLE hv).symm)
      simp
      omega
    · intro h
      rw [h, ofLE_toLE hv]
  rw [hiff]
  cases x <;> simp only [wordSize, Bool.false_eq_true, if_false, if_true, toLE_succ, toLE_zero,
    List.drop_succ_cons, List.drop_zero, List.take_succ_cons, List.take_zero, List.cons_append,
    List.nil_append, List.replicate_succ, List.replicate_zero, List.cons.injEq, and_true] <;>
    constructor <;> intro h <;> simp [h]

/-- Of the letters only those of a `WeakType` depend on the weak bit, and they all do. -/
theorem classify_weak {t : UInt8} {w w' : Bool} {value : Nat} {a : UInt8} :
    classify t w value a = classify t w' value a ↔ (WeakType t → w = w') := by
  by_cases ht : WeakType t
  · obtain ⟨hstab, htype⟩ := id ht
    simp only [List.mem_cons, List.not_mem_nil, or_false, not_or] at htype
    obtain ⟨h1, h2, h3, h4, h5⟩ := htype
    have hpre : ∀ w, preLetter t w value = if w then 'w'.toUInt8 else '?'.toUInt8 := by
      intro w
      simp only [preLetter, hstab, ne_eq, not_true_eq_false, h1, h2, h3, h4, h5, if_false]
    have hs : ∀ w : Bool, ¬ (if w then 'w'.toUInt8 else '?'.toUInt8) = 's'.toUInt8 := by decide
    simp only [classify, hpre, if_neg (hs _), ht, true_imp_iff]
    rcases eq_or_ne (N_EXT &&& t) 0 with hext | hext
    · simp only [hext]
      cases w <;> cases w' <;> decide
    · simp only [ne_eq, hext, not_false_eq_true, and_true]
      cases w <;> cases w' <;> decide
  · refine iff_of_true ?_ fun h => absurd h ht
    have hpre : preLetter t w value = preLetter t w' value := by
      unfold preLetter
      by_cases hstab : N_STAB &&& t = 0
      · have htype := not_not.mp fun h => ht ⟨hstab, h⟩
        simp only [List.mem_cons, List.not_mem_nil, or_false] at htype
        rcases htype with h | h | h | h | h <;> simp only [h] <;> rfl
      · rw [if_pos hstab, if_pos hstab]
    rw [classify, classify, hpre]

end NmOtool.Nm
