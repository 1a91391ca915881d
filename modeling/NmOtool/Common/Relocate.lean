import NmOtool.Base.Relocate
import NmOtool.Common.SectionName
import NmOtool.Common.Dump

/-!
# Relocated readers

The readers and swaps that the two programs share, on a file behind `d` other bytes. `is_safe`
measures from `g_begin`, so a place in the file passes its checks behind these bytes if and only if
it does in the file alone; from 4 GiB on `g_map_size` would be another.
-/

namespace NmOtool

open MachO Checked

variable {m f : Buffer} {d p n nb : Nat} {s x : Bool}

/-! ## `is_safe.c` -/

theorem isSafe_graft (h : d + f.size < 2 ^ 32) {z : Int} (hz : 0 ≤ z) :
    isSafe (m.graft d f) (d + z) ↔ isSafe f z := by
  have hg : mapSize (m.graft d f) = d + f.size := mapSize_eq h
  have hf : mapSize f = f.size := mapSize_eq (by omega)
  unfold isSafe
  rw [hg, hf]
  omega

theorem isSafe_graft_nat (h : d + f.size < 2 ^ 32) :
    isSafe (m.graft d f) (d + p : Nat) ↔ isSafe f p := by
  rw [Int.natCast_add]
  exact isSafe_graft h (Int.natCast_nonneg p)

theorem isLcSafe_graft (h : d + f.size < 2 ^ 32) :
    isLcSafe (m.graft d f) (d + p) x ↔ isLcSafe f p x := by
  unfold isLcSafe
  rw [Nat.add_assoc, Nat.add_assoc]
  cases x <;> exact isSafe_graft_nat h

theorem isSegmantSafe_graft (h : d + f.size < 2 ^ 32) :
    isSegmantSafe (m.graft d f) (d + p) x ↔ isSegmantSafe f p x := by
  unfold isSegmantSafe
  rw [Nat.add_assoc]
  exact isSafe_graft_nat h

theorem thin_magic {magic : Nat} (h : notValidHeader magic = false) :
    notValidFile magic = false ∧ isFatFile magic = false := by
  simp only [notValidHeader, Bool.and_eq_false_iff, bne_eq_false_iff_eq] at h
  rcases h with ((((rfl | rfl) | rfl) | rfl) | rfl) | rfl <;> decide

theorem fat_magic {magic : Nat} (h : isFatFile magic = true) : notValidFile magic = false := by
  simp only [isFatFile, Bool.or_eq_true, beq_iff_eq] at h
  rcases h with ((rfl | rfl) | rfl) | rfl <;> decide

/-! ## Swaps in place -/

theorem swapEndiane_graft :
    swapEndiane (m.graft d f) (d + p) n = map (m.graft d) (swapEndiane f p n) := by
  rcases Nat.eq_zero_or_pos n with rfl | hn
  · rfl
  rcases Nat.lt_or_ge f.size (p + n) with h | h
  · rw [swapEndiane_fault hn h, swapEndiane_fault hn (by rw [Buffer.size_graft]; omega)]
    rfl
  · rw [swapEndiane_ok h, swapEndiane_ok (by rw [Buffer.size_graft]; omega), Buffer.reverse_graft]
    rfl

theorem swapNb32From_graft : ∀ nb i (f : Buffer),
    swapNb32From (d + p) nb i (m.graft d f) = map (m.graft d) (swapNb32From p nb i f) := by
  intro nb
  induction nb with
  | zero => intro i f; rfl
  | succ nb ih =>
    intro i f
    rw [swapNb32From, swapNb32From, map_ite]
    refine if_congr Iff.rfl ?_ rfl
    rw [swap32, swap32, Nat.add_assoc]
    exact map_step swapEndiane_graft fun f' _ => ih (i + 1) f'

theorem swapNb32_graft : swapNb32 (m.graft d f) (d + p) nb = map (m.graft d) (swapNb32 f p nb) :=
  swapNb32From_graft nb 0 f

theorem swapMachHeader_graft :
    swapMachHeader (m.graft d f) (d + p) = map (m.graft d) (swapMachHeader f p) := by
  unfold swapMachHeader swap32
  rw [Nat.add_assoc]
  exact swapEndiane_graft

theorem swapLoadcommand_graft :
    swapLoadcommand (m.graft d f) (d + p) = map (m.graft d) (swapLoadcommand f p) :=
  swapNb32_graft

theorem swapSymtab_graft :
    swapSymtab (m.graft d f) (d + p) = map (m.graft d) (swapSymtab f p) := by
  unfold swapSymtab
  rw [Nat.add_assoc]
  exact swapNb32_graft

theorem swapSegmentCommand_graft :
    swapSegmentCommand (m.graft d f) (d + p) x = map (m.graft d) (swapSegmentCommand f p x) := by
  unfold swapSegmentCommand
  rw [map_ite]
  refine if_congr Iff.rfl ?_ ?_
  · rw [Nat.add_assoc, Nat.add_assoc, ← Nat.add_assoc p]
    exact swapNb32_graft
  · rw [Nat.add_assoc, Nat.add_assoc, ← Nat.add_assoc p]
    exact swapNb32_graft

theorem swapSection_graft :
    swapSection (m.graft d f) (d + p) x = map (m.graft d) (swapSection f p x) := by
  unfold swapSection swap64 swap32
  simp only [Nat.add_assoc]
  rw [map_ite]
  refine if_congr Iff.rfl ?_ swapNb32_graft
  refine map_step swapEndiane_graft fun f₁ _ => ?_
  exact map_step swapEndiane_graft fun f₂ _ => swapEndiane_graft

theorem swapNlist_graft :
    swapNlist (m.graft d f) (d + p) x = map (m.graft d) (swapNlist f p x) := by
  unfold swapNlist swap64
  simp only [Nat.add_assoc]
  refine map_step swapNb32_graft fun f₁ _ => ?_
  refine map_step swapEndiane_graft fun f₂ _ => ?_
  rw [map_ite]
  exact if_congr Iff.rfl swapEndiane_graft swapNb32_graft

/-- A swap that is made only in a file of the other byte order. -/
theorem swapIf_graft {y y' : Checked Buffer} (h : y' = map (m.graft d) y) :
    (if s then y' else pure (m.graft d f)) = map (m.graft d) (if s then y else pure f) := by
  rw [map_ite, h]
  rfl

/-! ## Swaps keep the size -/

section
variable {f' : Buffer}

theorem swapEndiane_size (h : swapEndiane f p n = .ok f') : f'.size = f.size := by
  rcases Nat.eq_zero_or_pos n with rfl | hn
  · cases h
    rfl
  rcases Nat.lt_or_ge f.size (p + n) with hlt | hle
  · rw [swapEndiane_fault hn hlt] at h
    cases h
  · rw [swapEndiane_ok hle] at h
    cases h
    rfl

theorem swapNb32From_size : ∀ nb i (f : Buffer), swapNb32From p nb i f = .ok f' →
    f'.size = f.size := by
  intro nb
  induction nb with
  | zero =>
    intro i f h
    cases h
    rfl
  | succ nb ih =>
    intro i f h
    unfold swapNb32From at h
    split at h
    · obtain ⟨f₁, h₁, h⟩ := bind_eq_ok.mp h
      exact (ih (i + 1) f₁ h).trans (swapEndiane_size h₁)
    · cases h

theorem swapNb32_size (h : swapNb32 f p nb = .ok f') : f'.size = f.size :=
  swapNb32From_size nb 0 f h

theorem swapMachHeader_size (h : swapMachHeader f p = .ok f') : f'.size = f.size := by
  unfold swapMachHeader swap32 at h
  exact swapEndiane_size h

theorem swapSegmentCommand_size (h : swapSegmentCommand f p x = .ok f') : f'.size = f.size := by
  unfold swapSegmentCommand at h
  split at h <;> exact swapNb32_size h

theorem swapSection_size (h : swapSection f p x = .ok f') : f'.size = f.size := by
  unfold swapSection at h
  split at h
  · obtain ⟨f₁, h₁, h⟩ := bind_eq_ok.mp h
    obtain ⟨f₂, h₂, h⟩ := bind_eq_ok.mp h
    exact (swapEndiane_size h).trans ((swapEndiane_size h₂).trans (swapEndiane_size h₁))
  · exact swapNb32_size h

theorem swapNlist_size (h : swapNlist f p x = .ok f') : f'.size = f.size := by
  unfold swapNlist at h
  obtain ⟨f₁, h₁, h⟩ := bind_eq_ok.mp h
  obtain ⟨f₂, h₂, h⟩ := bind_eq_ok.mp h
  have h₃ : f'.size = f₂.size := by
    split at h
    · exact swapEndiane_size h
    · exact swapNb32_size h
  exact h₃.trans ((swapEndiane_size h₂).trans (swapNb32_size h₁))

theorem swapIf_size {y : Checked Buffer} (hy : y = .ok f' → f'.size = f.size)
    (h : (if s then y else pure f) = .ok f') : f'.size = f.size := by
  split at h
  · exact hy h
  · cases h
    rfl

end

/-! ## Readers -/

theorem getLc_graft (h : d + f.size < 2 ^ 32) : getLc (m.graft d f) x s (d + p) =
    map (fun r => (r.1, m.graft d r.2)) (getLc f x s p) := by
  unfold getLc
  rw [map_ite]
  refine if_congr (isLcSafe_graft h) ?_ rfl
  simp only [ite_bind]
  refine map_step (swapIf_graft swapMachHeader_graft) fun f₁ _ => ?_
  rw [Nat.add_assoc, Buffer.field_graft, map_then]
  rfl

theorem getLc_size {r : Option Lc × Buffer} (h : getLc f x s p = .ok r) : r.2.size = f.size := by
  unfold getLc at h
  split at h
  · simp only [ite_bind] at h
    obtain ⟨f₁, h₁, h⟩ := bind_eq_ok.mp h
    obtain ⟨ncmds, -, h⟩ := bind_eq_ok.mp h
    cases h
    exact swapIf_size swapMachHeader_size h₁
  · cases h
    rfl

theorem compares_graft {l : List UInt8} : ∀ {p},
    Compares (m.graft d f) (d + p) l ↔ Compares f p l := by
  induction l with
  | nil => exact Nat.add_lt_add_iff_left
  | cons b l ih =>
    intro p
    refine and_congr Nat.add_lt_add_iff_left ?_
    rw [Buffer.byte_graft, Nat.add_assoc]
    exact imp_congr_right fun _ => ih

theorem hasName_graft {l : List UInt8} :
    HasName (m.graft d f) (d + p) l ↔ HasName f p l := by
  rw [HasName, HasName, Buffer.bytes_graft]

theorem isNamed_graft {sect seg : List UInt8} (hseg : 0 ∉ seg) (hsect : 0 ∉ sect) :
    isNamed (m.graft d f) (d + p) sect seg = isNamed f p sect seg := by
  have hfits : NameFits (m.graft d f) (d + p) sect seg ↔ NameFits f p sect seg := by
    unfold NameFits
    rw [Nat.add_assoc, compares_graft, compares_graft, hasName_graft]
  have hnamed : IsNamed (m.graft d f) (d + p) seg sect ↔ IsNamed f p seg sect := by
    unfold IsNamed
    rw [Nat.add_assoc, hasName_graft, hasName_graft]
  rw [isNamed_eq hseg hsect, isNamed_eq hseg hsect, decide_eq_decide.mpr hnamed]
  exact if_congr hfits rfl rfl

theorem hexdumpBytes_graft :
    hexdumpBytes (m.graft d f) (d + p) n = hexdumpBytes f p n := by
  induction n with
  | zero => rfl
  | succ n ih => rw [hexdumpBytes, hexdumpBytes, ih, Nat.add_assoc, Buffer.load_graft]

theorem hexdumpAddress_graft :
    hexdumpAddress (m.graft d f) (d + p) x = hexdumpAddress f p x := hexdumpBytes_graft

/-! ## Strings -/

theorem strAt_graft : strAt (m.graft d f) (d + p) = strAt f p := by
  funext k
  rw [strAt, strAt, Nat.add_assoc, Buffer.load_graft]

/-- A comparison that ends does so whatever is left of the map behind it. -/
theorem ftStrcmpFrom_longer {s1 s2 : Nat → Checked UInt8} {c : Int} : ∀ {fuel k},
    ftStrcmpFrom s1 s2 fuel k = .ok c → ftStrcmpFrom s1 s2 (fuel + n) k = .ok c := by
  intro fuel
  induction fuel with
  | zero =>
    intro k h
    cases h
  | succ fuel ih =>
    intro k h
    rw [Nat.add_right_comm]
    unfold ftStrcmpFrom at h ⊢
    obtain ⟨a, ha, h⟩ := bind_eq_ok.mp h
    obtain ⟨b, hb, h⟩ := bind_eq_ok.mp h
    rw [ha, ok_bind, hb, ok_bind]
    split at h
    · next hc => rw [if_pos hc, ih h]
    · next hc => rw [if_neg hc, h]

theorem ftStrcmp_graft {q : Nat} {c : Int} (h : ftStrcmp f p (strAt f q) = .ok c) :
    ftStrcmp (m.graft d f) (d + p) (strAt (m.graft d f) (d + q)) = .ok c := by
  rw [ftStrcmp, strAt_graft, strAt_graft, Buffer.size_graft,
    show d + f.size + 1 = f.size + 1 + d by omega]
  exact ftStrcmpFrom_longer h

theorem ftStr_graft {t : List UInt8} (h : ftStr f p = .ok t) :
    ftStr (m.graft d f) (d + p) = .ok t := by
  have hterm := terminated_of_ftStrlenFrom h
  rw [ftStr_terminated hterm] at h
  rw [ftStr_terminated (Buffer.terminated_graft hterm), Buffer.cstr_graft, h]

end NmOtool
