import NmOtool.Nm.Local
import NmOtool.Nm.Requires

/-!
# ft_nm: swaps that change nothing

A run on an image in the other byte order swaps what it reads in place and never swaps it back. It
is quiet if each of its swaps meets bytes that read the same backwards. The predicates follow the
run as it is on `m`: a quiet run never leaves `m`, and does what a host-order run does.
-/

namespace NmOtool.Nm

open MachO Checked

variable {m : Buffer} {s x : Bool} {ptr lc sec e sym st i n count fuel : Nat}

/-! ## The section lookup -/

/-- The lookup of the section with the number `i`: the segment commands that it passes, and the
section header that it finds. -/
def LookupQuiet (m : Buffer) (x : Bool) (i : Nat) : Nat → Nat → Nat → Prop
  | 0, _, _ => True
  | n + 1, lc, count =>
    isSafe m lc →
      if IsSegment m lc then
        isSegmantSafe m lc x → SegmentMirrored m x lc ∧
          let next := u32 (count + nsects m x lc)
          if i ≤ next then SectionMirrored m x (headerAt x lc i count)
          else LookupQuiet m x i n (lc + cmdsize m lc) next
      else LookupQuiet m x i n (lc + cmdsize m lc) count

instance decidableLookupQuiet (m : Buffer) (x : Bool) (i : Nat) :
    ∀ n lc count, Decidable (LookupQuiet m x i n lc count)
  | 0, _, _ => inferInstanceAs (Decidable True)
  | n + 1, lc, count =>
    have := decidableLookupQuiet m x i n (lc + cmdsize m lc)
    inferInstanceAs (Decidable (isSafe m lc →
      if IsSegment m lc then
        isSegmantSafe m lc x → SegmentMirrored m x lc ∧
          if i ≤ u32 (count + nsects m x lc) then SectionMirrored m x (headerAt x lc i count)
          else LookupQuiet m x i n (lc + cmdsize m lc) (u32 (count + nsects m x lc))
      else LookupQuiet m x i n (lc + cmdsize m lc) count))

theorem getSectionFrom_quiet (h : LookupQuiet m x i n lc count) {r : Option Nat × Buffer}
    (hr : getSectionFrom s x i n lc count m = .ok r) :
    getSectionFrom false x i n lc count m = .ok r ∧
      ∀ sec, r.1 = some sec → SectionMirrored m x sec := by
  induction n generalizing lc count with
  | zero =>
    cases hr
    exact ⟨rfl, by simp⟩
  | succ n ih =>
    by_cases hs : isSafe m lc
    · have h := h hs
      by_cases hseg : IsSegment m lc
      · rw [if_pos hseg] at h
        by_cases hss : isSegmantSafe m lc x
        · obtain ⟨hmir, h⟩ := h hss
          rw [getSectionFrom_segment hs hseg hss, segmentImage_mirrored hmir] at hr
          rw [getSectionFrom_segment hs hseg hss, segmentImage_mirrored hmir]
          simp only at hr h ⊢
          by_cases hle : i ≤ u32 (count + nsects m x lc)
          · rw [if_pos hle] at hr h ⊢
            cases hr
            refine ⟨rfl, ?_⟩
            rintro sec ⟨⟩
            exact h
          · rw [if_neg hle] at hr h ⊢
            exact ih h hr
        · rw [getSectionFrom, if_pos hs] at hr ⊢
          obtain ⟨cmd, hcmd, hr⟩ := bind_eq_ok.mp hr
          obtain ⟨-, rfl⟩ := Buffer.returns_field.mp ⟨cmd, hcmd, rfl⟩
          have hcond : m.le 4 lc = LC_SEGMENT ∨ m.le 4 lc = LC_SEGMENT_64 := hseg
          rw [if_pos hcond, if_neg hss] at hr
          cases hr
          rw [hcmd, ok_bind, if_pos hcond, if_neg hss]
          exact ⟨rfl, by simp⟩
      · rw [if_neg hseg] at h
        rw [getSectionFrom, if_pos hs] at hr
        obtain ⟨cmd, hcmd, hr⟩ := bind_eq_ok.mp hr
        obtain ⟨-, rfl⟩ := Buffer.returns_field.mp ⟨cmd, hcmd, rfl⟩
        rw [if_neg (show ¬ (m.le 4 lc = LC_SEGMENT ∨ m.le 4 lc = LC_SEGMENT_64) from hseg)] at hr
        obtain ⟨size, hsize, hr⟩ := bind_eq_ok.mp hr
        obtain ⟨h8, rfl⟩ := Buffer.returns_field.mp ⟨size, hsize, rfl⟩
        rw [getSectionFrom_other hs hseg (by omega)]
        exact ih h hr
    · rw [getSectionFrom, if_neg hs] at hr ⊢
      cases hr
      exact ⟨rfl, by simp⟩

/-! ## The letter of an entry -/

/-- The lookup for the entry at `e`, if there is one. -/
def SymbolQuiet (m : Buffer) (x : Bool) (ptr e : Nat) : Prop :=
  InSection (nType m e) → isLcSafe m ptr x →
    LookupQuiet m x (nSect m e) (ncmds m ptr) (ptr + headerSize x) 0

instance (m : Buffer) (x : Bool) (ptr e : Nat) : Decidable (SymbolQuiet m x ptr e) :=
  inferInstanceAs (Decidable (_ → _ → _))

theorem symbol_quiet (hin : InSection (nType m e)) (h : SymbolQuiet m x ptr e)
    {r : UInt8 × Buffer} (hr : symbol m ptr e s x = .ok r) : symbol m ptr e false x = .ok r := by
  unfold symbol at hr ⊢
  obtain ⟨index, hindex, hr⟩ := bind_eq_ok.mp hr
  obtain ⟨-, rfl⟩ := Buffer.returns_load.mp ⟨index, hindex, rfl⟩
  obtain ⟨⟨found, m₁⟩, hfound, hr⟩ := bind_eq_ok.mp hr
  have hhost : getSection m ptr false x (m.byte (e + 5)).toNat = .ok (found, m₁) ∧
      ∀ sec, found = some sec → SectionMirrored m x sec := by
    unfold getSection at hfound ⊢
    by_cases hlc : isLcSafe m ptr x
    · rw [getLc_host hlc, ok_bind] at hfound ⊢
      exact getSectionFrom_quiet (h hin hlc) hfound
    · rw [getLc_none hlc, ok_bind] at hfound ⊢
      cases hfound
      exact ⟨rfl, by simp⟩
  obtain ⟨hget, hmir⟩ := hhost
  obtain rfl : m₁ = m := by
    have hkeep := getSection_local (.refl : AgreeFrom ptr m m) (x := x)
      (i := (m.byte (e + 5)).toNat)
    rw [hget] at hkeep
    exact congrArg Prod.snd (Checked.ok.inj hkeep)
  rw [hindex, ok_bind, hget, ok_bind]
  cases found with
  | none => exact hr
  | some sec =>
    simp only [ite_bind] at hr
    obtain ⟨m₂, hm₂, hr⟩ := bind_eq_ok.mp hr
    obtain ⟨-, rfl⟩ := returns_section.mp ⟨m₂, hm₂, rfl⟩
    rw [sectionImage_mirrored (hmir sec rfl)] at hr
    exact hr

/-- A quiet `get_symbol_letter` does what it does in host order, and has no effect. -/
theorem getSymbolLetter_quiet (h : SymbolQuiet m x ptr e) {r : UInt8 × Buffer}
    (hr : getSymbolLetter m ptr e s x = .ok r) : getSymbolLetter m ptr e false x = .ok r := by
  unfold getSymbolLetter at hr ⊢
  obtain ⟨t, ht, hr⟩ := bind_eq_ok.mp hr
  obtain ⟨desc, hdesc, hr⟩ := bind_eq_ok.mp hr
  obtain ⟨value, hvalue, hr⟩ := bind_eq_ok.mp hr
  obtain ⟨-, rfl⟩ := Buffer.returns_load.mp ⟨t, ht, rfl⟩
  obtain ⟨-, rfl⟩ := Buffer.returns_field.mp ⟨desc, hdesc, rfl⟩
  obtain ⟨-, rfl⟩ := Buffer.returns_field.mp ⟨value, hvalue, rfl⟩
  rw [ht, ok_bind, hdesc, ok_bind, hvalue, ok_bind]
  simp only [ite_bind, preLetter_of_entry, preLetter_eq_s] at hr ⊢
  obtain ⟨⟨letter, m₁⟩, hletter, hr⟩ := bind_eq_ok.mp hr
  refine bind_eq_ok.mpr ⟨(letter, m₁), ?_, hr⟩
  rcases ite_eq_iff.mp hletter with ⟨hin, hletter⟩ | ⟨hin, hletter⟩
  · rw [if_pos hin]
    exact symbol_quiet hin h hletter
  · rw [if_neg hin]
    exact hletter

theorem getSymbolLetter_quiet_keep (h : SymbolQuiet m x ptr e) {r : UInt8 × Buffer}
    (hr : getSymbolLetter m ptr e s x = .ok r) : r.2 = m := by
  have hkeep := getSymbolLetter_keep m ptr e x
  rw [getSymbolLetter_quiet h hr] at hkeep
  exact congrArg Prod.snd (Checked.ok.inj hkeep)

end NmOtool.Nm
