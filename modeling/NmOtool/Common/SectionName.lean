import NmOtool.Common.Libft
import NmOtool.MachO.View

/-!
# Section names

The test that the two programs make on a section header: the two names against two literals, by
`ft_strcmp`. On a header inside the map it is the format's own test, `IsNamed`.
-/

namespace NmOtool

open MachO

variable {m : Buffer} {sec : Nat}

/-- `!ft_strcmp(sec_name, sect) && !ft_strcmp(seg_name, seg)` for the header at `sec`. -/
def isNamed (m : Buffer) (sec : Nat) (sect seg : List UInt8) : Checked Bool := do
  let c ← ftStrcmp m sec (strLit sect)
  if c = 0 then do
    let c ← ftStrcmp m (sec + 16) (strLit seg)
    pure (c == 0)
  else
    pure false

/-- The test of the header at `sec` stays in the map: the segment name is read only behind the
right section name. -/
def NameFits (m : Buffer) (sec : Nat) (sect seg : List UInt8) : Prop :=
  Compares m sec sect ∧ (HasName m sec sect → Compares m (sec + 16) seg)

instance (m : Buffer) (sec : Nat) (sect seg : List UInt8) : Decidable (NameFits m sec sect seg) :=
  inferInstanceAs (Decidable (_ ∧ (_ → _)))

theorem isNamed_eq {seg sect : List UInt8} (hseg : 0 ∉ seg) (hsect : 0 ∉ sect) :
    isNamed m sec sect seg =
      if NameFits m sec sect seg then .ok (decide (IsNamed m sec seg sect)) else .fault := by
  have hseg : ∀ b ∈ seg, b ≠ 0 := fun b hb h0 => hseg (h0 ▸ hb)
  have hsect : ∀ b ∈ sect, b ≠ 0 := fun b hb h0 => hsect (h0 ▸ hb)
  by_cases h1 : Compares m sec sect
  · obtain ⟨c, hc, hc0⟩ := ftStrcmp_lit hsect h1
    rw [isNamed, hc, Checked.ok_bind]
    by_cases hn : HasName m sec sect
    · rw [if_pos (hc0.mpr hn)]
      by_cases h2 : Compares m (sec + 16) seg
      · obtain ⟨d, hd, hd0⟩ := ftStrcmp_lit hseg h2
        rw [hd, Checked.ok_bind, if_pos ⟨h1, fun _ => h2⟩]
        by_cases hs : HasName m (sec + 16) seg
        · have hd : d = 0 := hd0.mpr hs
          simp [IsNamed, hn, hs, hd]
        · have hd : d ≠ 0 := fun e => hs (hd0.mp e)
          simp [IsNamed, hs, hd]
      · rw [ftStrcmp_lit_fault hseg h2, if_neg fun h : NameFits m sec sect seg => h2 (h.2 hn)]
        rfl
    · rw [if_neg fun e => hn (hc0.mp e), if_pos ⟨h1, fun h => absurd h hn⟩]
      simp [IsNamed, hn]
  · rw [isNamed, ftStrcmp_lit_fault hsect h1, if_neg fun h : NameFits m sec sect seg => h1 h.1]
    rfl

theorem isNamed_host {seg sect : List UInt8} (hseg : 0 ∉ seg) (hsect : 0 ∉ sect)
    (h1 : sec + sect.length + 1 ≤ m.size) (h2 : sec + 16 + seg.length + 1 ≤ m.size) :
    isNamed m sec sect seg = .ok (decide (IsNamed m sec seg sect)) := by
  rw [isNamed_eq hseg hsect, if_pos ⟨compares_of_le h1, fun _ => compares_of_le h2⟩]

end NmOtool
