import Mathlib.Data.List.TakeWhile
import NmOtool.Printf.Convert

/-!
# ft_printf: the scan of the format

`ft_printf.c`. A directive is skipped with the character that ends it, also where that is the NUL:
the scan stays in the format exactly where every directive is `Finished`.
-/

namespace NmOtool

open MachO Checked

def isF (c : UInt8) : Bool := (ascii "sSpdDioOuUxXcCb").contains c

/-- The loop over `move_i`; `m.i` is an `int`, and there is nothing to read where it overflows. -/
def moveIFrom (m : Buffer) (format : Nat) : Nat → Nat → Bool → Checked Nat
  | 0, _, _ => .fault
  | fuel + 1, i, per => do
    let c ← m.load (format + i)
    if c ≠ 0 ∧ !isF c ∧ !per then
      if i + 1 < 2 ^ 31 then do
        let d ← m.load (format + (i + 1))
        moveIFrom m format fuel (i + 1) (d == '%'.toUInt8)
      else .fault
    else pure i

/-- A round of `ft_printf` at a '%': the index of the character that ends the directive, the bytes
written, the length, and the arguments that are left. -/
def ftPrintfDirective (mem : Memory) (m : Buffer) (format : Nat) (args : VaList) :
    Checked (Nat × List UInt8 × Int × VaList) := do
  let i ← moveIFrom m format (m.size + 1) 0 false
  let c ← m.load (format + i)
  match (iniSet mem).lookup c with
  | some con => do
    let (out, data, args) ← con m format i args
    pure (i, out, data.len, args)
  | none => pure (i, [], 0, args)

/-- The loop of `ft_printf`: the bytes written, and `m.nbr`. -/
def ftPrintfFrom (mem : Memory) (m : Buffer) :
    Nat → Nat → Int → VaList → Checked (List UInt8 × Int)
  | 0, _, _, _ => .fault
  | fuel + 1, format, nbr, args => do
    let c ← m.load format
    if c = 0 then pure ([], nbr)
    else if c = '%'.toUInt8 then do
      let (i, out, len, args) ← ftPrintfDirective mem m format args
      let (rest, nbr) ← ftPrintfFrom mem m fuel (format + i + 1) (int32 (nbr + len)) args
      pure (out ++ rest, nbr)
    else do
      let (rest, nbr) ← ftPrintfFrom mem m fuel (format + 1) (int32 (nbr + 1)) args
      pure (c :: rest, nbr)

def ftPrintf (mem : Memory) (format : List UInt8) (args : VaList) :
    Checked (List UInt8 × Int) :=
  ftPrintfFrom mem (formatOf format) (format.length + 1) 0 0 args

/-! ## Directives -/

/-- A byte inside a directive: neither a conversion letter nor a second '%'. -/
def InDirective (b : UInt8) : Prop := isF b = false ∧ b ≠ '%'.toUInt8

instance (b : UInt8) : Decidable (InDirective b) := inferInstanceAs (Decidable (_ ∧ _))

/-- A format of characters and finished directives: each '%' is followed by a conversion letter or a
second '%', at an index that is an `int`. -/
inductive Finished : List UInt8 → Prop where
  | nil : Finished []
  | char {c t} : c ≠ '%'.toUInt8 → Finished t → Finished (c :: t)
  | directive {body c t} : (∀ b ∈ body, InDirective b) → ¬ InDirective c →
      body.length + 1 < 2 ^ 31 → Finished t → Finished ('%'.toUInt8 :: (body ++ c :: t))

/-- The bytes up to the one that ends the directive. -/
def directiveBody (u : List UInt8) : List UInt8 := u.takeWhile fun b => decide (InDirective b)

variable {mem : Memory} {m : Buffer} {p i fuel : Nat} {t u rest body : List UInt8} {c : UInt8}
  {args : VaList} {nbr : Int}

theorem inDirective_of_mem (b : UInt8) (hb : b ∈ directiveBody u) : InDirective b :=
  of_decide_eq_true (List.mem_takeWhile_imp (p := fun b => decide (InDirective b)) hb)

/-- Where a byte ends the directive, there is no choice of its body. -/
theorem directiveBody_append (hbody : ∀ b ∈ body, InDirective b) (hc : ¬ InDirective c) :
    directiveBody (body ++ c :: t) = body := by
  rw [directiveBody, List.takeWhile_append_of_pos (by simpa using hbody),
    List.takeWhile_cons_of_neg (by simpa using hc), List.append_nil]

/-- A text that goes on behind the body of its first directive goes on with the end of it. -/
theorem not_inDirective_of_body (hu : u = directiveBody u ++ c :: t) : ¬ InDirective c := by
  intro hc
  have hlen := congrArg List.length (congrArg directiveBody hu)
  rw [directiveBody, directiveBody, List.takeWhile_append_of_pos, List.takeWhile_cons_of_pos,
    List.length_append, List.length_cons] at hlen
  · omega
  · simpa using hc
  · exact fun b hb => decide_eq_true (inDirective_of_mem b hb)

theorem finished_percent : Finished ('%'.toUInt8 :: u) ↔
    (directiveBody u).length + 1 < 2 ^ 31 ∧
      ∃ c t, u = directiveBody u ++ c :: t ∧ Finished t := by
  constructor
  · intro h
    generalize hw : '%'.toUInt8 :: u = w at h
    cases h with
    | nil => cases hw
    | char hc ht =>
      obtain ⟨rfl, -⟩ := List.cons.inj hw
      exact absurd rfl hc
    | @directive body c t hbody hc hlen ht =>
      obtain ⟨-, rfl⟩ := List.cons.inj hw
      rw [directiveBody_append hbody hc]
      exact ⟨hlen, c, t, rfl, ht⟩
  · rintro ⟨hlen, c, t, hu, ht⟩
    rw [hu]
    exact .directive inDirective_of_mem (not_inDirective_of_body hu) hlen ht

theorem moveIFrom_eq (h : TextAt m (p + i) u) (hi : i < 2 ^ 31) (hf : u.length < fuel) :
    moveIFrom m p fuel i (u.getD 0 0 == '%'.toUInt8) =
      if i + (directiveBody u).length < 2 ^ 31 then .ok (i + (directiveBody u).length)
      else .fault := by
  induction fuel generalizing i u with
  | zero => exact absurd hf (Nat.not_lt_zero _)
  | succ fuel ih =>
    rw [moveIFrom, h.head, ok_bind]
    cases u with
    | nil =>
      rw [if_neg (by simp)]
      exact (if_pos hi).symm
    | cons b u =>
      rw [List.getD_cons_zero]
      by_cases hb : InDirective b
      · have hcond : b ≠ 0 ∧ (!isF b) = true ∧ (!(b == '%'.toUInt8)) = true :=
          ⟨h.ne_zero b List.mem_cons_self, by rw [hb.1]; rfl, by simpa using hb.2⟩
        have htail := h.tail
        rw [Nat.add_assoc] at htail
        have hbody : (directiveBody (b :: u)).length = (directiveBody u).length + 1 := by
          rw [directiveBody, List.takeWhile_cons_of_pos (by simpa using hb)]
          rfl
        rw [if_pos hcond, hbody]
        by_cases hi' : i + 1 < 2 ^ 31
        · rw [if_pos hi', htail.head, ok_bind, ih htail hi' (Nat.lt_of_succ_lt_succ hf),
            Nat.add_assoc, Nat.add_comm 1]
        · rw [if_neg hi', if_neg (by omega)]
      · have hcond : ¬ (b ≠ 0 ∧ (!isF b) = true ∧ (!(b == '%'.toUInt8)) = true) := by
          rintro ⟨-, hF, hper⟩
          exact hb ⟨by simpa using hF, by simpa using hper⟩
        rw [if_neg hcond, directiveBody, List.takeWhile_cons_of_neg (by simpa using hb)]
        exact (if_pos hi).symm

theorem moveIFrom_percent (h : TextAt m p ('%'.toUInt8 :: u)) :
    moveIFrom m p (m.size + 1) 0 false =
      if (directiveBody u).length + 1 < 2 ^ 31 then .ok ((directiveBody u).length + 1)
      else .fault := by
  have hsize := h.size_lt
  have htail := h.tail
  rw [List.length_cons] at hsize
  have hcond : '%'.toUInt8 ≠ 0 ∧ (!isF '%'.toUInt8) = true ∧ (!false) = true := by decide
  rw [moveIFrom, Nat.add_zero, h.head, ok_bind, List.getD_cons_zero, if_pos hcond,
    if_pos (by decide), Nat.zero_add, htail.head, ok_bind,
    moveIFrom_eq htail (by decide) (by omega), Nat.add_comm 1]

/-- A directive that is read ends at an index. -/
theorem ftPrintfDirective_index {out : List UInt8} {len : Int} {args' : VaList}
    (h : TextAt m p ('%'.toUInt8 :: u))
    (hdir : ftPrintfDirective mem m p args = .ok (i, out, len, args')) :
    (directiveBody u).length + 1 < 2 ^ 31 ∧ i = (directiveBody u).length + 1 := by
  rw [ftPrintfDirective, moveIFrom_percent h] at hdir
  split at hdir
  · next hlen =>
    refine ⟨hlen, ?_⟩
    rw [ok_bind] at hdir
    obtain ⟨c, -, hdir⟩ := bind_eq_ok.mp hdir
    split at hdir
    · obtain ⟨r, -, hdir⟩ := bind_eq_ok.mp hdir
      cases hdir
      rfl
    · cases hdir
      rfl
  · cases hdir

theorem ftPrintfFrom_outside (h : m.size ≤ p) : ftPrintfFrom mem m fuel p nbr args = .fault := by
  cases fuel with
  | zero => rfl
  | succ fuel =>
    rw [ftPrintfFrom, Buffer.load, if_neg (Nat.not_lt.mpr h)]
    rfl

/-- The loop of `ft_printf` comes to the end of finished formats only, whatever the blocks are. -/
theorem finished_of_ftPrintfFrom {r : List UInt8 × Int} (h : TextAt m p t)
    (hm : m.size = p + t.length + 1) (hrun : ftPrintfFrom mem m fuel p nbr args = .ok r) :
    Finished t := by
  induction fuel generalizing p t nbr args r with
  | zero => cases hrun
  | succ fuel ih =>
    rw [ftPrintfFrom, h.head, ok_bind] at hrun
    cases t with
    | nil => exact .nil
    | cons c t =>
      rw [List.length_cons] at hm
      rw [List.getD_cons_zero, if_neg (h.ne_zero c List.mem_cons_self)] at hrun
      by_cases hc : c = '%'.toUInt8
      · subst hc
        rw [if_pos rfl] at hrun
        obtain ⟨⟨i, out, len, args'⟩, hdir, hrun⟩ := bind_eq_ok.mp hrun
        obtain ⟨⟨rest, nbr'⟩, hrest, -⟩ := bind_eq_ok.mp hrun
        obtain ⟨hlen, rfl⟩ := ftPrintfDirective_index h hdir
        -- the text behind the body: nothing, or the character that ends the directive
        have hbody : t = directiveBody t ++ t.dropWhile fun b => decide (InDirective b) :=
          List.takeWhile_append_dropWhile.symm
        have hlength := congrArg List.length hbody
        rw [List.length_append] at hlength
        generalize t.dropWhile (fun b => decide (InDirective b)) = u at hbody hlength
        cases u with
        | nil =>
          rw [ftPrintfFrom_outside (by rw [hm, hlength]; simp)] at hrest
          cases hrest
        | cons c u =>
          have hdrop : ('%'.toUInt8 :: t).drop ((directiveBody t).length + 1 + 1) = u :=
            (congrArg (List.drop ((directiveBody t).length + 1)) hbody).trans (by simp)
          rw [List.length_cons] at hlength
          have hbehind := h.drop ((directiveBody t).length + 1 + 1)
            (by rw [List.length_cons]; omega)
          rw [hdrop] at hbehind
          rw [Nat.add_assoc p] at hrest
          exact finished_percent.mpr ⟨hlen, c, u, hbody, ih hbehind (by omega) hrest⟩
      · rw [if_neg hc] at hrun
        obtain ⟨⟨rest, nbr'⟩, hrest, -⟩ := bind_eq_ok.mp hrun
        exact .char hc (ih h.tail (by omega) hrest)

theorem finished_of_ftPrintf {format : List UInt8} {r : List UInt8 × Int}
    (h : ∀ b ∈ format, b ≠ 0) (hrun : ftPrintf mem format args = .ok r) : Finished format :=
  finished_of_ftPrintfFrom (textAt_formatOf h) (Nat.zero_add _ ▸ rfl) hrun

end NmOtool
