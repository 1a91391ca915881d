import NmOtool.Printf.Conforms
import NmOtool.Printf.Itoa

/-!
# ft_putnbr

`ft_putnbr` writes the digits of a number by calling itself with the number without its last digit.
It writes what `ft_itoa` stores and what `ft_printf` writes for `%d`, and `ft_atoi` reads it back; only
the least `int` has no `-n`.
-/

namespace NmOtool

open MachO Checked

/-- The `nbr` of `ft_putnbr`: `-n` of the least `int` overflows. -/
def putnbrAbs (n : Int) : Checked Nat :=
  if n < 0 then if n = -2 ^ 31 then .fault else .ok (u32 (-n)) else .ok (u32 n)

/-- `ft_putnbr` and `ft_putnbr_fd`, for the bytes they write, with `fuel` nested calls. -/
def ftPutnbrFrom : Nat → Int → Checked (List UInt8)
  | 0, _ => .fault
  | fuel + 1, n => do
    let nbr ← putnbrAbs n
    let sign := if n < 0 then ascii "-" else []
    if nbr > 9 then do
      let high ← ftPutnbrFrom fuel (int32 (nbr / 10 : Nat))
      let low ← ftPutnbrFrom fuel (int32 (nbr % 10 : Nat))
      pure (sign ++ high ++ low)
    else
      pure (sign ++ [UInt8.ofNat (nbr + '0'.toNat)])

/-- A number of 32 bits has ten digits. -/
def ftPutnbr (n : Int) : Checked (List UInt8) := ftPutnbrFrom 11 n

variable {n : Int} {v fuel : Nat}

theorem decimal_digit (h : v < 10) : decimal v = [UInt8.ofNat (v + '0'.toNat)] := by
  have hall : ∀ v < 10, decimal v = [UInt8.ofNat (v + '0'.toNat)] := by decide +kernel
  exact hall v h

theorem decimal_div (h : 9 < v) : decimal v = decimal (v / 10) ++ decimal (v % 10) := by
  rw [decimal_digit (Nat.mod_lt v (by decide)), decimal_eq_digitsText (by omega),
    decimal_eq_digitsText (by omega), digitsText_succ (by omega)]

/-- One call: the sign, and the digits but for the last by another. -/
theorem ftPutnbrFrom_succ (hl : -2 ^ 31 < n) (hu : n < 2 ^ 31) : ftPutnbrFrom (fuel + 1) n =
    if n.natAbs > 9 then do
      let high ← ftPutnbrFrom fuel (n.natAbs / 10 : Nat)
      let low ← ftPutnbrFrom fuel (n.natAbs % 10 : Nat)
      pure ((if n < 0 then ascii "-" else []) ++ high ++ low)
    else pure ((if n < 0 then ascii "-" else []) ++ decimal n.natAbs) := by
  have hnbr : putnbrAbs n = .ok n.natAbs := by
    unfold putnbrAbs u32
    rw [if_neg hl.ne']
    split
    · rw [ok.injEq]
      omega
    · rw [ok.injEq]
      omega
  rw [ftPutnbrFrom, hnbr, ok_bind, int32_of_lt (by omega), int32_of_lt (by omega)]
  simp only
  by_cases h9 : n.natAbs > 9
  · rw [if_pos h9, if_pos h9]
  · rw [if_neg h9, if_neg h9, decimal_digit (by omega)]

theorem signedDecimal_natCast : signedDecimal (v : Nat) = decimal v :=
  if_neg (Int.not_lt.mpr (Int.natCast_nonneg v))

theorem signedDecimal_sign :
    (if n < 0 then ascii "-" else []) ++ decimal n.natAbs = signedDecimal n := by
  unfold signedDecimal
  split <;> rfl

/-- Each call is for a number with one digit less. -/
theorem ftPutnbrFrom_eq (hl : -2 ^ 31 < n) (hu : n < 2 ^ 31) (hn : n.natAbs < 10 ^ (fuel + 1)) :
    ftPutnbrFrom (fuel + 1) n = .ok (signedDecimal n) := by
  induction fuel generalizing n with
  | zero =>
    rw [ftPutnbrFrom_succ hl hu, if_neg (by omega), signedDecimal_sign, pure_eq]
  | succ fuel ih =>
    rw [ftPutnbrFrom_succ hl hu]
    split
    · next h9 =>
      have hhigh : ftPutnbrFrom (fuel + 1) (n.natAbs / 10 : Nat) = .ok (decimal (n.natAbs / 10)) := by
        rw [ih (by omega) (by omega), signedDecimal_natCast]
        rw [Nat.pow_succ] at hn
        omega
      have hlow : ftPutnbrFrom (fuel + 1) (n.natAbs % 10 : Nat) = .ok (decimal (n.natAbs % 10)) := by
        rw [ih (by omega) (by omega), signedDecimal_natCast]
        exact Nat.lt_of_lt_of_le (Nat.mod_lt _ (by decide)) (Nat.le_self_pow (by omega) 10)
      rw [hhigh, ok_bind, hlow, ok_bind, List.append_assoc, ← decimal_div h9, signedDecimal_sign,
        pure_eq]
    · rw [signedDecimal_sign, pure_eq]

theorem ftPutnbr_eq_iff (hl : -2 ^ 31 ≤ n) (hu : n < 2 ^ 31) :
    ftPutnbr n = .ok (signedDecimal n) ↔ n ≠ -2 ^ 31 := by
  constructor
  · rintro h rfl
    cases h
  · exact fun hne => ftPutnbrFrom_eq (lt_of_le_of_ne hl hne.symm) hu (by omega)

/-- The directive "%d". -/
def intDirective : Directive :=
  { strDirective with letter := 'd'.toUInt8, letter_isF := by decide +kernel }

theorem signedText_plain : signedText [] 0 none n = signedDecimal n := by
  have hpos := List.length_pos_iff.mpr (decimal_ne_nil n.natAbs)
  have hzeros : 1 - (decimal n.natAbs).length = 0 := by omega
  simp only [signedText, precisionText, signText, signedDecimal, List.not_mem_nil, if_false,
    Option.getD_none, reduceCtorEq, and_false, false_and, hzeros, List.replicate_zero,
    List.nil_append, Nat.zero_sub]
  split <;> rfl

theorem ftPrintf_int {mem : Memory} (hm : ∀ n, (mem.malloc n).size = n) (args : VaList) :
    ftPrintf mem (ascii "%d") args =
      .ok (signedDecimal (vaInt args), int32 (signedDecimal (vaInt args)).length) := by
  have hwidth : intDirective.widthMeant args = 0 := rfl
  have hprecision : intDirective.precisionMeant args = none := rfl
  have hright : AllRight mem [.directive .signed intDirective] args := by
    refine ⟨⟨by decide, ⟨by decide, nofun, ?_, ?_⟩, ?_⟩, trivial⟩
    · rw [hwidth]
      decide
    · rw [hprecision]
      nofun
    · rw [hprecision]
      exact fun h => absurd h.2.1 (Option.some_ne_none _).symm
  have hmeaning : meaning mem [.directive .signed intDirective] args = signedDecimal (vaInt args) :=
    (List.append_nil _).trans signedText_plain
  have hrun := prints_pieces hm (textAt_formatOf (format_ne_zero hright)) hright _ 0 (Nat.le_refl _)
  rwa [hmeaning, Int.zero_add] at hrun

/-- The writers of an `int` agree, and `ft_atoi` reads it back; `ft_putnbr` overflows for the least
one. -/
theorem decimal_writers (hl : -2 ^ 31 ≤ n) (hu : n < 2 ^ 31) (mem : Memory)
    (hm : ∀ size, (mem.malloc size).size = size) :
    (ftPutnbr n = .ok (signedDecimal n) ↔ n ≠ -2 ^ 31) ∧
    (∃ number, ftItoaIn mem.malloc n = .ok number ∧ Exact mem.malloc (signedDecimal n) number) ∧
    (∀ args, vaInt args = n → ftPrintf mem (ascii "%d") args =
      .ok (signedDecimal n, int32 (signedDecimal n).length)) ∧
    ∀ m p, TextAt m p (signedDecimal n) → ftAtoi m p = .ok n := by
  refine ⟨ftPutnbr_eq_iff hl hu, ?_, ?_, fun m p h => ?_⟩
  · exact itoaIn_exact (w := 32) hm hl hu (by decide) (Nat.le_refl 32)
  · rintro args rfl
    exact ftPrintf_int hm args
  · rw [ftAtoi_ok h, atoi_signedDecimal hl hu]

theorem decimal_writers_42 : ftPutnbr (-42) = .ok (ascii "-42") :=
  (decimal_writers (n := -42) (by decide) (by decide) emptyMemory fun _ => rfl).1.mpr (by decide)

end NmOtool
