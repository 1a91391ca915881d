import Mathlib.Data.List.Nodup
import Mathlib.Data.List.Perm.Subperm
import NmOtool.Printf.Run

/-!
# ft_printf: directives and their text

`Directive.text` writes a directive down. `set_flags` and `set_cast` find in the text what was
written, one round of the loop for each flag and one for the width and the precision, but for a
negative width from a '*': its '-' is lost.
-/

namespace NmOtool

open MachO Checked

/-! ## Directives -/

/-- A width or a precision in digits, or as a '*'. -/
inductive Field where
  | digits (l : List UInt8)
  | star
  deriving DecidableEq, Repr

def Field.text : Field → List UInt8
  | digits l => l
  | star => ascii "*"

/-- The value of decimal digits. -/
def decimalValue (l : List UInt8) : Nat :=
  l.foldl (fun n c => n * 10 + (c.toNat - '0'.toNat)) 0

/-- A width from its digits or its argument. -/
def Field.width (args : VaList) : Field → Int
  | digits l => decimalValue l
  | star => |vaInt args|

/-- A precision from its digits or its argument; a negative argument is none. -/
def Field.precison (args : VaList) : Field → Int
  | digits l => decimalValue l
  | star => if vaInt args < 0 then -1 else vaInt args

/-- The arguments behind the ones of a field. -/
def Field.rest (args : VaList) : Field → VaList
  | digits _ => args
  | star => args.rest

def TCast.text : TCast → List UInt8
  | none => []
  | hh => ascii "hh"
  | h => ascii "h"
  | l => ascii "l"
  | ll => ascii "ll"
  | j => ascii "j"
  | z => ascii "z"

/-- A directive behind its '%'. The width is a positive number, so that it begins with no zero, and a
precision without digits is 0. -/
structure Directive where
  flags : List UInt8
  width : Option Field
  precison : Option Field
  cast : TCast
  letter : UInt8
  flags_mem : ∀ c ∈ flags, c ∈ ascii "0#-+ "
  width_digits : ∀ l, width = some (.digits l) → l ≠ [] ∧ l.getD 0 0 ≠ '0'.toUInt8 ∧
    (∀ c ∈ l, isDigit c) ∧ decimalValue l < 2 ^ 31
  precison_digits : ∀ l, precison = some (.digits l) →
    (∀ c ∈ l, isDigit c) ∧ decimalValue l < 2 ^ 31
  letter_isF : isF letter

namespace Directive

def widthText (d : Directive) : List UInt8 := (d.width.map Field.text).getD []

def precisonText (d : Directive) : List UInt8 :=
  (d.precison.map fun f => '.'.toUInt8 :: f.text).getD []

/-- The text between the '%' and the letter. -/
def body (d : Directive) : List UInt8 := d.flags ++ d.widthText ++ d.precisonText ++ d.cast.text

def text (d : Directive) : List UInt8 := '%'.toUInt8 :: (d.body ++ [d.letter])

/-- The arguments behind the one of a '*' width. -/
def widthRest (d : Directive) (args : VaList) : VaList := d.width.elim args (Field.rest args)

/-- A '*' width whose argument is negative. -/
def negativeWidth (d : Directive) (args : VaList) : Bool :=
  d.width == some .star && decide (vaInt args < 0)

/-- What a directive asks for, in the terms of `data`. -/
structure Meant (d : Directive) (args : VaList) (data : TData) : Prop where
  flags : ∀ c, c ∈ data.flags ↔ c ∈ d.flags ∨ d.negativeWidth args ∧ c = '-'.toUInt8
  width : data.width = d.width.elim 0 (Field.width args)
  precison : data.precison = d.precison.elim (-1) (Field.precison (d.widthRest args))
  cast : data.cast = d.cast

end Directive

variable {m : Buffer} {f size i : Nat} {t l u rest : List UInt8} {c : UInt8} {s s' s'' : FlagsRound}
  {args : VaList} {d : Directive}

/-! ## Digits -/

theorem decimal_le (n : Nat) : n ≤ l.foldl (fun n c => n * 10 + (c.toNat - '0'.toNat)) n := by
  induction l generalizing n with
  | nil => exact Nat.le_refl n
  | cons c l ih =>
    have hn : n ≤ n * 10 + (c.toNat - '0'.toNat) := by omega
    exact hn.trans (ih _)

theorem isDigit_range (h : isDigit c) : 48 ≤ c.toNat ∧ c.toNat ≤ 57 := by
  rw [isDigit, Bool.and_eq_true, decide_eq_true_eq, decide_eq_true_eq, UInt8.le_iff_toNat_le,
    UInt8.le_iff_toNat_le] at h
  exact h

theorem isSpace_lt (h : isSpace c) : c.toNat < 48 := by
  simp only [isSpace, Bool.or_eq_true, beq_iff_eq] at h
  rcases h with ((((rfl | rfl) | rfl) | rfl) | rfl) | rfl <;> decide

/-- The digits of a number that a `long` holds, in front of something else. -/
theorem atoiDigits_append {n : Nat} (hl : ∀ c ∈ l, isDigit c) (hu : ¬ isDigit (u.getD 0 0))
    (hn : l.foldl (fun n c => n * 10 + (c.toNat - '0'.toNat)) n < 2 ^ 63) :
    atoi.atoiDigits (l ++ u) n = l.foldl (fun n c => n * 10 + (c.toNat - '0'.toNat)) n := by
  induction l generalizing n with
  | nil =>
    cases u with
    | nil => rfl
    | cons c u =>
      rw [List.getD_cons_zero] at hu
      rw [List.nil_append, atoi.atoiDigits, if_neg (by simp [hu])]
      rfl
  | cons c l ih =>
    have hc := hl c List.mem_cons_self
    have hrange := isDigit_range hc
    have hstep : int64 (n * 10 + (c.toNat - '0'.toNat)) =
        ((n * 10 + (c.toNat - '0'.toNat) : Nat) : Int) := by
      have hle := (decimal_le (l := l) (n * 10 + (c.toNat - '0'.toNat))).trans_lt hn
      have h0 : '0'.toNat = 48 := rfl
      rw [h0] at hle ⊢
      unfold int64
      rw [Int.bmod_def]
      split <;> omega
    rw [List.cons_append, atoi.atoiDigits, if_pos (by simp [hc]), hstep]
    exact ih (fun c hc => hl c (List.mem_cons_of_mem _ hc)) hn

/-- What `ft_atoi` reads of digits; without digits, in front of a letter. -/
theorem atoi_append (hl : ∀ c ∈ l, isDigit c) (hu : ¬ isDigit (u.getD 0 0))
    (h0 : l ≠ [] ∨ 64 ≤ (u.getD 0 0).toNat) (hn : decimalValue l < 2 ^ 31) :
    atoi (l ++ u) = decimalValue l := by
  -- the first character is a digit or a letter: no blank and no sign
  have hhead : 48 ≤ ((l ++ u).getD 0 0).toNat := by
    cases l with
    | nil => exact le_trans (by decide) (h0.resolve_left fun h => h rfl)
    | cons c l => exact (isDigit_range (hl c List.mem_cons_self)).1
  have hblank : (l ++ u).dropWhile isSpace = l ++ u := by
    cases hlu : l ++ u with
    | nil => rfl
    | cons c t =>
      rw [hlu, List.getD_cons_zero] at hhead
      exact List.dropWhile_cons_of_neg fun h => absurd (isSpace_lt h) (Nat.not_lt.mpr hhead)
  have hsign : ∀ b : UInt8, b.toNat < 48 → ((l ++ u).getD 0 0 == b) = false := by
    intro b hb
    apply beq_eq_false_iff_ne.mpr
    intro h
    rw [h] at hhead
    omega
  have hval := atoiDigits_append (n := 0) hl hu (hn.trans (by decide))
  have hnonneg : ¬ (decimalValue l : Int) < 0 := Int.not_lt.mpr (Int.natCast_nonneg _)
  rw [atoi, hblank, hsign _ (by decide), hsign _ (by decide)]
  refine (if_neg fun h => hnonneg (hval ▸ h.1)).trans ?_
  refine (if_neg fun h => hnonneg (hval ▸ h.1)).trans ?_
  refine (congrArg (fun z => int32 (z * 1)) hval).trans ?_
  rw [Int.mul_one]
  exact int32_of_lt hn

theorem takeWhile_digits (hl : ∀ c ∈ l, isDigit c) (hu : ¬ isDigit (u.getD 0 0)) :
    (l ++ u).takeWhile isDigit = l := by
  rw [List.takeWhile_append_of_pos hl]
  cases u with
  | nil => simp
  | cons c u =>
    rw [List.takeWhile_cons_of_neg (by simpa using hu), List.append_nil]

/-! ## The characters of a directive -/

theorem flag_char (h : c ∈ ascii "0#-+ ") : c ≠ 0 ∧ ¬ '0'.toUInt8 < c ∧ c ≠ '*'.toUInt8 ∧
    c ≠ '.'.toUInt8 ∧ c.toNat < 64 ∧ c ≠ '%'.toUInt8 := by
  revert c
  decide +kernel

theorem modifier_char (h : c ∈ ascii "hljz") : 64 ≤ c.toNat ∧ isF c = false ∧
    ¬ c ≤ '9'.toUInt8 ∧ c ≠ '*'.toUInt8 ∧ c ≠ '.'.toUInt8 ∧ c ≠ '%'.toUInt8 ∧
    c ∉ ascii "0#-+ " := by
  revert c
  decide +kernel

theorem letter_char (h : isF c) : 64 ≤ c.toNat := by
  have hall : ∀ c ∈ ascii "sSpdDioOuUxXcCb", 64 ≤ c.toNat := by decide +kernel
  exact hall c (by simpa [isF] using h)

/-- A length modifier is made of its letters. -/
theorem modifier_text (cast : TCast) : ∀ b ∈ cast.text, b ∈ ascii "hljz" := by
  cases cast <;> decide +kernel

/-! ## Rounds of `set_flags` -/

/-- Rounds that are left for what is not read yet, one for each byte, and one for the end. -/
def Enough (size fuel : Nat) (s : FlagsRound) : Prop := 0 < fuel ∧ size < fuel + s.i

/-- The loop of `set_flags` gets from `s` to `s'`. -/
def Runs (m : Buffer) (f size : Nat) (s s' : FlagsRound) : Prop :=
  ∀ fuel, Enough size fuel s → ∃ fuel', Enough size fuel' s' ∧
    setFlagsFrom m f size fuel s = setFlagsFrom m f size fuel' s'

theorem Runs.refl : Runs m f size s s := fun fuel h => ⟨fuel, h, rfl⟩

theorem Runs.trans (h : Runs m f size s s') (h' : Runs m f size s' s'') : Runs m f size s s'' := by
  intro fuel hf
  obtain ⟨fuel', hf', heq⟩ := h fuel hf
  obtain ⟨fuel'', hf'', heq'⟩ := h' fuel' hf'
  exact ⟨fuel'', hf'', heq.trans heq'⟩

theorem Runs.round (hi : s.i < size) (hj : s.j < 10) (hr : setFlagsRound m f s = .ok s')
    (hlt : s.i < s'.i) : Runs m f size s s' := by
  rintro fuel ⟨h0, hf⟩
  cases fuel with
  | zero => exact absurd h0 (Nat.lt_irrefl 0)
  | succ fuel =>
    refine ⟨fuel, ⟨by omega, by omega⟩, ?_⟩
    rw [setFlagsFrom, if_pos ⟨hi, hj⟩, hr, ok_bind]

/-- The characters of a length modifier are skipped. -/
theorem setFlagsFrom_skip {fuel : Nat} (h : TextAt m f t) (hs : size ≤ t.length)
    (hskip : ∀ k, s.i ≤ k → k < size → t.getD k 0 ∈ ascii "hljz") (hf : Enough size fuel s) :
    ∃ s', setFlagsFrom m f size fuel s = .ok s' ∧ s'.data = s.data ∧ s'.args = s.args := by
  obtain ⟨h0, hf⟩ := hf
  induction fuel generalizing s with
  | zero => exact absurd h0 (Nat.lt_irrefl 0)
  | succ fuel ih =>
    unfold setFlagsFrom
    by_cases hc : s.i < size ∧ s.j < 10
    · have hdrop : t.drop s.i = t.getD s.i 0 :: t.drop (s.i + 1) := by
        rw [List.getD_eq_getElem t 0 (by omega)]
        exact List.drop_eq_getElem_cons (by omega)
      have hletter := hskip s.i (Nat.le_refl _) hc.1
      obtain ⟨-, -, h9, hstar, hdot, -, hflag⟩ := modifier_char hletter
      have hround := setFlagsRound_one h hdrop (fun hw => h9 hw.2.2) hstar hdot
      rw [if_neg hflag] at hround
      rw [if_pos hc, hround, ok_bind]
      exact ih (fun k hk => hskip k (Nat.le_of_succ_le hk)) (by omega) (by simp only; omega)
    · rw [if_neg hc]
      exact ⟨s, rfl, rfl, rfl⟩

/-! ## Flags -/

/-- The flags that `set_flags` has found: each one once, and `j` is their number. -/
structure FlagsOk (s : FlagsRound) : Prop where
  j : s.j = s.data.flags.length
  nodup : s.data.flags.Nodup
  mem : ∀ c ∈ s.data.flags, c ∈ ascii "0#-+ "

theorem FlagsOk.j_lt (h : FlagsOk s) : s.j < 10 := by
  have hle := (List.subperm_of_subset h.nodup h.mem).length_le
  have hfive : (ascii "0#-+ ").length = 5 := rfl
  have hj := h.j
  omega

/-- `s'` has read the flags `l` behind `s`. -/
structure Flagged (l : List UInt8) (s s' : FlagsRound) : Prop where
  i : s'.i = s.i + l.length
  args : s'.args = s.args
  data : s'.data = { s.data with flags := s'.data.flags }
  mem : ∀ c, c ∈ s'.data.flags ↔ c ∈ s.data.flags ∨ c ∈ l

theorem flag_ok (h : FlagsOk s) (hc : c ∈ ascii "0#-+ ") :
    FlagsOk (s.flag c) ∧ (s.flag c).args = s.args ∧
      (s.flag c).data = { s.data with flags := (s.flag c).data.flags } ∧
      ∀ b, b ∈ (s.flag c).data.flags ↔ b ∈ s.data.flags ∨ b = c := by
  rw [FlagsRound.flag, ftStrchr_eq (flag_char hc).1]
  by_cases hmem : c ∈ s.data.flags
  · rw [if_pos (decide_eq_true hmem)]
    refine ⟨h, rfl, rfl, fun b => ⟨.inl, ?_⟩⟩
    rintro (hb | rfl)
    · exact hb
    · exact hmem
  · rw [if_neg (by simpa using hmem)]
    refine ⟨⟨?_, ?_, ?_⟩, rfl, rfl, fun b => by simp⟩
    · simp [h.j]
    · exact List.Nodup.append h.nodup (List.nodup_singleton c) (by simpa using hmem)
    · intro b hb
      rcases List.mem_append.mp hb with hb | hb
      · exact h.mem b hb
      · rwa [List.mem_singleton.mp hb]

theorem runs_flags {pre : List UInt8} (h : TextAt m f t) (ht : t = pre ++ (l ++ rest))
    (hi : s.i = pre.length) (hl : ∀ c ∈ l, c ∈ ascii "0#-+ ") (hlen : s.i + l.length ≤ size)
    (hok : FlagsOk s) : ∃ s', Runs m f size s s' ∧ FlagsOk s' ∧ Flagged l s s' := by
  induction l generalizing pre s with
  | nil => exact ⟨s, .refl, hok, ⟨rfl, rfl, rfl, fun c => by simp⟩⟩
  | cons c l ih =>
    have hc := hl c List.mem_cons_self
    obtain ⟨hok', hargs, hdata, hmem⟩ := flag_ok hok hc
    obtain ⟨-, h0, hstar, hdot, -⟩ := flag_char hc
    have hdrop : t.drop s.i = c :: (l ++ rest) := by
      rw [ht, hi, List.drop_left]
      rfl
    have hround := setFlagsRound_one h hdrop (fun hw => h0 hw.2.1) hstar hdot
    rw [if_pos hc] at hround
    rw [List.length_cons] at hlen
    obtain ⟨s', hruns, hok'', hs'⟩ := ih (s := { s.flag c with i := s.i + 1 })
      (show t = pre ++ [c] ++ (l ++ rest) by rw [ht]; simp) (by simp [hi])
      (fun c hc => hl c (List.mem_cons_of_mem _ hc))
      (by simp only; omega) ⟨hok'.j, hok'.nodup, hok'.mem⟩
    refine ⟨s', .trans (.round (by omega) hok.j_lt hround (Nat.lt_succ_self _)) hruns, hok'', ?_⟩
    constructor
    · rw [hs'.i, List.length_cons]
      simp only
      omega
    · exact hs'.args.trans hargs
    · rw [hs'.data]
      simp only
      rw [hdata]
    · intro b
      rw [hs'.mem, List.mem_cons]
      simp only
      rw [hmem, or_assoc]

/-! ## The width and the precision -/

theorem vaInt_range (args : VaList) : -2 ^ 31 ≤ vaInt args ∧ vaInt args < 2 ^ 31 := by
  rw [vaInt, BitVec.toInt_eq_toNat_cond]
  split <;> omega

/-- The absolute value of any `int` but the least one. -/
theorem width_star (hmin : vaInt args ≠ -2 ^ 31) :
    (if vaInt args < 0 then int32 (vaInt args * -1) else vaInt args) = |vaInt args| := by
  obtain ⟨hge, hlt⟩ := vaInt_range args
  split_ifs with hneg
  · rw [abs_of_neg hneg, Int.mul_neg_one, int32_of_range (by omega) (by omega)]
  · rw [abs_of_nonneg (by omega)]

/-- The state behind a width of `n` bytes. -/
def FlagsRound.width (s : FlagsRound) (width : Option Field) (n : Nat) : FlagsRound :=
  { s with
    data := { s.data with width := width.elim 0 (Field.width s.args) }
    args := width.elim s.args (Field.rest s.args)
    i := s.i + n }

/-- A number that begins a width, with no '.' in front of it. -/
theorem widthDigit_head {pre : List UInt8} (ht : t = pre ++ (c :: u)) (hi : s.i = pre.length)
    (hdot : '.'.toUInt8 ∉ pre) (hc : isDigit c) (hzero : c ≠ '0'.toUInt8) :
    WidthDigit t s.i c := by
  obtain ⟨hlow, hhigh⟩ := isDigit_range hc
  refine ⟨?_, ?_, UInt8.le_iff_toNat_le.mpr hhigh⟩
  · rw [ht, hi, List.take_length_add_append]
    intro hmem
    rcases List.mem_append.mp hmem with hmem | hmem
    · exact hdot hmem
    · obtain rfl : '.'.toUInt8 = c := by simpa using hmem
      exact absurd hlow (by decide)
  · apply UInt8.lt_iff_toNat_lt.mpr
    apply lt_of_le_of_ne hlow
    exact fun h => hzero (UInt8.toNat_inj.mp h.symm)

theorem runs_width {pre : List UInt8} (h : TextAt m f t) (ht : t = pre ++ (d.widthText ++ rest))
    (hi : s.i = pre.length) (hlen : s.i + d.widthText.length ≤ size) (hj : s.j < 10)
    (hdot : '.'.toUInt8 ∉ pre) (hrest : ¬ isDigit (rest.getD 0 0))
    (hmin : d.width = some .star → vaInt s.args ≠ -2 ^ 31) (h0 : s.data.width = 0) :
    Runs m f size s (s.width d.width d.widthText.length) := by
  have hdrop : t.drop s.i = d.widthText ++ rest := by rw [ht, hi, List.drop_left]
  cases hw : d.width with
  | none =>
    have htext : d.widthText = [] := by rw [Directive.widthText, hw]; rfl
    have heq : s.width none 0 = s := by
      obtain ⟨i, j, data, args⟩ := s
      rw [FlagsRound.width, Option.elim_none, ← h0]
      rfl
    rw [htext, List.length_nil, heq]
    exact .refl
  | some field =>
    cases field with
    | digits l =>
      have htext : d.widthText = l := by rw [Directive.widthText, hw]; rfl
      obtain ⟨hne, hzero, hdigits, hval⟩ := d.width_digits l hw
      rw [htext] at ht hdrop hlen ⊢
      cases l with
      | nil => exact absurd rfl hne
      | cons c l =>
        rw [List.length_cons] at hlen
        have hwidth := widthDigit_head ht hi hdot (hdigits c List.mem_cons_self) hzero
        have hround := setFlagsRound_width h (u := l ++ rest) hdrop hwidth
        rw [← List.cons_append, atoi_append hdigits hrest (.inl hne) hval,
          takeWhile_digits hdigits hrest] at hround
        exact .round (by omega) hj hround (Nat.lt_add_of_pos_right (Nat.succ_pos _))
    | star =>
      have htext : d.widthText = ascii "*" := by rw [Directive.widthText, hw]; rfl
      rw [htext] at hdrop hlen ⊢
      have hround := setFlagsRound_star h hdrop
      rw [width_star (hmin hw)] at hround
      refine .round ?_ hj hround (Nat.lt_succ_self _)
      exact Nat.lt_of_succ_le hlen

/-- The state behind a precision of `n` bytes. -/
def FlagsRound.precison (s : FlagsRound) (precison : Option Field) (n : Nat) : FlagsRound :=
  { s with
    data := { s.data with precison := precison.elim (-1) (Field.precison s.args) }
    args := precison.elim s.args (Field.rest s.args)
    i := s.i + n }

/-- Digits, or a letter behind none, are no '*'. -/
theorem head_ne_star (hl : ∀ c ∈ l, isDigit c) (hrest : 64 ≤ (rest.getD 0 0).toNat) :
    (l ++ rest).getD 0 0 ≠ '*'.toUInt8 := by
  intro hstar
  cases l with
  | nil =>
    rw [List.nil_append] at hstar
    rw [hstar] at hrest
    exact absurd hrest (by decide)
  | cons c l =>
    have hc := isDigit_range (hl c List.mem_cons_self)
    rw [List.cons_append, List.getD_cons_zero] at hstar
    rw [hstar] at hc
    exact absurd hc (by decide)

/-- The cursor stands behind the precision, or one character further on. -/
theorem runs_precison {pre : List UInt8} (h : TextAt m f t)
    (ht : t = pre ++ (d.precisonText ++ rest)) (hi : s.i = pre.length)
    (hlen : s.i + d.precisonText.length ≤ size) (hj : s.j < 10)
    (hrest : 64 ≤ (rest.getD 0 0).toNat) (h0 : s.data.precison = -1) :
    ∃ skip ≤ 1, Runs m f size s (s.precison d.precison (d.precisonText.length + skip)) := by
  have hdrop : t.drop s.i = d.precisonText ++ rest := by rw [ht, hi, List.drop_left]
  cases hp : d.precison with
  | none =>
    have htext : d.precisonText = [] := by rw [Directive.precisonText, hp]; rfl
    have heq : s.precison none 0 = s := by
      obtain ⟨i, j, data, args⟩ := s
      rw [FlagsRound.precison, Option.elim_none, ← h0]
      rfl
    refine ⟨0, Nat.zero_le 1, ?_⟩
    rw [htext]
    exact heq ▸ .refl
  | some field =>
    cases field with
    | digits l =>
      have htext : d.precisonText = '.'.toUInt8 :: l := by rw [Directive.precisonText, hp]; rfl
      obtain ⟨hdigits, hval⟩ := d.precison_digits l hp
      rw [htext] at hdrop hlen ⊢
      rw [List.length_cons] at hlen ⊢
      have hdigit : ¬ isDigit (rest.getD 0 0) := fun h => by
        have := isDigit_range h
        omega
      have hstar := head_ne_star hdigits hrest
      have hround := setFlagsRound_dot h (u := l ++ rest) hdrop hstar
      rw [atoi_append hdigits hdigit (.inr hrest) hval, takeWhile_digits hdigits hdigit] at hround
      exact ⟨1, Nat.le_refl 1,
        .round (by omega) hj hround (Nat.lt_add_of_pos_right (Nat.succ_pos _))⟩
    | star =>
      have htext : d.precisonText = ascii ".*" := by rw [Directive.precisonText, hp]; rfl
      rw [htext] at hdrop hlen ⊢
      have hround := setFlagsRound_dotStar h hdrop
      have hlen' : s.i + 2 ≤ size := hlen
      exact ⟨0, Nat.zero_le 1, .round (by omega) hj hround (Nat.lt_add_of_pos_right (by decide))⟩

/-! ## The length modifier -/

/-- `set_cast` finds the length modifier behind a text without letters. -/
theorem castOf_text {pre post : List UInt8} {cast : TCast} {letter : UInt8}
    (hpre : ∀ b ∈ pre, b.toNat < 64) (hletter : isF letter) :
    castOf (pre ++ (cast.text ++ letter :: post)) (pre.length + cast.text.length) = cast := by
  have htake : (pre ++ (cast.text ++ letter :: post)).take (pre.length + cast.text.length) =
      pre ++ cast.text := by
    rw [List.take_length_add_append, List.take_left]
  have htake' : (pre ++ (cast.text ++ letter :: post)).take (pre.length + cast.text.length + 1) =
      pre ++ (cast.text ++ [letter]) := by
    rw [Nat.add_assoc, List.take_length_add_append, List.take_length_add_append]
    rfl
  have hne : ∀ c ∈ ascii "hljz", c ∉ pre ∧ c ≠ letter := by
    intro c hc
    obtain ⟨h64, hF, -⟩ := modifier_char hc
    refine ⟨fun hmem => absurd (hpre c hmem) (Nat.not_lt.mpr h64), ?_⟩
    rintro rfl
    rw [hF] at hletter
    cases hletter
  have hfound : ∀ c ∈ ascii "hljz", decide (c ∈ pre ++ (cast.text ++ [letter])) =
      decide (c ∈ cast.text) := by
    intro c hc
    obtain ⟨hmem, hletter⟩ := hne c hc
    simp [hmem, hletter]
  have hdouble : ∀ c ∈ ascii "hljz", (pre ++ cast.text).dropWhile (· != c) =
      cast.text.dropWhile (· != c) := by
    intro c hc
    apply List.dropWhile_append_of_pos
    intro b hb
    simpa using fun h : b = c => (hne c hc).1 (h ▸ hb)
  unfold castOf
  simp only [htake, htake']
  rw [hfound _ (by decide), hfound _ (by decide), hfound _ (by decide), hfound _ (by decide),
    hdouble _ (by decide), hdouble _ (by decide)]
  cases cast <;> rfl

/-! ## The whole directive -/

namespace Directive

/-- The arguments behind the ones of the directive. -/
def argsRest (d : Directive) (args : VaList) : VaList :=
  d.precison.elim (d.widthRest args) (Field.rest (d.widthRest args))

theorem text_append {post : List UInt8} : d.text ++ post =
    ['%'.toUInt8] ++ (d.flags ++ (d.widthText ++ (d.precisonText ++
      (d.cast.text ++ d.letter :: post)))) := by
  simp [text, body]

theorem cast_head_ge {post : List UInt8} :
    64 ≤ ((d.cast.text ++ d.letter :: post).getD 0 0).toNat := by
  cases d.cast with
  | none => exact letter_char d.letter_isF
  | hh | h | l | ll | j | z => exact Nat.le_of_ble_eq_true rfl

/-- A byte of the flags, the width or the precision: neither a letter nor a '%'. -/
def Plain (b : UInt8) : Prop := b.toNat < 64 ∧ b ≠ '%'.toUInt8

theorem plain_of_isDigit {b : UInt8} (h : isDigit b) : Plain b := by
  have hrange := isDigit_range h
  refine ⟨by omega, ?_⟩
  rintro rfl
  exact absurd hrange (by decide)

theorem plain_flags (d : Directive) : ∀ b ∈ d.flags, Plain b := fun b hb =>
  (flag_char (d.flags_mem b hb)).2.2.2.2

theorem plain_star : ∀ b ∈ Field.star.text, Plain b :=
  List.forall_mem_cons.mpr ⟨⟨by decide, by decide⟩, List.forall_mem_nil _⟩

theorem plain_widthText (d : Directive) : ∀ b ∈ d.widthText, Plain b := by
  unfold widthText
  cases hw : d.width with
  | none => exact fun b hb => nomatch hb
  | some field =>
    cases field with
    | digits l => exact fun b hb => plain_of_isDigit ((d.width_digits l hw).2.2.1 b hb)
    | star => exact plain_star

theorem plain_precisonText (d : Directive) : ∀ b ∈ d.precisonText, Plain b := by
  unfold precisonText
  cases hp : d.precison with
  | none => exact fun b hb => nomatch hb
  | some field =>
    refine List.forall_mem_cons.mpr ⟨⟨by decide, by decide⟩, ?_⟩
    cases field with
    | digits l => exact fun b hb => plain_of_isDigit ((d.precison_digits l hp).1 b hb)
    | star => exact plain_star

/-- The text in front of the length modifier. -/
theorem plain_text (d : Directive) :
    ∀ b ∈ d.flags ++ d.widthText ++ d.precisonText, Plain b := by
  intro b hb
  rcases List.mem_append.mp hb with hb | hb
  · rcases List.mem_append.mp hb with hb | hb
    · exact d.plain_flags b hb
    · exact d.plain_widthText b hb
  · exact d.plain_precisonText b hb

theorem precison_head_not_digit {post : List UInt8} :
    ¬ isDigit ((d.precisonText ++ (d.cast.text ++ d.letter :: post)).getD 0 0) := by
  unfold precisonText
  cases d.precison with
  | none =>
    have hge : 64 ≤ ((d.cast.text ++ d.letter :: post).getD 0 0).toNat := cast_head_ge
    exact fun h => absurd (hge.trans (isDigit_range h).2) (by decide)
  | some field => exact Bool.false_ne_true

theorem length_body (d : Directive) : d.body.length =
    d.flags.length + d.widthText.length + d.precisonText.length + d.cast.text.length := by
  simp [body, Nat.add_assoc]

theorem body_lt_text {post : List UInt8} : d.body.length + 1 ≤ (d.text ++ post).length := by
  rw [text, List.cons_append, List.length_cons, List.length_append, List.length_append]
  omega

theorem dot_not_mem (d : Directive) : '.'.toUInt8 ∉ ['%'.toUInt8] ++ d.flags := by
  intro hmem
  rcases List.mem_append.mp hmem with hmem | hmem
  · exact absurd hmem (by decide)
  · exact absurd (d.flags_mem _ hmem) (by decide)

/-- Behind the precision there is nothing but the length modifier. -/
theorem modifier_mem {post : List UInt8} {k : Nat}
    (hk : 1 + d.flags.length + d.widthText.length + d.precisonText.length ≤ k)
    (hk' : k < d.body.length + 1) : (d.text ++ post).getD k 0 ∈ ascii "hljz" := by
  have hpre : (['%'.toUInt8] ++ d.flags ++ d.widthText ++ d.precisonText).length =
      1 + d.flags.length + d.widthText.length + d.precisonText.length := by
    simp only [List.length_append, List.length_singleton]
  have hsplit : d.text ++ post = ['%'.toUInt8] ++ d.flags ++ d.widthText ++ d.precisonText ++
      (d.cast.text ++ d.letter :: post) := by
    rw [d.text_append]
    simp
  have hlen := d.length_body
  rw [hsplit, List.getD_append_right _ _ _ _ (by omega), List.getD_append _ _ _ _ (by omega),
    List.getD_eq_getElem _ _ (by omega)]
  exact modifier_text _ _ (List.getElem_mem _)

end Directive

/-- `set_flags` reads a directive: every flag, the width, the precision, and as many arguments. -/
theorem setFlags_text {post : List UInt8} {p : Nat} (h : TextAt m p (d.text ++ post))
    (hmin : d.width = some .star → vaInt args ≠ -2 ^ 31) :
    ∃ data, setFlags m p (d.body.length + 1) args = .ok (data, d.argsRest args) ∧
      (∀ c, c ∈ data.flags ↔ c ∈ d.flags) ∧
      data = { TData.init with
        flags := data.flags
        width := d.width.elim 0 (Field.width args)
        precison := d.precison.elim (-1) (Field.precison (d.widthRest args)) } := by
  have ht : d.text ++ post = _ := d.text_append
  have hlen := d.length_body
  have hsize : _ ≤ (d.text ++ post).length := d.body_lt_text
  have hmodifier : ∀ k, _ ≤ k → k < _ → (d.text ++ post).getD k 0 ∈ _ := fun k => d.modifier_mem
  generalize d.text ++ post = t at h ht hsize hmodifier
  -- the flags
  obtain ⟨s₁, hruns₁, hok₁, hs₁⟩ := runs_flags (s := { i := 1, j := 0, data := .init, args })
    h ht rfl d.flags_mem (show 1 + d.flags.length ≤ d.body.length + 1 by omega)
    ⟨rfl, List.nodup_nil, fun c hc => nomatch hc⟩
  have hi₁ : s₁.i = 1 + d.flags.length := hs₁.i
  have hargs₁ : s₁.args = args := hs₁.args
  -- the width
  have hpre₁ : t = ['%'.toUInt8] ++ d.flags ++ (d.widthText ++ (d.precisonText ++
      (d.cast.text ++ d.letter :: post))) := by
    rw [ht, List.append_assoc]
  have hruns₂ : Runs m p (d.body.length + 1) s₁ (s₁.width d.width d.widthText.length) :=
    runs_width h hpre₁ (by simp [hi₁, Nat.add_comm]) (by omega) hok₁.j_lt d.dot_not_mem
      Directive.precison_head_not_digit (by rw [hargs₁]; exact hmin) (by rw [hs₁.data]; rfl)
  -- the precision
  have hpre₂ : t = ['%'.toUInt8] ++ d.flags ++ d.widthText ++ (d.precisonText ++
      (d.cast.text ++ d.letter :: post)) := by
    rw [hpre₁, List.append_assoc _ d.widthText]
  have hlen₂ : s₁.i + d.widthText.length + d.precisonText.length ≤ d.body.length + 1 := by omega
  obtain ⟨skip, hskip, hruns₃⟩ := runs_precison (s := s₁.width d.width d.widthText.length) h hpre₂
    (by simp only [FlagsRound.width, List.length_append, List.length_singleton, hi₁]) hlen₂
    hok₁.j_lt Directive.cast_head_ge (by simp only [FlagsRound.width]; rw [hs₁.data]; rfl)
  -- the length modifier
  have hskipped : ∀ k, s₁.i + d.widthText.length + (d.precisonText.length + skip) ≤ k →
      k < d.body.length + 1 → t.getD k 0 ∈ ascii "hljz" :=
    fun k hk => hmodifier k (by omega)
  obtain ⟨fuel, henough, hfrom⟩ := ((hruns₁.trans hruns₂).trans hruns₃) (d.body.length + 1 + 1)
    ⟨Nat.succ_pos _, by simp only; omega⟩
  obtain ⟨s', hs', hdata, hargs⟩ := setFlagsFrom_skip h hsize hskipped henough
  refine ⟨s'.data, ?_, fun c => ?_, ?_⟩
  · rw [setFlags, hfrom, hs', ok_bind, hargs]
    simp only [FlagsRound.precison, FlagsRound.width, hargs₁]
    rfl
  · rw [hdata]
    exact (hs₁.mem c).trans (by simp [TData.init])
  · rw [hdata]
    simp only [FlagsRound.precison, FlagsRound.width, hargs₁]
    rw [hs₁.data]
    rfl

/-- `set_flags` and `set_cast` read a directive. -/
theorem setData_text (args : VaList) {post : List UInt8} {p : Nat} (h : TextAt m p (d.text ++ post))
    (hmin : d.width = some .star → vaInt args ≠ -2 ^ 31) :
    ∃ data, setData m p (d.body.length + 1) args = .ok (data, d.argsRest args) ∧
      (∀ c, c ∈ data.flags ↔ c ∈ d.flags) ∧
      data = { TData.init with
        flags := data.flags
        width := d.width.elim 0 (Field.width args)
        precison := d.precison.elim (-1) (Field.precison (d.widthRest args))
        cast := d.cast } := by
  obtain ⟨data, hflags, hmem, hdata⟩ := setFlags_text h hmin
  have hcast : castOf (d.text ++ post) (d.body.length + 1) = d.cast := by
    have hpre : ∀ b ∈ '%'.toUInt8 :: (d.flags ++ d.widthText ++ d.precisonText),
        b.toNat < 64 :=
      List.forall_mem_cons.mpr ⟨by decide, fun b hb => (d.plain_text b hb).1⟩
    have hlen : d.body.length + 1 =
        ('%'.toUInt8 :: (d.flags ++ d.widthText ++ d.precisonText)).length +
          d.cast.text.length := by
      simp only [Directive.body, List.length_append, List.length_cons]
      omega
    rw [hlen, show d.text ++ post = '%'.toUInt8 :: (d.flags ++ d.widthText ++ d.precisonText) ++
      (d.cast.text ++ d.letter :: post) by rw [d.text_append]; simp]
    exact castOf_text hpre d.letter_isF
  refine ⟨{ data with cast := d.cast }, ?_, hmem, ?_⟩
  · rw [setData, hflags, ok_bind]
    simp only
    rw [setCast_ok h d.body_lt_text, hcast]
    rfl
  · rw [hdata]

theorem text_cons {post : List UInt8} :
    d.text ++ post = '%'.toUInt8 :: (d.body ++ d.letter :: post) := by
  rw [Directive.text, List.cons_append, List.append_assoc]
  rfl

/-- Nothing in a directive ends the scan of `ft_printf`. -/
theorem inDirective_body : ∀ b ∈ d.body, InDirective b := by
  intro b hb
  rcases List.mem_append.mp hb with hb | hb
  · obtain ⟨hlt, hne⟩ := d.plain_text b hb
    refine ⟨Bool.eq_false_iff.mpr fun hF => ?_, hne⟩
    exact absurd (letter_char hF) (Nat.not_le.mpr hlt)
  · obtain ⟨-, hF, -, -, -, hne, -⟩ := modifier_char (modifier_text _ b hb)
    exact ⟨hF, hne⟩

theorem not_inDirective_letter : ¬ InDirective d.letter := by
  intro h
  rw [InDirective, d.letter_isF] at h
  exact absurd h.1 (by decide)

/-- `ft_printf` hands on the whole directive, up to its letter. -/
theorem moveIFrom_text {post : List UInt8} {p : Nat} (h : TextAt m p (d.text ++ post))
    (hlen : d.body.length + 1 < 2 ^ 31) :
    moveIFrom m p (m.size + 1) 0 false = .ok (d.body.length + 1) := by
  rw [text_cons] at h
  rw [moveIFrom_percent h, directiveBody_append inDirective_body not_inDirective_letter,
    if_pos hlen]

/-- `set_flags` and `set_cast` find what a directive means in its text, unless it is a '*' width
with a negative argument and without the flag '-'. -/
theorem setData_meant_iff (d : Directive) (pre post : List UInt8) (args : VaList)
    (h : ∀ b ∈ pre ++ (d.text ++ post), b ≠ 0)
    (hmin : d.width = some .star → vaInt args ≠ -2 ^ 31) :
    (∃ data rest, setData (formatOf (pre ++ (d.text ++ post))) pre.length (d.body.length + 1) args =
      .ok (data, rest) ∧ d.Meant args data) ↔
      ¬ (d.negativeWidth args ∧ '-'.toUInt8 ∉ d.flags) := by
  have htext : TextAt (formatOf (pre ++ (d.text ++ post))) pre.length (d.text ++ post) := by
    have := (textAt_formatOf h).drop pre.length (by simp)
    rwa [Nat.zero_add, List.drop_left] at this
  obtain ⟨data, hok, hmem, hdata⟩ := setData_text args htext hmin
  rw [hok]
  constructor
  · rintro ⟨data', rest, heq, hmeant⟩ ⟨hneg, hminus⟩
    cases heq
    exact hminus ((hmem _).mp ((hmeant.flags _).mpr (.inr ⟨hneg, rfl⟩)))
  · intro hno
    refine ⟨data, _, rfl, ?_, ?_, ?_, ?_⟩
    · intro c
      rw [hmem]
      refine ⟨.inl, ?_⟩
      rintro (hc | ⟨hneg, rfl⟩)
      · exact hc
      · by_contra hminus
        exact hno ⟨hneg, hminus⟩
    · rw [hdata]
    · rw [hdata]
    · rw [hdata]

/-- The directive "%*.3ld", or "%-*.3ld". -/
def starDirective (minus : Bool) : Directive where
  flags := if minus then ascii "-" else []
  width := some .star
  precison := some (.digits (ascii "3"))
  cast := .l
  letter := 'd'.toUInt8
  flags_mem := by cases minus <;> decide +kernel
  width_digits := by rintro l ⟨⟩
  precison_digits := by
    rintro l ⟨⟩
    decide +kernel
  letter_isF := rfl

theorem setData_meant_iff_minus :
    ∃ data rest, setData (formatOf (ascii "a" ++ ((starDirective true).text ++ ascii "z")))
      (ascii "a").length ((starDirective true).body.length + 1) (fun _ => -12) = .ok (data, rest) ∧
      (starDirective true).Meant (fun _ => -12) data :=
  (setData_meant_iff (starDirective true) (ascii "a") (ascii "z") (fun _ => -12) (by decide +kernel)
    (fun _ => by decide)).mpr (by decide)

/-- A '*' width of -12 does not set the flag '-'. -/
theorem setData_star : ¬ ∀ (d : Directive) (pre post : List UInt8) (args : VaList),
    (∀ b ∈ pre ++ (d.text ++ post), b ≠ 0) →
    (d.width = some .star → vaInt args ≠ -2 ^ 31) →
    ∃ data rest, setData (formatOf (pre ++ (d.text ++ post))) pre.length (d.body.length + 1) args =
      .ok (data, rest) ∧ d.Meant args data := by
  intro h
  have hne : ∀ b ∈ (starDirective false).text ++ [], b ≠ 0 := by decide +kernel
  have hmin : vaInt (fun _ => -12) ≠ -2 ^ 31 := by decide
  obtain ⟨data, rest, hok, hmeant⟩ := h (starDirective false) [] [] (fun _ => -12) hne fun _ => hmin
  obtain ⟨data', hok', hmem, -⟩ := setData_text _ (textAt_formatOf hne) fun _ => hmin
  rw [List.nil_append, List.length_nil, hok'] at hok
  cases hok
  have hminus := (hmem _).mp ((hmeant.flags '-'.toUInt8).mpr (.inr ⟨by decide, rfl⟩))
  exact absurd hminus (by decide)

end NmOtool
