import NmOtool.Printf.Parse

/-!
# ft_printf: a directive as a text

What the readers of the format find in a string: `TextAt m p t` says that the string at `p` is `t`.
Each reader is a function of `t` that does not look behind its NUL, and a round of `set_flags` is one
of six steps, by the character it is at.
-/

namespace NmOtool

open MachO Checked

/-! ## Texts -/

/-- The string at `p` is `t`: the bytes, none of them a NUL, and the NUL behind them. -/
structure TextAt (m : Buffer) (p : Nat) (t : List UInt8) : Prop where
  load : ∀ k ≤ t.length, m.load (p + k) = .ok (t.getD k 0)
  ne_zero : ∀ b ∈ t, b ≠ 0

variable {m : Buffer} {p size fuel : Nat} {t u : List UInt8} {b c : UInt8} {args : VaList}

namespace TextAt

theorem head (h : TextAt m p t) : m.load p = .ok (t.getD 0 0) := h.load 0 (Nat.zero_le _)

theorem tail (h : TextAt m p (b :: t)) : TextAt m (p + 1) t where
  load k hk := by
    have := h.load (k + 1) (Nat.succ_le_succ hk)
    rw [List.getD_cons_succ] at this
    rwa [Nat.add_right_comm, Nat.add_assoc]
  ne_zero c hc := h.ne_zero c (List.mem_cons_of_mem _ hc)

theorem drop (h : TextAt m p t) (i : Nat) (hi : i ≤ t.length) : TextAt m (p + i) (t.drop i) where
  load k hk := by
    rw [List.length_drop] at hk
    rw [Nat.add_assoc, h.load (i + k) (by omega)]
    simp [List.getD_eq_getElem?_getD]
  ne_zero c hc := h.ne_zero c (List.mem_of_mem_drop hc)

theorem size_lt (h : TextAt m p t) : p + t.length < m.size := by
  have hload := h.load t.length (Nat.le_refl _)
  unfold Buffer.load at hload
  split at hload
  · assumption
  · cases hload

end TextAt

/-- A format string. -/
def formatOf (s : List UInt8) : Buffer := .ofBytes (s.length + 1) s

theorem textAt_formatOf (h : ∀ b ∈ t, b ≠ 0) : TextAt (formatOf t) 0 t where
  load k hk := by
    rw [Nat.zero_add]
    exact Buffer.load_ok (Nat.lt_succ_of_le hk)
  ne_zero := h

/-! ## What is read of a text -/

theorem ftStrnchr_ok (h : TextAt m p t) (hc : c ≠ 0) (hs : size ≤ t.length) :
    ftStrnchr m c size p = .ok (decide (c ∈ t.take (size + 1))) := by
  induction size generalizing p t with
  | zero =>
    rw [ftStrnchr, h.head, ok_bind]
    cases t with
    | nil => simpa using hc
    | cons b t => simp [Bool.beq_eq_decide_eq]
  | succ size ih =>
    cases t with
    | nil => exact absurd hs (Nat.not_succ_le_zero size)
    | cons b t =>
      rw [ftStrnchr, h.head, ok_bind, List.getD_cons_zero]
      by_cases he : c = b
      · rw [if_neg (by simp [he])]
        simp [he]
      · rw [if_pos ⟨he, h.ne_zero b List.mem_cons_self⟩, ih h.tail (Nat.le_of_succ_le_succ hs)]
        simp [he]

theorem ftStrnchrSkip_ok (h : TextAt m p t) (hs : size ≤ t.length) :
    ∃ k ≤ size, ftStrnchrSkip m c size p = .ok (size - k, p + k) ∧
      (t.drop k).take (size - k) = (t.take size).dropWhile (· != c) := by
  induction size generalizing p t with
  | zero =>
    refine ⟨0, Nat.le_refl _, ?_, rfl⟩
    rw [ftStrnchrSkip, h.head]
    rfl
  | succ size ih =>
    cases t with
    | nil => exact absurd hs (Nat.not_succ_le_zero size)
    | cons b t =>
      rw [ftStrnchrSkip, h.head, ok_bind, List.getD_cons_zero]
      by_cases he : c = b
      · rw [if_neg (by simp [he])]
        exact ⟨0, Nat.zero_le _, rfl, by simp [he]⟩
      · obtain ⟨k, hk, hskip, hdrop⟩ := ih h.tail (Nat.le_of_succ_le_succ hs)
        rw [if_pos ⟨he, h.ne_zero b List.mem_cons_self⟩, hskip]
        refine ⟨k + 1, Nat.succ_le_succ hk, ?_, ?_⟩
        · rw [Nat.add_sub_add_right, Nat.add_assoc, Nat.add_comm 1 k]
        · rw [Nat.add_sub_add_right, List.drop_succ_cons, hdrop, List.take_succ_cons,
            List.dropWhile_cons_of_pos (by simpa using Ne.symm he)]

theorem ftStrnchrCount_ok (h : TextAt m p t) (hs : size ≤ t.length) :
    ftStrnchrCount m c size p = .ok ((t.take size).takeWhile (· == c)).length := by
  induction size generalizing p t with
  | zero =>
    rw [ftStrnchrCount, h.head]
    rfl
  | succ size ih =>
    cases t with
    | nil => exact absurd hs (Nat.not_succ_le_zero size)
    | cons b t =>
      rw [ftStrnchrCount, h.head, ok_bind, List.getD_cons_zero, List.take_succ_cons]
      by_cases he : c = b
      · rw [if_pos ⟨he, h.ne_zero b List.mem_cons_self⟩, ih h.tail (Nat.le_of_succ_le_succ hs),
          List.takeWhile_cons_of_pos (by simp [he])]
        rfl
      · rw [if_neg fun e => he e.1, List.takeWhile_cons_of_neg (by simpa using Ne.symm he)]
        rfl

/-- `ft_strnchr_double` looks at the first run of the byte: whether its length is even. -/
theorem ftStrnchrDouble_ok (h : TextAt m p t) (hs : size ≤ t.length) :
    ftStrnchrDouble m c size p = .ok
      ((((t.take size).dropWhile (· != c)).takeWhile (· == c)).length % 2 == 0) := by
  obtain ⟨k, hk, hskip, hdrop⟩ := ftStrnchrSkip_ok (c := c) h hs
  have hle : size - k ≤ (t.drop k).length := by
    rw [List.length_drop]
    omega
  rw [ftStrnchrDouble, hskip, ok_bind]
  simp only
  rw [ftStrnchrCount_ok (h.drop k (by omega)) hle, hdrop]
  rfl

theorem nbDigitFrom_ok (h : TextAt m p t) (hf : t.length < fuel) :
    nbDigitFrom m fuel p = .ok (t.takeWhile isDigit).length := by
  induction fuel generalizing p t with
  | zero => exact absurd hf (Nat.not_lt_zero _)
  | succ fuel ih =>
    rw [nbDigitFrom, h.head, ok_bind]
    cases t with
    | nil => rfl
    | cons b t =>
      rw [List.getD_cons_zero]
      by_cases hd : isDigit b = true
      · rw [if_pos hd, ih h.tail (Nat.lt_of_succ_lt_succ hf), ok_bind,
          List.takeWhile_cons_of_pos hd]
        rfl
      · rw [if_neg hd, List.takeWhile_cons_of_neg hd]
        rfl

theorem nbDigit_ok (h : TextAt m p t) : nbDigit m p = .ok (t.takeWhile isDigit).length :=
  nbDigitFrom_ok h (by have := h.size_lt; omega)

/-- `ft_atoi` on a text. -/
def atoi (t : List UInt8) : Int :=
  let t := t.dropWhile isSpace
  let signed := t.getD 0 0 == '-'.toUInt8 || t.getD 0 0 == '+'.toUInt8
  let negOrPos : Int := if t.getD 0 0 == '-'.toUInt8 then -1 else 1
  let result := atoiDigits (if signed then t.drop 1 else t) 0
  if result < 0 ∧ negOrPos = 1 then -1
  else if result < 0 ∧ negOrPos = -1 then 0
  else int32 (result * negOrPos)
where
  /-- The value of the digits behind `result`. -/
  atoiDigits : List UInt8 → Int → Int
    | [], result => result
    | c :: t, result =>
      if isDigit c && 0 ≤ result then
        atoiDigits t (int64 (result * 10 + (c.toNat - '0'.toNat)))
      else result

theorem ftAtoiSkip_ok (fuel : Nat) (h : TextAt m p t) (hf : t.length < fuel) :
    ∃ k ≤ t.length, ftAtoiSkip m fuel p = .ok (p + k) ∧ t.drop k = t.dropWhile isSpace := by
  induction fuel generalizing p t with
  | zero => exact absurd hf (Nat.not_lt_zero _)
  | succ fuel ih =>
    rw [ftAtoiSkip, h.head, ok_bind]
    cases t with
    | nil => exact ⟨0, Nat.le_refl _, rfl, rfl⟩
    | cons b t =>
      rw [List.getD_cons_zero]
      by_cases hb : isSpace b = true
      · obtain ⟨k, hk, hskip, hdrop⟩ := ih h.tail (Nat.lt_of_succ_lt_succ hf)
        rw [if_pos hb, hskip, List.dropWhile_cons_of_pos hb]
        exact ⟨k + 1, Nat.succ_le_succ hk, by rw [Nat.add_assoc, Nat.add_comm 1 k], hdrop⟩
      · rw [if_neg hb, List.dropWhile_cons_of_neg hb]
        exact ⟨0, Nat.zero_le _, rfl, rfl⟩

theorem ftAtoiDigits_ok {result : Int} (h : TextAt m p t) (hf : t.length < fuel) :
    ftAtoiDigits m fuel p result = .ok (atoi.atoiDigits t result) := by
  induction fuel generalizing p t result with
  | zero => exact absurd hf (Nat.not_lt_zero _)
  | succ fuel ih =>
    rw [ftAtoiDigits, h.head, ok_bind]
    cases t with
    | nil => rfl
    | cons b t =>
      rw [List.getD_cons_zero, atoi.atoiDigits]
      by_cases hd : (isDigit b && decide (0 ≤ result)) = true
      · rw [if_pos hd, if_pos hd, ih h.tail (Nat.lt_of_succ_lt_succ hf)]
      · rw [if_neg hd, if_neg hd]
        rfl

theorem ftAtoi_ok (h : TextAt m p t) : ftAtoi m p = .ok (atoi t) := by
  have hsize := h.size_lt
  obtain ⟨k, hk, hskip, hdrop⟩ := ftAtoiSkip_ok (m.size + 1) h (by omega)
  have hu := h.drop k hk
  have hlen : (t.drop k).length ≤ t.length := by
    rw [List.length_drop]
    omega
  rw [ftAtoi, hskip, ok_bind, hu.head, ok_bind, atoi, ← hdrop]
  generalize t.drop k = u at hu hlen
  generalize hq : p + k = q at hu
  -- behind the sign, if there is one, the digits
  have hdigits : ftAtoiDigits m (m.size + 1)
      (if u.getD 0 0 == '-'.toUInt8 || u.getD 0 0 == '+'.toUInt8 then q + 1 else q) 0 =
      .ok (atoi.atoiDigits
        (if u.getD 0 0 == '-'.toUInt8 || u.getD 0 0 == '+'.toUInt8 then u.drop 1 else u) 0) := by
    by_cases hs : (u.getD 0 0 == '-'.toUInt8 || u.getD 0 0 == '+'.toUInt8) = true
    · rw [if_pos hs, if_pos hs]
      cases u with
      | nil => exact absurd hs (by decide)
      | cons b u =>
        rw [List.length_cons] at hlen
        exact ftAtoiDigits_ok hu.tail (by change u.length < _; omega)
    · rw [if_neg hs, if_neg hs]
      exact ftAtoiDigits_ok hu (by omega)
  simp only
  rw [hdigits, ok_bind]
  split_ifs <;> rfl

/-! ## `set_cast` on a text -/

/-- The length modifier of a text: the first of the letters 'h', 'l', 'j', 'z', in this order, that
stands in it; twice where its first run is of even length. -/
def castOf (t : List UInt8) (size : Nat) : TCast :=
  let found (c : Char) : Bool := c.toUInt8 ∈ t.take (size + 1)
  let double (c : Char) : Bool :=
    (((t.take size).dropWhile (· != c.toUInt8)).takeWhile (· == c.toUInt8)).length % 2 == 0
  if found 'h' then if double 'h' then .hh else .h
  else if found 'l' then if double 'l' then .ll else .l
  else if found 'j' then .j
  else if found 'z' then .z
  else .none

theorem setCast_ok {data : TData} (h : TextAt m p t) (hs : size ≤ t.length) :
    setCast data m p size = .ok { data with cast := castOf t size } := by
  unfold setCast castOf
  rw [ftStrnchr_ok h (by decide) hs, ftStrnchr_ok h (by decide) hs, ftStrnchr_ok h (by decide) hs,
    ftStrnchr_ok h (by decide) hs, ftStrnchrDouble_ok h hs, ftStrnchrDouble_ok h hs]
  simp only [ok_bind]
  split_ifs <;> rfl

/-! ## `set_flags` on a text -/

variable {f : Nat} {s : FlagsRound}

/-- The first digit of a width: not a zero, and behind no '.'. -/
def WidthDigit (t : List UInt8) (i : Nat) (c : UInt8) : Prop :=
  '.'.toUInt8 ∉ t.take (i + 1) ∧ '0'.toUInt8 < c ∧ c ≤ '9'.toUInt8

theorem load_of_drop (h : TextAt m f t) {i : Nat} (hu : t.drop i = c :: u) :
    m.load (f + i) = .ok c ∧ i < t.length ∧ TextAt m (f + i + 1) u := by
  have hlt : i < t.length := by
    by_contra hge
    rw [List.drop_of_length_le (by omega)] at hu
    cases hu
  have hdrop := h.drop i (by omega)
  rw [hu] at hdrop
  exact ⟨hdrop.head, hlt, hdrop.tail⟩

/-- The round gets past its first tests unless it is at a flag '0' or a width. -/
theorem setFlagsRound_else (h : TextAt m f t) (hu : t.drop s.i = c :: u) (h0 : c ≠ '0'.toUInt8)
    (hw : ¬ WidthDigit t s.i c) :
    setFlagsRound m f s =
      if c = '*'.toUInt8 ∨ c = '.'.toUInt8 ∧ u.getD 0 0 = '*'.toUInt8 then flagsStar m f s
      else setZeroFlag m f s := by
  obtain ⟨hload, hlt, htail⟩ := load_of_drop h hu
  have hcond : ¬ (!decide ('.'.toUInt8 ∈ t.take (s.i + 1)) && decide ('0'.toUInt8 < c) &&
      decide (c ≤ '9'.toUInt8)) = true := by
    intro e
    simp only [Bool.and_eq_true, Bool.not_eq_true', decide_eq_false_iff_not, decide_eq_true_eq] at e
    exact hw ⟨e.1.1, e.1.2, e.2⟩
  rw [setFlagsRound, hload, ok_bind, if_neg h0, ftStrnchr_ok h (by decide) (by omega), ok_bind,
    if_neg hcond]
  by_cases hs : c = '*'.toUInt8
  · rw [if_pos hs, if_pos (.inl hs)]
    rfl
  · rw [if_neg hs]
    by_cases hd : c = '.'.toUInt8
    · rw [if_pos hd, htail.head, ok_bind, pure_eq, ok_bind]
      beta_reduce
      by_cases hstar : u.getD 0 0 = '*'.toUInt8
      · rw [if_pos (beq_iff_eq.mpr hstar), if_pos (.inr ⟨hd, hstar⟩)]
      · rw [if_neg fun e => hstar (beq_iff_eq.mp e), if_neg fun e => e.elim hs fun e => hstar e.2]
    · rw [if_neg hd, if_neg fun e => e.elim hs fun e => hd e.1]
      rfl

/-- A round at a character that is read alone: a flag, or one that is skipped. -/
theorem setFlagsRound_one (h : TextAt m f t) (hu : t.drop s.i = c :: u) (hw : ¬ WidthDigit t s.i c)
    (hs : c ≠ '*'.toUInt8) (hd : c ≠ '.'.toUInt8) :
    setFlagsRound m f s =
      .ok { if c ∈ ascii "0#-+ " then s.flag c else s with i := s.i + 1 } := by
  obtain ⟨hload, -, -⟩ := load_of_drop h hu
  by_cases h0 : c = '0'.toUInt8
  · subst h0
    rw [setFlagsRound, hload, ok_bind, if_pos rfl, if_pos (by decide)]
    simp only [FlagsRound.flag_i, pure_eq]
  · rw [setFlagsRound_else h hu h0 hw, if_neg (by simp [hs, hd]), setZeroFlag, hload, ok_bind,
      if_neg hd]
    have hflag : ftStrchr (ascii "#-+ ") c = true ↔ c ∈ ascii "0#-+ " := by
      have hne := h.ne_zero c (List.mem_of_mem_drop (hu ▸ List.mem_cons_self))
      rw [ftStrchr_eq hne, decide_eq_true_eq,
        show ascii "0#-+ " = '0'.toUInt8 :: ascii "#-+ " from rfl, List.mem_cons]
      simp [h0]
    by_cases hm : c ∈ ascii "0#-+ "
    · rw [if_pos hm, if_pos (hflag.mpr hm)]
      simp only [FlagsRound.flag_i, pure_eq]
    · rw [if_neg hm, if_neg fun e => hm (hflag.mp e)]
      rfl

theorem setFlagsRound_width (h : TextAt m f t) (hu : t.drop s.i = c :: u)
    (hw : WidthDigit t s.i c) :
    setFlagsRound m f s = .ok { s with
      data := { s.data with width := atoi (c :: u) }
      i := s.i + ((c :: u).takeWhile isDigit).length } := by
  obtain ⟨hload, hlt, htail⟩ := load_of_drop h hu
  obtain ⟨hdot, hlow, hhigh⟩ := hw
  have hne : c ≠ '0'.toUInt8 := fun e => absurd hlow (by simp [e])
  have htext : TextAt m (f + s.i) (c :: u) := hu ▸ h.drop s.i (by omega)
  rw [setFlagsRound, hload, ok_bind, if_neg hne, ftStrnchr_ok h (by decide) (by omega), ok_bind,
    if_pos (by simp [hdot, hlow, hhigh]), ftAtoi_ok htext, ok_bind, nbDigit_ok htext]
  rfl

theorem setFlagsRound_star (h : TextAt m f t) (hu : t.drop s.i = '*'.toUInt8 :: u) :
    setFlagsRound m f s = .ok { s with
      data := { s.data with
        width := if vaInt s.args < 0 then int32 (vaInt s.args * -1) else vaInt s.args }
      args := s.args.rest
      i := s.i + 1 } := by
  obtain ⟨hload, -, -⟩ := load_of_drop h hu
  have hw : ¬ WidthDigit t s.i '*'.toUInt8 := fun hw => absurd hw.2.1 (by decide)
  rw [setFlagsRound_else h hu (by decide) hw, if_pos (.inl rfl), flagsStar, hload, ok_bind,
    if_pos rfl]
  rfl

theorem setFlagsRound_dotStar (h : TextAt m f t)
    (hu : t.drop s.i = '.'.toUInt8 :: '*'.toUInt8 :: u) :
    setFlagsRound m f s = .ok { s with
      data := { s.data with precison := if vaInt s.args < 0 then -1 else vaInt s.args }
      args := s.args.rest
      i := s.i + 2 } := by
  obtain ⟨hload, -, -⟩ := load_of_drop h hu
  have hw : ¬ WidthDigit t s.i '.'.toUInt8 := fun hw => absurd hw.2.1 (by decide)
  rw [setFlagsRound_else h hu (by decide) hw, if_pos (.inr ⟨rfl, rfl⟩), flagsStar, hload, ok_bind,
    if_neg (by decide)]
  rfl

theorem setFlagsRound_dot (h : TextAt m f t) (hu : t.drop s.i = '.'.toUInt8 :: u)
    (hs : u.getD 0 0 ≠ '*'.toUInt8) :
    setFlagsRound m f s = .ok { s with
      data := { s.data with precison := atoi u }
      i := s.i + (u.takeWhile isDigit).length + 2 } := by
  obtain ⟨hload, -, htail⟩ := load_of_drop h hu
  have hw : ¬ WidthDigit t s.i '.'.toUInt8 := fun hw => absurd hw.2.1 (by decide)
  have hstar : ¬ ('.'.toUInt8 = '*'.toUInt8 ∨ '.'.toUInt8 = '.'.toUInt8 ∧
      u.getD 0 0 = '*'.toUInt8) := by
    rintro (e | ⟨-, e⟩)
    · exact absurd e (by decide)
    · exact hs e
  rw [setFlagsRound_else h hu (by decide) hw, if_neg hstar, setZeroFlag, hload, ok_bind, if_pos rfl,
    Nat.add_right_comm, ftAtoi_ok htail, ok_bind, nbDigit_ok htail]
  rfl

/-- Every round moves on. -/
theorem setFlagsRound_ok (h : TextAt m f t) (hi : s.i < t.length) :
    ∃ s', setFlagsRound m f s = .ok s' ∧ s.i < s'.i := by
  have hu : t.drop s.i = t[s.i] :: t.drop (s.i + 1) := List.drop_eq_getElem_cons hi
  generalize t[s.i] = c at hu
  generalize t.drop (s.i + 1) = u at hu
  by_cases hw : WidthDigit t s.i c
  · refine ⟨_, setFlagsRound_width h hu hw, ?_⟩
    have hdigit : isDigit c = true := by
      have h1 := UInt8.le_of_lt hw.2.1
      simp [isDigit, h1, hw.2.2]
    simp only
    rw [List.takeWhile_cons_of_pos hdigit, List.length_cons]
    omega
  by_cases hs : c = '*'.toUInt8
  · subst hs
    exact ⟨_, setFlagsRound_star h hu, Nat.lt_succ_self _⟩
  by_cases hd : c = '.'.toUInt8
  · subst hd
    cases u with
    | nil => exact ⟨_, setFlagsRound_dot h hu (by decide), by simp only; omega⟩
    | cons d u =>
      by_cases hstar : d = '*'.toUInt8
      · subst hstar
        exact ⟨_, setFlagsRound_dotStar h hu, by simp only; omega⟩
      · exact ⟨_, setFlagsRound_dot h hu hstar, by simp only; omega⟩
  · exact ⟨_, setFlagsRound_one h hu hw hs hd, Nat.lt_succ_self _⟩

theorem setFlagsFrom_ok (fuel : Nat) (h : TextAt m f t) (hs : size ≤ t.length) (h0 : 0 < fuel)
    (hf : size < fuel + s.i) : ∃ s', setFlagsFrom m f size fuel s = .ok s' := by
  induction fuel generalizing s with
  | zero => exact absurd h0 (Nat.lt_irrefl 0)
  | succ fuel ih =>
    unfold setFlagsFrom
    by_cases hc : s.i < size ∧ s.j < 10
    · obtain ⟨s', hs', hlt⟩ := setFlagsRound_ok (s := s) h (by omega)
      rw [if_pos hc, hs', ok_bind]
      exact ih (by omega) (by omega)
    · rw [if_neg hc]
      exact ⟨_, rfl⟩

end NmOtool
