import NmOtool.Nm.Main

/-!
# ft_nm: the selection flags as filters

`can_show_list` is a nest of early returns. `keeps` is the conjunction of the filters that the
flags name, and the two differ only under 'g' on its own, which the nest never looks at. What is
printed is the lines of the records that `can_show_list` selects, so the two are compared on the
text.
-/

namespace NmOtool.Nm

open MachO Checked

variable {m : Buffer} {flags : List UInt8} {list sub : List TNm} {a b : List UInt8} {t : UInt8}

def isUndefined (t : UInt8) : Bool := t == 'u'.toUInt8 || t == 'U'.toUInt8

/-- A letter that is not a stab's and passes every filter that the flags select. -/
def keeps (flags : List UInt8) (t : UInt8) : Bool :=
  let flag (c : Char) := ftStrchr flags c.toUInt8
  t != '-'.toUInt8 && (!flag 'g' || isExtern t) && (!flag 'u' || isUndefined t) &&
    (!flag 'U' || !isUndefined t)

/-- The case that `can_show_list` leaves out: 'g' without 'u' and 'U'. -/
def extraUnder (flags : List UInt8) (t : UInt8) : Bool :=
  let flag (c : Char) := ftStrchr flags c.toUInt8
  !flag 'u' && !flag 'U' && t != '-'.toUInt8 && !isExtern t

/-- `can_show_list`, as a function of the three flags it looks for. -/
def canShowUnder (g u U : Bool) (t : UInt8) : Bool :=
  if t == '-'.toUInt8 then false
  else if u && U then false
  else if u then if g then t == 'U'.toUInt8 else t == 'u'.toUInt8 || t == 'U'.toUInt8
  else if U then
    if g then isExtern t && t != 'U'.toUInt8 else t != 'u'.toUInt8 && t != 'U'.toUInt8
  else true

theorem canShowUnder_eq (g u U : Bool) : canShowUnder g u U t =
    (t != '-'.toUInt8 && (!g || isExtern t) && (!u || isUndefined t) && (!U || !isUndefined t) ||
      g && (!u && !U && t != '-'.toUInt8 && !isExtern t)) := by
  unfold canShowUnder isUndefined
  by_cases hs : t = '-'.toUInt8
  · simp [hs]
  -- the two undefined letters, a local one and an external one, then any other letter
  by_cases hu : t = 'u'.toUInt8
  · subst hu
    cases g <;> cases u <;> cases U <;> rfl
  by_cases hU : t = 'U'.toUInt8
  · subst hU
    cases g <;> cases u <;> cases U <;> rfl
  · simp only [beq_eq_false_iff_ne.mpr hs, beq_eq_false_iff_ne.mpr hu, beq_eq_false_iff_ne.mpr hU,
      bne]
    cases g <;> cases u <;> cases U <;> cases isExtern t <;> rfl

theorem canShowList_eq :
    canShowList t flags = (keeps flags t || ftStrchr flags 'g'.toUInt8 && extraUnder flags t) :=
  canShowUnder_eq _ _ _

theorem canShowList_of_keeps (h : keeps flags t = true) : canShowList t flags = true := by
  rw [canShowList_eq, h, Bool.true_or]

/-! ## The lines of a list of records -/

/-- The lines of all the records. -/
def printAll (m : Buffer) (flags : List UInt8) : List TNm → Checked (List UInt8)
  | [] => pure []
  | r :: list => do
    let line ← printOne m flags r
    let rest ← printAll m flags list
    pure (line ++ rest)

theorem printRecords_eq (list : List TNm) :
    printRecords m flags list =
      printAll m flags (list.filter fun r => canShowList r.type flags) := by
  induction list with
  | nil => rfl
  | cons r next ih =>
    rw [printRecords, ih, List.filter_cons]
    by_cases hs : canShowList r.type flags = true
    · rw [if_pos hs, if_pos hs, printAll]
    · rw [if_neg hs, if_neg hs, pure_eq, ok_bind]
      cases printAll m flags (next.filter fun r => canShowList r.type flags) <;> rfl

theorem printOne_length {r : TNm} (h : printOne m flags r = .ok a) : 0 < a.length := by
  have hline : ∀ fields : List UInt8,
      (do let name ← ftStr m r.name; pure (fields ++ ftPrintfS name ++ ascii "\n")) = .ok a →
        0 < a.length := by
    intro fields h
    obtain ⟨name, -, h⟩ := bind_eq_ok.mp h
    cases h
    rw [List.length_append]
    exact Nat.add_pos_right _ (by decide)
  unfold printOne at h
  split at h
  · obtain ⟨address, -, h⟩ := bind_eq_ok.mp h
    exact hline _ h
  · exact hline _ h

/-- A part of a list prints a shorter text, unless it is the whole list. -/
theorem printAll_sublist (hs : sub.Sublist list) :
    ∀ {a}, printAll m flags list = .ok a →
      ∃ b, printAll m flags sub = .ok b ∧ b.length ≤ a.length ∧
        (a.length ≤ b.length → sub = list) := by
  induction hs with
  | slnil => exact fun h => ⟨_, h, Nat.le_refl _, fun _ => rfl⟩
  | cons r _ ih =>
    intro a h
    unfold printAll at h
    obtain ⟨line, hl, h⟩ := bind_eq_ok.mp h
    obtain ⟨rest, hr, h⟩ := bind_eq_ok.mp h
    cases h
    obtain ⟨b, hb, hle, -⟩ := ih hr
    have hpos := printOne_length hl
    rw [List.length_append]
    exact ⟨b, hb, by omega, fun _ => by omega⟩
  | cons_cons r _ ih =>
    intro a h
    unfold printAll at h
    obtain ⟨line, hl, h⟩ := bind_eq_ok.mp h
    obtain ⟨rest, hr, h⟩ := bind_eq_ok.mp h
    cases h
    obtain ⟨b, hb, hle, heq⟩ := ih hr
    refine ⟨line ++ b, ?_, ?_, fun hge => ?_⟩
    · rw [printAll, hl, ok_bind, hb, ok_bind]
      rfl
    · rw [List.length_append, List.length_append]
      omega
    · rw [List.length_append, List.length_append] at hge
      rw [heq (by omega)]

/-- Parts of a list that print the same text as the list are the list. -/
theorem printAll_inj (hs : sub.Sublist list) (h : printAll m flags list = .ok a) :
    printAll m flags sub = .ok a ↔ sub = list := by
  obtain ⟨b, hb, -, heq⟩ := printAll_sublist hs h
  constructor
  · intro he
    rw [he] at hb
    cases hb
    exact heq (Nat.le_refl _)
  · rintro rfl
    exact h

/-- What `print_nm_list` prints before the lines: the file's name, for a list that is not empty. -/
def heading (name : List UInt8) (mu : Bool) (list : List TNm) : List UInt8 :=
  if mu && !list.isEmpty then ftPrintfS name ++ ascii ":\n" else []

/-- The text is that of `print_nm_list` for the records `rs` of the list. -/
def Prints (m : Buffer) (name : List UInt8) (mu : Bool) (flags : List UInt8) (list rs : List TNm)
    (out : List UInt8) : Prop :=
  ∃ lines, printAll m flags rs = .ok lines ∧
    out = heading name mu list ++ lines

theorem Prints.sublist {name : List UInt8} {mu : Bool} {rs : List TNm} {out : List UInt8}
    (h : Prints m name mu flags list rs out) (hs : sub.Sublist rs) :
    Prints m name mu flags list sub out ↔ sub = rs := by
  obtain ⟨lines, hp, rfl⟩ := h
  rw [← printAll_inj hs hp]
  constructor
  · rintro ⟨lines', hp', he⟩
    rw [hp', List.append_cancel_left he]
  · intro hp'
    exact ⟨lines, hp', rfl⟩

theorem printNmList_prints {name : List UInt8} {mu : Bool} {o : Outcome}
    (h : printNmList m list name mu flags = .ok o) :
    Prints m name mu flags list (list.filter fun r => canShowList r.type flags) o.out := by
  unfold printNmList at h
  split at h
  · subst list
    cases h
    refine ⟨[], rfl, ?_⟩
    simp [heading]
  · rename_i hne
    obtain ⟨lines, hl, h⟩ := bind_eq_ok.mp h
    cases h
    rw [printRecords_eq] at hl
    refine ⟨lines, hl, ?_⟩
    rw [heading, List.isEmpty_eq_false_iff.mpr hne]
    simp

/-! ## One flag more -/

theorem ftStrchr_append {c d : UInt8} (hc : c ≠ 0) :
    ftStrchr (flags ++ [d]) c = (ftStrchr flags c || c == d) := by
  induction flags with
  | nil =>
    by_cases h : c = d <;> simp [ftStrchr, h, hc]
  | cons b flags ih =>
    rw [List.cons_append, ftStrchr, ftStrchr, ih]
    split <;> rfl

/-- 'g' among the flags, which no other look at the flags sees. -/
theorem ftStrchr_g (c : Char) (hc : c.toUInt8 ≠ 0) (hg : c.toUInt8 ≠ 'g'.toUInt8) :
    ftStrchr (flags ++ ascii "g") c.toUInt8 = ftStrchr flags c.toUInt8 := by
  rw [show ascii "g" = ['g'.toUInt8] from rfl, ftStrchr_append hc, beq_eq_false_iff_ne.mpr hg,
    Bool.or_false]

theorem printOne_g (r : TNm) : printOne m (flags ++ ascii "g") r = printOne m flags r := by
  rw [printOne, printOne, ftStrchr_g 'u' (by decide) (by decide),
    ftStrchr_g 'j' (by decide) (by decide)]

theorem printAll_g (list : List TNm) :
    printAll m (flags ++ ascii "g") list = printAll m flags list := by
  induction list with
  | nil => rfl
  | cons r list ih => rw [printAll, printAll, printOne_g, ih]

theorem prints_g {name out : List UInt8} {mu : Bool} :
    Prints m name mu (flags ++ ascii "g") list sub out ↔ Prints m name mu flags list sub out := by
  unfold Prints
  rw [printAll_g]

theorem keeps_g : keeps (flags ++ ascii "g") t = (keeps flags t && isExtern t) := by
  unfold keeps
  simp only
  rw [ftStrchr_g 'u' (by decide) (by decide), ftStrchr_g 'U' (by decide) (by decide),
    show ascii "g" = ['g'.toUInt8] from rfl, ftStrchr_append (by decide), beq_self_eq_true,
    Bool.or_true]
  cases isExtern t <;> simp

theorem extraUnder_g : extraUnder (flags ++ ascii "g") t = extraUnder flags t := by
  unfold extraUnder
  simp only
  rw [ftStrchr_g 'u' (by decide) (by decide), ftStrchr_g 'U' (by decide) (by decide)]

theorem canShowList_g :
    canShowList t (flags ++ ascii "g") = (keeps flags t && isExtern t || extraUnder flags t) := by
  rw [canShowList_eq, keeps_g, extraUnder_g, show ascii "g" = ['g'.toUInt8] from rfl,
    ftStrchr_append (by decide), beq_self_eq_true, Bool.or_true, Bool.true_and]

theorem isExtern_of_keeps (hg : ftStrchr flags 'g'.toUInt8 = true) (h : keeps flags t = true) :
    isExtern t = true := by
  unfold keeps at h
  simp only [hg, Bool.not_true, Bool.false_or, Bool.and_eq_true] at h
  exact h.1.1.2

/-- 'g' comes with 'u' or 'U', or every record that is not a stab is external. -/
def Composes (flags : List UInt8) (list : List TNm) : Prop :=
  ftStrchr flags 'u'.toUInt8 = true ∨ ftStrchr flags 'U'.toUInt8 = true ∨
    ∀ r ∈ list, r.type ≠ '-'.toUInt8 → isExtern r.type = true

theorem composes_iff : Composes flags list ↔ ∀ r ∈ list, extraUnder flags r.type = false := by
  unfold Composes extraUnder
  simp only
  cases ftStrchr flags 'u'.toUInt8 <;> cases ftStrchr flags 'U'.toUInt8 <;> simp

theorem canShowList_of_g (h : canShowList t (flags ++ ascii "g") = true) :
    canShowList t flags = true := by
  rw [canShowList_g, Bool.or_eq_true, Bool.and_eq_true] at h
  obtain ⟨hk, -⟩ | he := h
  · exact canShowList_of_keeps hk
  · rw [canShowList_eq, he]
    unfold extraUnder at he
    unfold keeps
    simp only [Bool.and_eq_true, Bool.not_eq_true'] at he ⊢
    rw [he.1.1.1, he.1.1.2, he.1.2]
    cases ftStrchr flags 'g'.toUInt8 <;> simp

theorem not_isExtern_of_extra (h : extraUnder flags t = true) : isExtern t = false := by
  unfold extraUnder at h
  simp only [Bool.and_eq_true, Bool.not_eq_true'] at h
  exact h.2

theorem printNmList_g {name : List UInt8} {mu : Bool} {o : Outcome}
    (h : printNmList m list name mu flags = .ok o) :
    ∃ o', printNmList m list name mu (flags ++ ascii "g") = .ok o' := by
  unfold printNmList at h ⊢
  split at h
  · rename_i he
    rw [if_pos he]
    exact ⟨_, rfl⟩
  · rename_i hne
    obtain ⟨lines, hl, -⟩ := bind_eq_ok.mp h
    rw [printRecords_eq] at hl
    obtain ⟨b, hb, -⟩ := printAll_sublist
      (List.monotone_filter_right list fun r hr => canShowList_of_g hr) hl
    rw [if_neg hne, printRecords_eq, printAll_g, hb]
    exact ⟨_, rfl⟩

theorem filter_eq_filter_iff {p q : UInt8 → Bool} (hpq : ∀ t, p t = true → q t = true) :
    (list.filter fun r => p r.type) = (list.filter fun r => q r.type) ↔
      ∀ r ∈ list, q r.type = true → p r.type = true := by
  have hfilter : (list.filter fun r => p r.type) =
      (list.filter fun r => q r.type).filter fun r => p r.type := by
    rw [List.filter_filter]
    apply List.filter_congr
    intro r _
    cases hp : p r.type
    · rfl
    · rw [hpq _ hp]
      rfl
  rw [hfilter, List.filter_eq_self]
  simp only [List.mem_filter, and_imp]

/-- The records printed are those that pass every selected filter exactly if, where 'g' is among
the flags, it comes with 'u' or 'U' or finds external records only. It is exactly then that one
more 'g' prints the external records of what is printed without it. -/
theorem filters_compose {name : List UInt8} {mu : Bool} {o : Outcome}
    (h : printNmList m list name mu flags = .ok o) :
    let printed := list.filter fun r => canShowList r.type flags
    Prints m name mu flags list printed o.out ∧
    (Prints m name mu flags list (list.filter fun r => keeps flags r.type) o.out ↔
      (ftStrchr flags 'g'.toUInt8 = true → Composes flags list)) ∧
    ∃ o', printNmList m list name mu (flags ++ ascii "g") = .ok o' ∧
      (Prints m name mu flags list (printed.filter fun r => isExtern r.type) o'.out ↔
        Composes flags list) := by
  have hp := printNmList_prints h
  refine ⟨hp, ?_, ?_⟩
  · have hsub : (list.filter fun r => keeps flags r.type).Sublist
        (list.filter fun r => canShowList r.type flags) :=
      List.monotone_filter_right list fun r hr => canShowList_of_keeps hr
    rw [hp.sublist hsub, filter_eq_filter_iff (q := fun t => canShowList t flags)
      fun t ht => canShowList_of_keeps ht, composes_iff]
    simp only [canShowList_eq, Bool.or_eq_true, Bool.and_eq_true]
    constructor
    · intro hall hg r hr
      by_contra he
      have hext := not_isExtern_of_extra (Bool.eq_true_of_not_eq_false he)
      have hk := hall r hr (.inr ⟨hg, Bool.eq_true_of_not_eq_false he⟩)
      exact absurd (isExtern_of_keeps hg hk) (by simp [hext])
    · rintro hall r hr (hk | ⟨hg, he⟩)
      · exact hk
      · exact absurd he (by simp [hall hg r hr])
  · obtain ⟨o', ho'⟩ := printNmList_g h
    have hp' := printNmList_prints ho'
    rw [prints_g] at hp'
    have hext : ((list.filter fun r => canShowList r.type flags).filter fun r => isExtern r.type) =
        list.filter fun r => keeps flags r.type && isExtern r.type := by
      rw [List.filter_filter]
      apply List.filter_congr
      intro r _
      rw [canShowList_eq]
      cases he : extraUnder flags r.type
      · rw [Bool.and_false, Bool.or_false, Bool.and_comm]
      · rw [not_isExtern_of_extra he, Bool.false_and, Bool.and_false]
    have hsub : ∀ t, (keeps flags t && isExtern t) = true →
        canShowList t (flags ++ ascii "g") = true := by
      intro t ht
      rw [canShowList_g, ht, Bool.true_or]
    refine ⟨o', ho', ?_⟩
    rw [hext, hp'.sublist (List.monotone_filter_right list fun r hr => hsub r.type hr),
      filter_eq_filter_iff (p := fun t => keeps flags t && isExtern t)
        (q := fun t => canShowList t (flags ++ ascii "g")) hsub, composes_iff]
    simp only [canShowList_g, Bool.or_eq_true]
    constructor
    · intro hall r hr
      by_contra he
      have hext := not_isExtern_of_extra (Bool.eq_true_of_not_eq_false he)
      have hk := hall r hr (.inr (Bool.eq_true_of_not_eq_false he))
      exact absurd hk (by simp [hext])
    · rintro hall r hr (hk | he)
      · exact hk
      · exact absurd he (by simp [hall r hr])

/-- A map of a value and a name, and its local symbol. -/
def oneName : Buffer := .ofBytes 16 ([1, 0, 0, 0, 0, 0, 0, 0] ++ ascii "_local")

def localSymbol : TNm := { is64 := true, type := 't'.toUInt8, add := 0, name := 8 }

theorem filters_compose_localSymbol :
    ∃ o', printNmList oneName [localSymbol] [] false (ascii "ug") = .ok o' ∧
      Prints oneName [] false (ascii "u") [localSymbol]
        (([localSymbol].filter fun r => canShowList r.type (ascii "u")).filter
          fun r => isExtern r.type) o'.out := by
  have hrun : printNmList oneName [localSymbol] [] false (ascii "u") = .ok ⟨0, [], []⟩ := by
    decide +kernel
  obtain ⟨-, -, o', ho', hiff⟩ := filters_compose hrun
  exact ⟨o', ho', hiff.mpr (.inl (by decide))⟩

/-- 'g' on its own lists the local symbol. -/
theorem filters_alone :
    ¬ ∀ m list name mu flags o, printNmList m list name mu flags = .ok o →
      Prints m name mu flags list (list.filter fun r => keeps flags r.type) o.out := by
  intro h
  have hrun : printNmList oneName [localSymbol] [] false (ascii "g") =
      .ok ⟨0, ascii "0000000000000001 t _local\n", []⟩ := by decide +kernel
  have hp := (printNmList_prints hrun).sublist (List.nil_sublist _)
  exact absurd (hp.mp (h _ _ _ _ _ _ hrun)) (by decide)

end NmOtool.Nm
