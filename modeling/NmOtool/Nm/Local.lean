import NmOtool.Nm.Symtab

/-!
# ft_nm: host-order runs only read, and only from the slice on

A run of `handle_not_fat` with `should_swap = 0` at `ptr` returns the image as it was, and its
list depends on the size of the map and the bytes from `ptr` on: on an image `m'` that agrees
with `m` there, it does what it does on `m`. Both facts are one statement (`m' = m` is the first),
carried through the functions of the model one by one.
-/

namespace NmOtool.Nm

open MachO Checked

variable {m m' : Buffer} {x : Bool} {ptr lc sec i n count : Nat}

/-- `m'` agrees with `m` from `ptr` on. -/
abbrev AgreeFrom (ptr : Nat) (m m' : Buffer) : Prop := Buffer.AgreeOn (fun q => ptr ≤ q) m m'

theorem AgreeFrom.field (h : AgreeFrom ptr m m') {p : Nat} (hp : ptr ≤ p) :
    m'.field n p = m.field n p :=
  Buffer.AgreeOn.field h fun _ _ => Nat.le_add_right_of_le hp

theorem AgreeFrom.isSafe (h : AgreeFrom ptr m m') (z : Int) :
    NmOtool.isSafe m' z ↔ NmOtool.isSafe m z := by
  unfold NmOtool.isSafe mapSize; rw [h.size]

theorem AgreeFrom.isSegmantSafe (h : AgreeFrom ptr m m') :
    NmOtool.isSegmantSafe m' lc x ↔ NmOtool.isSegmantSafe m lc x := h.isSafe _

theorem AgreeFrom.isLcSafe (h : AgreeFrom ptr m m') :
    NmOtool.isLcSafe m' lc x ↔ NmOtool.isLcSafe m lc x := by
  rw [isLcSafe_iff, isLcSafe_iff, mapSize, h.size, mapSize]

/-! ## The section lookup -/

theorem getSectionFrom_local (h : AgreeFrom ptr m m') (hlc : ptr ≤ lc) :
    getSectionFrom false x i n lc count m' =
      keep m' (getSectionFrom false x i n lc count m) := by
  induction n generalizing lc count with
  | zero => rfl
  | succ n ih =>
    have hcmd : m'.field 4 lc = m.field 4 lc := h.field hlc
    have hsize : m'.field 4 (lc + 4) = m.field 4 (lc + 4) := h.field (by omega)
    have hadd : m'.field 4 (lc + nsectsOffset x) = m.field 4 (lc + nsectsOffset x) :=
      h.field (by omega)
    have hnext : ∀ cmdsize count, getSectionFrom false x i n (lc + cmdsize) count m' =
        keep m' (getSectionFrom false x i n (lc + cmdsize) count m) := fun _ _ => ih (by omega)
    unfold getSectionFrom
    simp only [Bool.false_eq_true, if_false, pure_eq, ok_bind, getAdd, hcmd, hsize, hadd, hnext]
    by_cases hs : isSafe m lc
    · rw [if_pos hs, if_pos ((h.isSafe _).mpr hs), keep_bind]
      refine congrArg _ (funext fun cmd => ?_)
      by_cases hc : cmd = LC_SEGMENT ∨ cmd = LC_SEGMENT_64
      · rw [if_pos hc, if_pos hc]
        by_cases hss : isSegmantSafe m lc x
        · rw [if_pos hss, if_pos (h.isSegmantSafe.mpr hss), keep_bind]
          refine congrArg _ (funext fun add => ?_)
          split
          · rfl
          · rw [keep_bind]
        · rw [if_neg hss, if_neg fun e => hss (h.isSegmantSafe.mp e)]
          rfl
      · rw [if_neg hc, if_neg hc, keep_bind]
    · rw [if_neg hs, if_neg fun e => hs ((h.isSafe _).mp e)]
      rfl

theorem getSectionFrom_le {m₁ : Buffer}
    (h : getSectionFrom false x i n lc count m = .ok (some sec, m₁)) : lc ≤ sec := by
  induction n generalizing lc count with
  | zero => cases h
  | succ n ih =>
    unfold getSectionFrom at h
    simp only [Bool.false_eq_true, if_false, pure_eq, ok_bind] at h
    split at h
    · obtain ⟨cmd, -, h⟩ := bind_eq_ok.mp h
      split at h
      · split at h
        · obtain ⟨add, -, h⟩ := bind_eq_ok.mp h
          split at h
          · cases h; omega
          · obtain ⟨cmdsize, -, h⟩ := bind_eq_ok.mp h
            have := ih h
            omega
        · cases h
      · obtain ⟨cmdsize, -, h⟩ := bind_eq_ok.mp h
        have := ih h
        omega
    · cases h

theorem getLc_local (h : AgreeFrom ptr m m') :
    getLc m' x false ptr = keep m' (getLc m x false ptr) := by
  unfold getLc
  simp only [Bool.false_eq_true, if_false, pure_eq, ok_bind]
  by_cases hs : isLcSafe m ptr x
  · rw [if_pos hs, if_pos (h.isLcSafe.mpr hs), keep_bind, h.field (by omega)]
    rfl
  · rw [if_neg hs, if_neg fun e => hs (h.isLcSafe.mp e)]
    rfl

/-- A host-order `get_lc` has no effect. -/
theorem getLc_keep (m : Buffer) (x : Bool) (ptr : Nat) :
    getLc m x false ptr = keep m (getLc m x false ptr) :=
  getLc_local .refl

theorem getSection_local (h : AgreeFrom ptr m m') :
    getSection m' ptr false x i = keep m' (getSection m ptr false x i) := by
  unfold getSection
  rw [getLc_local h]
  rcases keep_cases (getLc_keep m x ptr) with hl | ⟨lcInfo, hl⟩
  · rw [hl]; rfl
  · rw [hl, keep_ok, ok_bind, ok_bind]
    cases lcInfo with
    | none => rfl
    | some lcInfo => exact getSectionFrom_local h (Nat.le_add_right _ _)

theorem getSection_le {m₁ : Buffer} (h : getSection m ptr false x i = .ok (some sec, m₁)) :
    ptr ≤ sec := by
  unfold getSection at h
  rcases keep_cases (getLc_keep m x ptr) with hl | ⟨lcInfo, hl⟩
  · rw [hl] at h; cases h
  · rw [hl, ok_bind] at h
    cases lcInfo with
    | none => cases h
    | some lcInfo => have := getSectionFrom_le h; omega

/-! ## The letter -/

theorem ftStrcmp_local (h : AgreeFrom ptr m m') {p : Nat} (hp : ptr ≤ p)
    (s : Nat → Checked UInt8) : ftStrcmp m' p s = ftStrcmp m p s := by
  have hs : strAt m' p = strAt m p := funext fun k => Buffer.AgreeOn.load h (by omega)
  rw [ftStrcmp, ftStrcmp, hs, h.size]

theorem sectionLetter_local (h : AgreeFrom ptr m m') (hsec : ptr ≤ sec) :
    sectionLetter m' sec = sectionLetter m sec := by
  have hn : ∀ sect seg, isNamed m' sec sect seg = isNamed m sec sect seg := fun sect seg => by
    rw [isNamed, isNamed, ftStrcmp_local h hsec, ftStrcmp_local h (by omega)]
  simp only [sectionLetter, hn]

theorem symbol_local (h : AgreeFrom ptr m m') {e : Nat} (he : AgreeFrom e m m') :
    symbol m' ptr e false x = keep m' (symbol m ptr e false x) := by
  unfold symbol
  rw [Buffer.AgreeOn.load he (show e ≤ e + 5 by omega), keep_bind]
  refine congrArg _ (funext fun index => ?_)
  rw [getSection_local h]
  rcases keep_cases (getSection_local (.refl : AgreeFrom ptr m m) (x := x) (i := index.toNat))
    with hg | ⟨r, hg⟩
  · rw [hg]; rfl
  · rw [hg, keep_ok, ok_bind, ok_bind]
    cases r with
    | none => rfl
    | some sec =>
      simp only [Bool.false_eq_true, if_false, pure_eq, ok_bind]
      rw [sectionLetter_local h (getSection_le hg), keep_bind]
      rfl

theorem getSymbolLetter_local (h : AgreeFrom ptr m m') {e : Nat} (he : AgreeFrom e m m') :
    getSymbolLetter m' ptr e false x = keep m' (getSymbolLetter m ptr e false x) := by
  unfold getSymbolLetter
  rw [Buffer.AgreeOn.load he (show e ≤ e + 4 by omega), he.field (show e ≤ e + 6 by omega),
    he.field (show e ≤ e + 8 by omega), keep_bind]
  refine congrArg _ (funext fun nType => ?_)
  rw [keep_bind]
  refine congrArg _ (funext fun nDesc => ?_)
  rw [keep_bind]
  refine congrArg _ (funext fun nValue => ?_)
  generalize (if x = true then pre64 nType nDesc nValue else preSymbolLetter nType nDesc nValue) =
    letter
  have hload : m'.load (e + 4) = m.load (e + 4) := Buffer.AgreeOn.load he (by omega)
  have hlast : ∀ letter : UInt8,
      (do
        let nType ← m'.load (e + 4)
        if letter ≠ '?'.toUInt8 ∧ N_EXT &&& nType ≠ 0 then
          pure (letter - ('a'.toUInt8 - 'A'.toUInt8), m')
        else pure (letter, m') : Checked (UInt8 × Buffer)) =
      keep m' (do
        let nType ← m.load (e + 4)
        if letter ≠ '?'.toUInt8 ∧ N_EXT &&& nType ≠ 0 then
          pure (letter - ('a'.toUInt8 - 'A'.toUInt8), m)
        else pure (letter, m)) := by
    intro letter
    rw [hload, keep_bind]
    refine congrArg _ (funext fun t => ?_)
    split <;> rfl
  by_cases hs : letter = 's'.toUInt8
  · rw [if_pos hs, if_pos hs, symbol_local h he]
    rcases keep_cases (symbol_local (.refl : AgreeFrom ptr m m) (.refl : AgreeFrom e m m) (x := x))
      with hg | ⟨l, hg⟩
    · rw [hg]; rfl
    · rw [hg, keep_ok, ok_bind, ok_bind]
      exact hlast l
  · rw [if_neg hs, if_neg hs]
    exact hlast letter

/-- A host-order `get_symbol_letter` has no effect. -/
theorem getSymbolLetter_keep (m : Buffer) (ptr e : Nat) (x : Bool) :
    getSymbolLetter m ptr e false x = keep m (getSymbolLetter m ptr e false x) :=
  getSymbolLetter_local .refl .refl

/-! ## The symbol table -/

theorem getNlist_local (h : AgreeFrom ptr m m') {sym p : Nat} (hsym : ptr ≤ sym) :
    getNlist m' p i x sym = getNlist m p i x sym := by
  rw [getNlist, getNlist, h.field (by omega)]

theorem le_getNlist {sym e : Nat} (h : getNlist m ptr i x sym = .ok e) : ptr ≤ e := by
  obtain ⟨symoff, -, h⟩ := bind_eq_ok.mp h
  cases h
  omega

theorem listSymtabFrom_local (h : AgreeFrom ptr m m') {sym st : Nat} (hsym : ptr ≤ sym) :
    ∀ fuel i list, listSymtabFrom sym ptr st false x fuel i list m' =
      keep m' (listSymtabFrom sym ptr st false x fuel i list m) := by
  intro fuel
  induction fuel with
  | zero => intro i list; rfl
  | succ fuel ih =>
    intro i list
    unfold listSymtabFrom
    simp only [Bool.false_eq_true, if_false, pure_eq, ok_bind, getNlist_local h hsym]
    rw [h.field (show ptr ≤ sym + 12 by omega), keep_bind]
    refine congrArg _ (funext fun nsyms => ?_)
    split
    · by_cases hs : isSafe m st
      · rw [if_pos hs, if_pos ((h.isSafe _).mpr hs)]
        cases hn : getNlist m ptr i x sym with
        | fault => rfl
        | ok e =>
          have he := le_getNlist hn
          simp only [ok_bind]
          by_cases hse : isSafe m e
          · rw [if_pos hse, if_pos ((h.isSafe _).mpr hse), initOneNm, initOneNm,
              getSymbolLetter_local h (h.mono fun q hq => he.trans hq)]
            rcases keep_cases (getSymbolLetter_keep m ptr e x)
              with hg | ⟨l, hg⟩
            · rw [hg]; rfl
            · rw [hg, keep_ok]
              simp only [ok_bind, pure_eq, getNlist_local h hsym, hn]
              rw [getSymbolName, getSymbolName, h.field he, keep_bind]
              refine congrArg _ (funext fun name => ?_)
              by_cases hsn : isSafe m name
              · rw [if_pos hsn, if_pos ((h.isSafe _).mpr hsn)]
                exact ih _ _
              · rw [if_neg hsn, if_neg fun e => hsn ((h.isSafe _).mp e)]
                rfl
          · rw [if_neg hse, if_neg fun e => hse ((h.isSafe _).mp e)]
            rfl
      · rw [if_neg hs, if_neg fun e => hs ((h.isSafe _).mp e)]
        rfl
    · rfl

theorem listSymtab_local (h : AgreeFrom ptr m m') {sym : Nat} (hsym : ptr ≤ sym) :
    listSymtab sym ptr false x m' = keep m' (listSymtab sym ptr false x m) := by
  unfold listSymtab
  simp only [Bool.false_eq_true, if_false, pure_eq, ok_bind]
  by_cases hs : isSafe m (sym + symtabSize : Nat)
  · rw [if_pos hs, if_pos ((h.isSafe _).mpr hs), h.field (by omega), keep_bind]
    exact congrArg _ (funext fun stroff => listSymtabFrom_local h hsym _ _ _)
  · rw [if_neg hs, if_neg fun e => hs ((h.isSafe _).mp e)]
    rfl

theorem getNmListFrom_local (h : AgreeFrom ptr m m') (hlc : ptr ≤ lc) :
    getNmListFrom ptr false x n lc m' = keep m' (getNmListFrom ptr false x n lc m) := by
  induction n generalizing lc with
  | zero => rfl
  | succ n ih =>
    unfold getNmListFrom
    simp only [Bool.false_eq_true, if_false, pure_eq, ok_bind]
    by_cases hs : isSafe m (lc + 8 : Nat)
    · rw [if_pos hs, if_pos ((h.isSafe _).mpr hs), h.field hlc, keep_bind]
      refine congrArg _ (funext fun cmd => ?_)
      split
      · exact listSymtab_local h hlc
      · rw [h.field (by omega), keep_bind]
        exact congrArg _ (funext fun cmdsize => ih (by omega))
    · rw [if_neg hs, if_neg fun e => hs ((h.isSafe _).mp e)]
      rfl

theorem handleNotFat_local (h : AgreeFrom ptr m m') :
    handleNotFat m' x false ptr = keep m' (handleNotFat m x false ptr) := by
  unfold handleNotFat
  by_cases hs : isSafe m ptr
  · rw [if_pos hs, if_pos ((h.isSafe _).mpr hs), getLc_local h]
    rcases keep_cases (getLc_keep m x ptr) with hl | ⟨lcInfo, hl⟩
    · rw [hl]; rfl
    · rw [hl, keep_ok, ok_bind, ok_bind]
      cases lcInfo with
      | none => rfl
      | some lcInfo => exact getNmListFrom_local h (Nat.le_add_right _ _)
  · rw [if_neg hs, if_neg fun e => hs ((h.isSafe _).mp e)]
    rfl

/-- A host-order run leaves the image as it was. -/
theorem handleNotFat_keep : handleNotFat m x false ptr = keep m (handleNotFat m x false ptr) :=
  handleNotFat_local .refl

end NmOtool.Nm
