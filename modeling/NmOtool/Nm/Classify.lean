import NmOtool.Nm.Numbering
import NmOtool.Nm.Print

/-!
# ft_nm: what the letters mean

A symbol is of a kind (`SymbolKind`), and each kind has a letter, in capitals for an external
symbol. The code computes the letter as a byte and makes it a capital by a subtraction, which it
applies to the `-` of a debugger's symbol as well; and it finds the section of a symbol only where
`g_map_size` reaches. Otherwise its letter is that of the kind.
-/

namespace NmOtool.Nm

open MachO Checked

variable {m : Buffer} {x : Bool} {ptr sym i e sec : Nat} {t : UInt8} {w : Bool} {value : Nat}

/-! ## Kinds -/

/-- The sections that have a letter of their own, and the others. -/
inductive SectionKind where
  | text
  | data
  | bss
  | other
  deriving DecidableEq, Repr

def SectionKind.letter : SectionKind → UInt8
  | text => 't'.toUInt8
  | data => 'd'.toUInt8
  | bss => 'b'.toUInt8
  | other => 's'.toUInt8

inductive SymbolKind where
  | stab
  | undefined
  | common
  | absolute
  | prebound
  | indirect
  | inSection (section_ : SectionKind)
  | weak
  | unknown
  deriving DecidableEq, Repr

/-- The letter of a kind; `ext` says that the symbol is external. -/
def SymbolKind.letter (ext : Bool) : SymbolKind → UInt8
  | stab => '-'.toUInt8
  | undefined => if ext then 'U'.toUInt8 else 'u'.toUInt8
  | common => if ext then 'C'.toUInt8 else 'c'.toUInt8
  | absolute => if ext then 'A'.toUInt8 else 'a'.toUInt8
  | prebound => if ext then 'U'.toUInt8 else 'u'.toUInt8
  | indirect => if ext then 'I'.toUInt8 else 'i'.toUInt8
  | inSection .text => if ext then 'T'.toUInt8 else 't'.toUInt8
  | inSection .data => if ext then 'D'.toUInt8 else 'd'.toUInt8
  | inSection .bss => if ext then 'B'.toUInt8 else 'b'.toUInt8
  | inSection .other => if ext then 'S'.toUInt8 else 's'.toUInt8
  | weak => if ext then 'W'.toUInt8 else 'w'.toUInt8
  | unknown => '?'.toUInt8

/-- The section header at `sec`. -/
def sectionKind (m : Buffer) (sec : Nat) : SectionKind :=
  if IsNamed m sec SEG_TEXT SECT_TEXT then .text
  else if IsNamed m sec SEG_DATA SECT_DATA then .data
  else if IsNamed m sec SEG_DATA SECT_BSS then .bss
  else .other

theorem headerLetter_kind : headerLetter m sec = (sectionKind m sec).letter := by
  unfold headerLetter sectionKind
  split_ifs <;> rfl

/-- Some bit of `N_STAB` is set. -/
def IsStab (t : UInt8) : Prop := N_STAB &&& t ≠ 0

instance (t : UInt8) : Decidable (IsStab t) := inferInstanceAs (Decidable (_ ≠ _))

def IsExternal (t : UInt8) : Prop := N_EXT &&& t ≠ 0

instance (t : UInt8) : Decidable (IsExternal t) := inferInstanceAs (Decidable (_ ≠ _))

/-- The kind of a symbol of the type `t`; `w` is the weak bit, `section_` the kind of
its section, if it has one. -/
def kindOf (t : UInt8) (w : Bool) (value : Nat) (section_ : SectionKind) : SymbolKind :=
  if IsStab t then .stab
  else if t &&& N_TYPE = N_UNDF then (if value ≠ 0 then .common else .undefined)
  else if t &&& N_TYPE = N_ABS then .absolute
  else if t &&& N_TYPE = N_SECT then .inSection section_
  else if t &&& N_TYPE = N_PBUD then .prebound
  else if t &&& N_TYPE = N_INDR then .indirect
  else if w then .weak
  else .unknown

theorem kindOf_inSection (h : InSection t) (k : SectionKind) :
    kindOf t w value k = .inSection k := by
  obtain ⟨h0, h1⟩ := h
  rw [kindOf, if_neg (show ¬ IsStab t from not_not.mpr h0), if_neg (by rw [h1]; decide),
    if_neg (by rw [h1]; decide), if_pos h1]

theorem kindOf_not_inSection (h : ¬ InSection t) (k k' : SectionKind) :
    kindOf t w value k = kindOf t w value k' := by
  unfold kindOf
  by_cases h0 : IsStab t
  · rw [if_pos h0, if_pos h0]
  · have h1 : ¬ t &&& N_TYPE = N_SECT := fun h1 => h ⟨not_not.mp h0, h1⟩
    simp only [if_neg h1]

/-! ## The letter of a kind -/

/-- The letter that the code gives before it looks at `N_EXT`. -/
theorem preLetter_kind (k : SectionKind) :
    (if preLetter t w value = 's'.toUInt8 then k.letter else preLetter t w value) =
      (kindOf t w value k).letter false := by
  by_cases hin : InSection t
  · rw [if_pos (preLetter_eq_s.mpr hin), kindOf_inSection hin]
    cases k <;> rfl
  · rw [if_neg fun h => hin (preLetter_eq_s.mp h)]
    by_cases h0 : IsStab t
    · rw [kindOf, if_pos h0]
      exact if_pos h0
    · have h1 : ¬ t &&& N_TYPE = N_SECT := fun h1 => hin ⟨not_not.mp h0, h1⟩
      have hstab : ¬ N_STAB &&& t ≠ 0 := h0
      unfold preLetter kindOf
      simp only [if_neg h0, if_neg hstab, if_neg h1]
      split_ifs <;> rfl

/-- Making a letter a capital by a subtraction is right for all but the `-`. -/
theorem capital (k : SymbolKind) (hk : k ≠ .stab) :
    (if k.letter false ≠ '?'.toUInt8 then k.letter false - ('a'.toUInt8 - 'A'.toUInt8)
      else k.letter false) = k.letter true := by
  cases k with
  | stab => exact absurd rfl hk
  | inSection k => cases k <;> rfl
  | _ => rfl

/-- The code makes a carriage return of the `-`. -/
theorem classify_stab (h : IsStab t) (a : UInt8) :
    classify t w value a = if IsExternal t then '\r'.toUInt8 else '-'.toUInt8 := by
  have hpre : preLetter t w value = '-'.toUInt8 := if_pos h
  have hs : ¬ '-'.toUInt8 = 's'.toUInt8 := by decide
  rw [classify, hpre]
  simp only [if_neg hs]
  by_cases hext : IsExternal t
  · rw [if_pos hext]
    exact if_pos (show '-'.toUInt8 ≠ '?'.toUInt8 ∧ N_EXT &&& t ≠ 0 from ⟨by decide, hext⟩)
  · rw [if_neg hext]
    exact if_neg fun h => hext h.2

theorem classify_kind (h : ¬ (IsStab t ∧ IsExternal t)) (k : SectionKind) :
    classify t w value k.letter = (kindOf t w value k).letter (decide (IsExternal t)) := by
  by_cases hstab : IsStab t
  · have hext : ¬ IsExternal t := fun hext => h ⟨hstab, hext⟩
    rw [classify_stab hstab, if_neg hext, kindOf, if_pos hstab]
    rfl
  · have hk : kindOf t w value k ≠ .stab := by
      unfold kindOf
      rw [if_neg hstab]
      split_ifs <;> exact SymbolKind.noConfusion
    rw [classify, preLetter_kind]
    by_cases hext : IsExternal t
    · rw [decide_eq_true hext, ← capital _ hk]
      exact if_congr (and_iff_left hext) rfl rfl
    · rw [decide_eq_false hext]
      exact if_neg fun h => hext h.2

/-- Sections of different kinds have different letters, in capitals too. -/
theorem letter_inSection_inj {ext : Bool} {k k' : SectionKind}
    (h : (SymbolKind.inSection k).letter ext = (SymbolKind.inSection k').letter ext) : k = k' := by
  cases ext <;> cases k <;> cases k' <;> first | rfl | exact absurd h (by decide)

/-! ## The entries of an image -/

/-- The kind of the section of the entry at `e`, by its number. -/
def entrySection (m : Buffer) (x : Bool) (ptr e : Nat) : SectionKind :=
  ((sectionNumbered m x ptr (nSect m e)).map (sectionKind m)).getD .other

/-- The letter of the entry at `e`, as its kind has it. -/
def entryLetter (m : Buffer) (x : Bool) (ptr e : Nat) : UInt8 :=
  (kindOf (nType m e) (nDesc m e &&& N_WEAK_REF != 0) (nValue m x e)
    (entrySection m x ptr e)).letter (decide (IsExternal (nType m e)))

/-- An entry in the file; if it is in a section, the image has that one. -/
structure WfEntry (m : Buffer) (x : Bool) (ptr e : Nat) : Prop where
  inside : e + nlistSize x ≤ m.size
  sect : InSection (nType m e) → 1 ≤ nSect m e ∧ nSect m e ≤ (sections m x ptr).length

/-- The kind of the section that the lookup finds for the entry: none is `other`. -/
def foundSection (m : Buffer) (x : Bool) (ptr e : Nat) : SectionKind :=
  (((reachedSections m x ptr)[nSect m e - 1]?).map (sectionKind m)).getD .other

/-- The letter that the code computes for an entry, by the section it finds. -/
theorem getSymbolLetter_found (hwf : WfSegments m x ptr) (he : WfEntry m x ptr e) :
    getSymbolLetter m ptr e false x = .ok (classify (nType m e)
      (nDesc m e &&& N_WEAK_REF != 0) (nValue m x e) (foundSection m x ptr e).letter, m) := by
  have hfind : InSection (nType m e) → getSection m ptr false x (nSect m e) =
      .ok ((reachedSections m x ptr)[nSect m e - 1]?, m) := fun h =>
    getSection_reached hwf (he.sect h).1 (UInt8.toNat_lt _)
  rw [getSymbolLetter_host he.inside hfind fun h sec hsec => ?_]
  · rw [letterAt, foundSection]
    cases (reachedSections m x ptr)[nSect m e - 1]? with
    | none => rfl
    | some sec => simp only [Option.elim_some, Option.map_some, Option.getD_some, headerLetter_kind]
  · obtain ⟨r, hr, hin, -⟩ := getSection_host hwf.command (he.sect h).1 (UInt8.toNat_lt _)
    have hsame := Checked.ok.inj (hr.symm.trans (hfind h))
    exact hin sec ((congrArg Prod.fst hsame).trans hsec)

/-- What the lookup finds is the section of the entry, or the entry's section is out of reach. -/
theorem foundSection_eq (he : WfEntry m x ptr e) (hin : InSection (nType m e)) :
    foundSection m x ptr e = entrySection m x ptr e ↔
      (nSect m e ≤ (reachedSections m x ptr).length ∨ entrySection m x ptr e = .other) := by
  obtain ⟨hpos, hle⟩ := he.sect hin
  have hprefix : reachedSections m x ptr <+: sections m x ptr := sectionsReached_prefix _ _
  by_cases hreach : nSect m e ≤ (reachedSections m x ptr).length
  · have hget : (reachedSections m x ptr)[nSect m e - 1]? = (sections m x ptr)[nSect m e - 1]? :=
      (getElem?_of_append hprefix).mpr fun _ => by omega
    refine iff_of_true ?_ (.inl hreach)
    rw [foundSection, entrySection, sectionNumbered, hget, if_neg (by omega)]
  · have hnone : (reachedSections m x ptr)[nSect m e - 1]? = none :=
      List.getElem?_eq_none (by omega)
    have hother : foundSection m x ptr e = .other := by
      rw [foundSection, hnone]
      rfl
    rw [hother, or_iff_right hreach]
    exact eq_comm

/-- A symbol with the letter `-` is shown under no flags. -/
theorem canShowList_stab (flags : List UInt8) : canShowList '-'.toUInt8 flags = false := rfl

/-- The letter of the entry at `e` is that of its kind, and a stab is shown under no flags. -/
def LettersRight (m : Buffer) (x : Bool) (ptr e : Nat) : Prop :=
  getSymbolLetter m ptr e false x = .ok (entryLetter m x ptr e, m) ∧
    (IsStab (nType m e) → ∀ letter m', getSymbolLetter m ptr e false x = .ok (letter, m') →
      ∀ flags, canShowList letter flags = false)

theorem lettersRight_stab (hwf : WfSegments m x ptr) (he : WfEntry m x ptr e)
    (hstab : IsStab (nType m e)) : LettersRight m x ptr e ↔ ¬ IsExternal (nType m e) := by
  have hkind : entryLetter m x ptr e = '-'.toUInt8 := by
    rw [entryLetter, kindOf, if_pos hstab]
    rfl
  rw [LettersRight, getSymbolLetter_found hwf he, classify_stab hstab, hkind]
  by_cases hext : IsExternal (nType m e)
  · rw [if_pos hext]
    refine iff_of_false (fun h => ?_) fun h => h hext
    have hletter : '\r'.toUInt8 = '-'.toUInt8 := congrArg Prod.fst (Checked.ok.inj h.1)
    exact absurd hletter (by decide)
  · rw [if_neg hext]
    refine iff_of_true ⟨rfl, fun _ letter m' h flags => ?_⟩ hext
    cases h
    exact canShowList_stab flags

theorem lettersRight_plain (hwf : WfSegments m x ptr) (he : WfEntry m x ptr e)
    (hstab : ¬ IsStab (nType m e)) : LettersRight m x ptr e ↔
      (InSection (nType m e) →
        nSect m e ≤ (reachedSections m x ptr).length ∨ entrySection m x ptr e = .other) := by
  rw [LettersRight, getSymbolLetter_found hwf he, classify_kind fun h => hstab h.1, entryLetter,
    and_iff_left fun h => absurd h hstab, Checked.ok.injEq, Prod.mk.injEq, and_iff_left rfl]
  by_cases hin : InSection (nType m e)
  · rw [kindOf_inSection hin, kindOf_inSection hin, ← foundSection_eq he hin]
    simp only [hin, true_imp_iff]
    exact ⟨letter_inSection_inj, fun h => by rw [h]⟩
  · rw [kindOf_not_inSection hin (foundSection m x ptr e)]
    exact iff_of_true rfl fun h => absurd h hin

/-- In a well-formed image the letter of an entry is that of its kind, and no stab is ever shown,
if and only if the entry is not a stab with `N_EXT`, and its section, if it is in one, is reached
or is one of those without a letter of their own. -/
theorem getSymbolLetter_kind (hwf : WellFormed m x ptr sym)
    (hcov : ∀ lc ∈ commands m x ptr, Covers m x lc) (hi : i < nsyms m sym) :
    let e := nlistAt m x ptr sym i
    LettersRight m x ptr e ↔ ¬ (IsStab (nType m e) ∧ IsExternal (nType m e)) ∧
      (InSection (nType m e) →
        nSect m e ≤ (reachedSections m x ptr).length ∨ entrySection m x ptr e = .other) := by
  intro e
  have hseg : WfSegments m x ptr := ⟨hwf.header, hwf.command, hcov⟩
  have he : WfEntry m x ptr e := ⟨nlistAt_add_le hwf.table hi, hwf.table.sect i hi⟩
  by_cases hstab : IsStab (nType m e)
  · have hnotIn : ¬ InSection (nType m e) := fun h => hstab h.1
    rw [lettersRight_stab hseg he hstab]
    simp [hstab, hnotIn]
  · rw [lettersRight_plain hseg he hstab]
    simp [hstab]

/-- A file with one symbol, a stab of a function (`N_FUN`) with `N_EXT`. -/
def stabFile : ObjectFile where
  cpu := [CPU_TYPE_X86_64, 3, 1]
  flags := [0, 0]
  before := []
  symoff := 56
  symbols := [⟨0, 0x25, 0, 0, 0⟩]
  stroff := 72
  strings := [0]
  after := []

theorem stabFile_wellFormed : WellFormed (stabFile.image .little true) true 0 32 := by
  have hwf : stabFile.Wf true := by
    refine ⟨⟨rfl, rfl, by decide, fun c hc => ?_⟩, by simp [stabFile], by simp [stabFile],
      by decide, by decide, by decide, by decide, fun s hs => ?_, by decide, by decide,
      by decide⟩
    · rw [show c = stabFile.symtab by simpa [ObjectFile.toDescription, stabFile] using hc]
      exact ⟨by decide, by decide, by decide, by decide, rfl⟩
    · rw [List.mem_singleton.mp hs]
      exact ⟨by decide, by decide, by decide, by decide, by decide⟩
  exact hwf.wellFormed (hwf.encodes rfl rfl (Nat.le_refl _))

theorem getSymbolLetter_kind_smallFile :
    LettersRight ((smallFile true).image .little true) true 0 208 := by
  refine (getSymbolLetter_kind (i := 0) ((smallFile_wf true).wellFormed
    (smallFile_encodes .little true)) smallFile_segments.covers (by decide +kernel)).mpr ?_
  decide +kernel

/-- The carriage return that the code makes of the letter `-` is shown. -/
theorem stabFile_shown :
    ¬ ∀ m x ptr sym i, WellFormed m x ptr sym → (∀ lc ∈ commands m x ptr, Covers m x lc) →
      i < nsyms m sym → LettersRight m x ptr (nlistAt m x ptr sym i) := by
  intro h
  have hright : LettersRight (stabFile.image .little true) true 0 56 :=
    h _ true 0 32 0 stabFile_wellFormed (by decide +kernel) (by decide +kernel)
  have hseg : WfSegments (stabFile.image .little true) true 0 :=
    ⟨stabFile_wellFormed.header, stabFile_wellFormed.command, by decide +kernel⟩
  exact (lettersRight_stab hseg ⟨by decide +kernel, by decide +kernel⟩ (by decide +kernel)).mp
    hright (by decide +kernel)

end NmOtool.Nm
