import NmOtool.Nm.Listing

/-!
# ft_nm: 32-bit and 64-bit images

A `Picture` is what an image of either width says about its sections and symbols. The records
of a host-order image, sorted and filtered, are a function of its picture: the width is gone
once every name and value has been read.
-/

namespace NmOtool.Nm

open MachO Checked

variable {m : Buffer} {x : Bool} {ptr sym i : Nat} {flags : List UInt8}

/-! ## Pictures -/

/-- A symbol as an image of either width has it. -/
structure PictureSymbol where
  name : List UInt8
  type : UInt8
  sect : Nat
  desc : Nat
  value : Nat
  deriving DecidableEq, Repr

/-- The names of the sections, section and segment, and the symbols. -/
structure Picture where
  sections : List (List UInt8 × List UInt8)
  symbols : List PictureSymbol
  deriving DecidableEq, Repr

def symbolOf (m : Buffer) (x : Bool) (ptr sym i : Nat) : PictureSymbol :=
  let e := nlistAt m x ptr sym i
  ⟨m.cstr (nameAt m x ptr sym i), nType m e, nSect m e, nDesc m e, nValue m x e⟩

def picture (m : Buffer) (x : Bool) (ptr sym : Nat) : Picture where
  sections := (sections m x ptr).map fun sec => (m.bytes sec 16, m.bytes (sec + 16) 16)
  symbols := (List.range (nsyms m sym)).map (symbolOf m x ptr sym)

/-- The letter of a section called `(seg,sect)`. -/
def namesLetter (names : List UInt8 × List UInt8) : UInt8 :=
  let is (sect seg : List UInt8) : Bool :=
    names.1.take (sect.length + 1) == sect ++ [0] && names.2.take (seg.length + 1) == seg ++ [0]
  if is SECT_TEXT SEG_TEXT then 't'.toUInt8
  else if is SECT_DATA SEG_DATA then 'd'.toUInt8
  else if is SECT_BSS SEG_DATA then 'b'.toUInt8
  else 's'.toUInt8

/-- The record of a symbol. -/
def Picture.show (d : Picture) (s : PictureSymbol) : Shown where
  name := s.name
  letter := classify s.type (s.desc &&& N_WEAK_REF != 0) s.value
    ((d.sections[s.sect - 1]?).elim 's'.toUInt8 namesLetter)
  value := s.value

theorem headerLetter_eq (sec : Nat) :
    headerLetter m sec = namesLetter (m.bytes sec 16, m.bytes (sec + 16) 16) := by
  have key : ∀ seg sect : List UInt8, seg.length + 1 ≤ 16 → sect.length + 1 ≤ 16 →
      (IsNamed m sec seg sect ↔ ((m.bytes sec 16).take (sect.length + 1) == sect ++ [0] &&
        (m.bytes (sec + 16) 16).take (seg.length + 1) == seg ++ [0]) = true) := by
    intro seg sect h1 h2
    rw [IsNamed, hasName_iff h2, hasName_iff h1]
    simp
  unfold headerLetter namesLetter
  simp only [key SEG_TEXT SECT_TEXT (by decide) (by decide),
    key SEG_DATA SECT_DATA (by decide) (by decide), key SEG_DATA SECT_BSS (by decide) (by decide)]

/-- The letter of the symbol is the '-' that no flags show. -/
def Hidden (s : PictureSymbol) : Prop := N_STAB &&& s.type ≠ 0 ∧ N_EXT &&& s.type = 0

/-- The letters of sections, and the letters before the extern bit is looked at. -/
def sectLetters : List UInt8 := ascii "tdbs"

def preLetters : List UInt8 := ascii "-cuasiw?"

theorem sectLetter_mem (d : Picture) (n : Nat) :
    (d.sections[n]?).elim 's'.toUInt8 namesLetter ∈ sectLetters := by
  have hnames : ∀ names, namesLetter names ∈ sectLetters := by
    intro names
    unfold namesLetter
    simp only
    split_ifs <;> decide
  cases d.sections[n]? with
  | none => decide
  | some names => exact hnames names

theorem preLetter_mem (t : UInt8) (weak : Bool) (value : Nat) :
    preLetter t weak value ∈ preLetters := by
  unfold preLetter
  simp only
  split_ifs <;> decide

theorem preLetter_eq_dash {t : UInt8} {weak : Bool} {value : Nat} :
    preLetter t weak value = '-'.toUInt8 ↔ N_STAB &&& t ≠ 0 := by
  unfold preLetter
  by_cases hs : N_STAB &&& t ≠ 0
  · rw [if_pos hs]
    exact iff_of_true rfl hs
  · rw [if_neg hs]
    refine iff_of_false ?_ hs
    split_ifs <;> decide

theorem classify_eq_dash {t : UInt8} {weak : Bool} {value : Nat} {a : UInt8}
    (ha : a ∈ sectLetters) :
    classify t weak value a = '-'.toUInt8 ↔ N_STAB &&& t ≠ 0 ∧ N_EXT &&& t = 0 := by
  have hpre := preLetter_mem t weak value
  have heq : preLetter t weak value = '-'.toUInt8 ↔ N_STAB &&& t ≠ 0 := preLetter_eq_dash
  rw [← heq, classify]
  generalize preLetter t weak value = p at hpre ⊢
  -- Neither a letter of a section nor an upper case letter is the dash.
  have hletters : ∀ p ∈ preLetters, ∀ a ∈ sectLetters,
      ((if p = 's'.toUInt8 then a else p) = '-'.toUInt8 ↔ p = '-'.toUInt8) ∧
      (if p = 's'.toUInt8 then a else p) - ('a'.toUInt8 - 'A'.toUInt8) ≠ '-'.toUInt8 ∧
      (p = '-'.toUInt8 → (if p = 's'.toUInt8 then a else p) ≠ '?'.toUInt8) := by
    decide +kernel
  obtain ⟨hdash, hupper, hq⟩ := hletters p hpre a ha
  generalize (if p = 's'.toUInt8 then a else p) = l at hdash hupper hq ⊢
  by_cases he : N_EXT &&& t = 0
  · rw [if_neg (by simp [he]), hdash]
    simp [he]
  · simp only [he, and_false, iff_false]
    split_ifs with hc
    · exact hupper
    · intro hd
      exact hc ⟨hq (hdash.mp hd), he⟩

theorem show_hidden (d : Picture) (s : PictureSymbol) :
    (d.show s).letter = '-'.toUInt8 ↔ Hidden s :=
  classify_eq_dash (sectLetter_mem d _)

/-! ## The records are a function of the picture -/

theorem shown_record (hwf : WellFormed m x ptr sym) (hsz : m.size < 2 ^ 32)
    (hfit : StrxFits m x ptr sym) (hi : i < nsyms m sym) :
    shown m (record m x ptr sym i) = (picture m x ptr sym).show (symbolOf m x ptr sym i) := by
  unfold shown record Picture.show symbolOf
  simp only [Shown.mk.injEq]
  refine ⟨by rw [nameRef_eq hfit hi, Int.toNat_natCast], ?_, rfl⟩
  unfold symbolLetter letterAt
  by_cases hin : InSection (nType m (nlistAt m x ptr sym i))
  · obtain ⟨h1, -⟩ := hwf.table.sect i hi hin
    rw [lookup_eq hwf.command h1 (UInt8.toNat_lt _) hsz hwf.header, picture]
    simp only [List.getElem?_map]
    cases (sections m x ptr)[nSect m (nlistAt m x ptr sym i) - 1]? with
    | none => rfl
    | some sec => simp only [Option.elim_some, Option.map_some, headerLetter_eq]
  · exact classify_of_not_inSection hin _ _

def sortShown (flags : List UInt8) (list : List Shown) : List Shown :=
  if ftStrchr flags 'p'.toUInt8 then list
  else exchangeSortBy (wrongOrder (ftStrchr flags 'r'.toUInt8)) list

def selectShown (flags : List UInt8) (list : List Shown) : List Shown :=
  list.filter fun r => canShowList r.letter flags

theorem sorted_shown (list : List TNm) :
    (sorted m flags list).map (shown m) = sortShown flags (list.map (shown m)) := by
  unfold sorted sortShown
  split
  · rfl
  · have h : exchangeSortBy (wrongOrder (ftStrchr flags 'r'.toUInt8)) (list.map (shown m)) =
        (exchangeSortBy (fun a b => wrongOrder (ftStrchr flags 'r'.toUInt8) (shown m a) (shown m b))
          list).map (shown m) := exchangeSortBy_map list fun _ _ _ _ => rfl
    exact h.symm

theorem selected_shown (list : List TNm) :
    selected m flags list = selectShown flags (list.map (shown m)) := by
  rw [selected, selectShown, List.filter_map]
  rfl

/-- The (name, letter, value) records of an image, after `handle_not_fat`, the sort and the
filter. -/
def listShown (m : Buffer) (x : Bool) (flags : List UInt8) : Checked (List Shown) := do
  let (list, m) ← handleNotFat m x false 0
  let list ← sortNmList m list flags
  pure (selected m flags list)

/-- What an image of the picture prints when no check fails. -/
def Picture.list (d : Picture) (flags : List UInt8) : List Shown :=
  selectShown flags (sortShown flags (d.symbols.map d.show))

theorem listShown_picture (hwf : WellFormed m x 0 sym) (hsz : m.size < 2 ^ 32) :
    listShown m x flags =
      .ok (if StrxFits m x 0 sym then (picture m x 0 sym).list flags else []) := by
  rw [listShown, handleNotFat_host hwf, ok_bind]
  simp only [listed_iff hwf hsz]
  by_cases hfit : StrxFits m x 0 sym
  · have hrec : (records m x 0 sym).map (shown m) =
        (picture m x 0 sym).symbols.map (picture m x 0 sym).show := by
      rw [records, picture, List.map_map, List.map_map]
      apply List.map_congr_left
      intro i hi
      exact shown_record hwf hsz hfit (List.mem_range.mp hi)
    rw [if_pos hfit, if_pos hfit,
      sortNmList_ok (records_readable hwf ((listed_iff hwf hsz).mpr hfit)), ok_bind, pure_eq,
      selected_shown, sorted_shown, hrec]
    rfl
  · rw [if_neg hfit, if_neg hfit, sortNmList_ok (x := x) (by simp), ok_bind, pure_eq,
      selected_shown, sorted_shown, List.map_nil, sortShown]
    split <;> rfl

/-- Without sorting, the list is empty only if every symbol is hidden. -/
theorem list_eq_nil (d : Picture) : (∀ flags, d.list flags = []) ↔ ∀ s ∈ d.symbols, Hidden s := by
  have hshow : ∀ flags r, r ∈ d.list flags →
      ∃ s ∈ d.symbols, d.show s = r ∧ canShowList r.letter flags := by
    intro flags r hr
    obtain ⟨hr, hshow⟩ := List.mem_filter.mp hr
    have hmem : r ∈ d.symbols.map d.show := by
      unfold sortShown at hr
      split at hr
      · exact hr
      · exact (exchangeSortBy_perm _).mem_iff.mp hr
    obtain ⟨s, hs, rfl⟩ := List.mem_map.mp hmem
    exact ⟨s, hs, rfl, hshow⟩
  constructor
  · intro h s hs
    by_contra hh
    have hmem : d.show s ∈ d.list (ascii "p") := by
      refine List.mem_filter.mpr ⟨List.mem_map_of_mem hs, ?_⟩
      have hne : ((d.show s).letter == '-'.toUInt8) = false :=
        beq_false_of_ne fun e => hh ((show_hidden d s).mp e)
      rw [canShowList, hne]
      rfl
    rw [h] at hmem
    exact List.not_mem_nil hmem
  · intro h flags
    apply List.eq_nil_iff_forall_not_mem.mpr
    intro r hr
    obtain ⟨s, hs, rfl, hc⟩ := hshow flags r hr
    rw [canShowList, if_pos (beq_iff_eq.mpr ((show_hidden d s).mpr (h s hs)))] at hc
    exact Bool.false_ne_true hc

/-! ## The two widths -/

/-- `m` is a well-formed host-order image of the width `x` of the picture `d`. -/
structure Depicts (m : Buffer) (x : Bool) (sym : Nat) (d : Picture) : Prop where
  wf : WellFormed m x 0 sym
  picture : picture m x 0 sym = d

/-- In files that `g_map_size` measures, the 32-bit and the 64-bit image of a picture give the
same records under all flags, unless a string offset of only one of them is rejected and there
is a symbol to show. -/
theorem widths_agree {m₃₂ m₆₄ : Buffer} {sym₃₂ sym₆₄ : Nat} {d : Picture}
    (h₃₂ : Depicts m₃₂ false sym₃₂ d) (h₆₄ : Depicts m₆₄ true sym₆₄ d)
    (hsz₃₂ : m₃₂.size < 2 ^ 32) (hsz₆₄ : m₆₄.size < 2 ^ 32) :
    (∀ flags, ∃ list, listShown m₃₂ false flags = .ok list ∧ listShown m₆₄ true flags = .ok list) ↔
      ((StrxFits m₃₂ false 0 sym₃₂ ↔ StrxFits m₆₄ true 0 sym₆₄) ∨ ∀ s ∈ d.symbols, Hidden s) := by
  simp only [listShown_picture h₃₂.wf hsz₃₂, listShown_picture h₆₄.wf hsz₆₄, h₃₂.picture,
    h₆₄.picture, Checked.ok.injEq]
  rw [← list_eq_nil]
  by_cases c₃₂ : StrxFits m₃₂ false 0 sym₃₂ <;> by_cases c₆₄ : StrxFits m₆₄ true 0 sym₆₄ <;>
    simp [c₃₂, c₆₄]

theorem smallFile_depicts : Depicts ((smallFile false).image .little false) false 152
      (picture ((smallFile true).image .little true) true 0 184) ∧
    Depicts ((smallFile true).image .little true) true 184
      (picture ((smallFile true).image .little true) true 0 184) :=
  ⟨⟨(smallFile_wf false).wellFormed (smallFile_encodes .little false), by decide +kernel⟩,
    (smallFile_wf true).wellFormed (smallFile_encodes .little true), rfl⟩

theorem widths_agree_smallFile :
    ∃ list, listShown ((smallFile false).image .little false) false (ascii "r") = .ok list ∧
      listShown ((smallFile true).image .little true) true (ascii "r") = .ok list :=
  (widths_agree smallFile_depicts.1 smallFile_depicts.2 (by decide +kernel)
    (by decide +kernel)).mpr (.inl (by decide +kernel)) _

/-- In a file of 4 GiB and 100 bytes the 64-bit image has no records at all. -/
theorem widths_differ :
    ¬ ∀ m₃₂ m₆₄ sym₃₂ sym₆₄ d, Depicts m₃₂ false sym₃₂ d → Depicts m₆₄ true sym₆₄ d →
      (∀ s ∈ d.symbols, s.value < 2 ^ 32) →
      ∀ flags, listShown m₃₂ false flags = listShown m₆₄ true flags := by
  intro h
  have hwf : WellFormed (.ofBytes (2 ^ 32 + 100) ((smallFile true).bytes .little true)) true 0 184 :=
    (smallFile_wf true).wellFormed
      ((smallFile_wf true).encodes rfl rfl (by decide +kernel))
  have he := h _ _ _ _ _ smallFile_depicts.1 ⟨hwf, by decide +kernel⟩ (by decide +kernel) []
  have hlen := congrArg (fun r => match r with
    | .ok list => list.length
    | .fault => 0) he
  exact absurd hlen (by decide +kernel)

end NmOtool.Nm
