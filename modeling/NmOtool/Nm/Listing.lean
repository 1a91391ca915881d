import NmOtool.Nm.Main
import NmOtool.Nm.Host
import NmOtool.Nm.Order

/-!
# ft_nm: from the records to the listing

What sorting and printing make of a list of records whose names end and whose values lie in the
map (`Readable`). A record is read as a `Shown`: name, letter and value. The sort orders these by
`wrongOrder`, the filter looks at the letters, and every shown record is one line.
-/

namespace NmOtool.Nm

open MachO Checked

variable {m : Buffer} {x : Bool} {flags : List UInt8} {list : List TNm} {r : TNm}

/-- What a record shows. -/
structure Shown where
  name : List UInt8
  letter : UInt8
  value : Nat
  deriving DecidableEq, Repr

def shown (m : Buffer) (r : TNm) : Shown :=
  ⟨m.cstr r.name, r.type, m.le (wordSize r.is64) r.add⟩

/-- A record of a file of the width `x` whose name and value can be read. -/
structure Readable (m : Buffer) (x : Bool) (r : TNm) : Prop where
  is64 : r.is64 = x
  name : m.Terminated r.name
  value : r.add + wordSize x ≤ m.size

/-! ## The sort -/

/-- The two records stand in the wrong order. -/
def wrongOrder (reverse : Bool) (a b : Shown) : Bool :=
  let c := strcmp a.name b.name
  let d := int32 ((a.value : Int) - b.value)
  if reverse then c < 0 ∨ c = 0 ∧ d < 0 else c > 0 ∨ c = 0 ∧ d > 0

theorem exchanges_shown {reverse : Bool} {a b : TNm} (ha : Readable m x a) (hb : Readable m x b) :
    exchanges m reverse a b = wrongOrder reverse (shown m a) (shown m b) := by
  unfold exchanges wrongOrder addDifference shown
  rw [ha.is64, hb.is64]

theorem comparable_of_readable (h : ∀ r ∈ list, Readable m x r) : Comparable m list where
  name r hr := (h r hr).name
  address r hr s hs _ := (h s hs).is64 ▸ (h r hr).value

/-- The records in the order in which the flags list them. -/
def sorted (m : Buffer) (flags : List UInt8) (list : List TNm) : List TNm :=
  if ftStrchr flags 'p'.toUInt8 then list
  else exchangeSortBy
    (fun a b => wrongOrder (ftStrchr flags 'r'.toUInt8) (shown m a) (shown m b)) list

theorem sorted_perm : (sorted m flags list).Perm list := by
  unfold sorted
  split
  · rfl
  · exact exchangeSortBy_perm list

theorem sortNmList_ok (h : ∀ r ∈ list, Readable m x r) :
    sortNmList m list flags = .ok (sorted m flags list) := by
  rw [sortNmList, sorted]
  by_cases hp : ftStrchr flags 'p'.toUInt8 = true
  · rw [if_pos hp, if_pos hp]
    rfl
  · rw [if_neg hp, if_neg hp]
    by_cases hl : list = []
    · subst hl
      rfl
    · rw [if_pos hl, sortListByName_comparable (comparable_of_readable h)]
      exact congrArg _ (exchangeSortBy_congr list fun a ha b hb => exchanges_shown (h a ha) (h b hb))

/-! ## The printing -/

/-- The line of a record. -/
def lineOf (x : Bool) (flags : List UInt8) (r : Shown) : List UInt8 :=
  (if !ftStrchr flags 'u'.toUInt8 && !ftStrchr flags 'j'.toUInt8 then
    hexWord (wordSize x) r.value ++ ascii " " ++ [r.letter] ++ ascii " " else []) ++
    ftPrintfS r.name ++ ascii "\n"

/-- The records that the flags select, as they are shown. -/
def selected (m : Buffer) (flags : List UInt8) (list : List TNm) : List Shown :=
  (list.filter fun r => canShowList r.type flags).map (shown m)

theorem printOne_ok (h : Readable m x r) :
    printOne m flags r = .ok (lineOf x flags (shown m r)) := by
  have hv := h.value
  rw [← h.is64] at hv
  rw [printOne, ftStr_terminated h.name, hexdumpAddress_ok hv, lineOf]
  by_cases hf : (!ftStrchr flags 'u'.toUInt8 && !ftStrchr flags 'j'.toUInt8) = true
  · rw [if_pos hf, if_pos hf, ok_bind, pure_eq, ok_bind]
    simp only [ok_bind]
    rw [pure_eq, h.is64, shown, h.is64]
  · rw [if_neg hf, if_neg hf, pure_eq, ok_bind]
    simp only [ok_bind]
    rw [pure_eq, shown]

theorem selected_cons : selected m flags (r :: list) =
    if canShowList r.type flags then shown m r :: selected m flags list
    else selected m flags list := by
  unfold selected
  rw [List.filter_cons]
  split_ifs <;> rfl

/-- Only what is shown is read. -/
theorem printRecords_ok (h : ∀ r ∈ list, canShowList r.type flags = true → Readable m x r) :
    printRecords m flags list = .ok ((selected m flags list).flatMap (lineOf x flags)) := by
  induction list with
  | nil => rfl
  | cons r next ih =>
    rw [printRecords, ih fun r hr => h r (List.mem_cons_of_mem _ hr), selected_cons]
    by_cases hs : canShowList r.type flags = true
    · rw [if_pos hs, if_pos hs, printOne_ok (h r List.mem_cons_self hs), ok_bind,
        List.flatMap_cons]
      simp only [ok_bind]
      rfl
    · rw [if_neg hs, if_neg hs]
      rfl

theorem terminated_of_printOne {line : List UInt8} (h : printOne m flags r = .ok line) :
    m.Terminated r.name := by
  unfold printOne at h
  simp only at h
  rcases ite_eq_iff.mp h with ⟨-, h⟩ | ⟨-, h⟩
  · obtain ⟨address, -, h⟩ := bind_eq_ok.mp h
    obtain ⟨fields, -, h⟩ := bind_eq_ok.mp h
    obtain ⟨name, hname, -⟩ := bind_eq_ok.mp h
    exact terminated_of_ftStrlenFrom hname
  · obtain ⟨fields, -, h⟩ := bind_eq_ok.mp h
    obtain ⟨name, hname, -⟩ := bind_eq_ok.mp h
    exact terminated_of_ftStrlenFrom hname

theorem terminated_of_printRecords {out : List UInt8} (h : printRecords m flags list = .ok out) :
    ∀ r ∈ list, canShowList r.type flags = true → m.Terminated r.name := by
  induction list generalizing out with
  | nil => simp
  | cons r next ih =>
    unfold printRecords at h
    simp only [ite_bind] at h
    obtain ⟨line, hline, h⟩ := bind_eq_ok.mp h
    obtain ⟨rest, hrest, -⟩ := bind_eq_ok.mp h
    rintro s hs hshow
    rcases List.mem_cons.mp hs with rfl | hs
    · rw [if_pos hshow] at hline
      exact terminated_of_printOne hline
    · exact ih hrest s hs hshow

/-! ## The run on a host-order thin image -/

theorem record_readable {ptr sym i : Nat} (hwf : WellFormed m x ptr sym) (hi : i < nsyms m sym)
    (hc : EntryChecked m x ptr sym i) : Readable m x (record m x ptr sym i) := by
  have hent := nlistAt_add_le hwf.table hi
  refine ⟨rfl, ?_, ?_⟩
  · -- the pointer through an `int` lies at the name or before it, and so ends where the name does
    obtain ⟨q, h1, h2, h3⟩ := hwf.table.terminated hi
    refine ⟨q, Nat.le_trans ?_ h1, h2, h3⟩
    have hbmod : int32 (strx m (nlistAt m x ptr sym i)) ≤ strx m (nlistAt m x ptr sym i) := by
      unfold int32
      rw [Int.bmod_def]
      split <;> omega
    unfold record nameRef nameAt
    simp only
    omega
  · change nlistAt m x ptr sym i + 8 + wordSize x ≤ m.size
    cases x <;>
      simp only [nlistSize, wordSize, Bool.false_eq_true, if_false, if_true] at hent ⊢ <;> omega

theorem records_readable {ptr sym : Nat} (hwf : WellFormed m x ptr sym)
    (h : Listed m x ptr sym) : ∀ r ∈ records m x ptr sym, Readable m x r := by
  intro r hr
  obtain ⟨i, hi, rfl⟩ := List.mem_map.mp hr
  rw [List.mem_range] at hi
  exact record_readable hwf hi (h.2 i hi)

/-- The magic number sends a host-order image of the width `x` to `handle_not_fat`. -/
theorem WellFormed.dispatch {sym : Nat} (hwf : WellFormed m x 0 sym) :
    m.field 4 0 = .ok (m.le 4 0) ∧ notValidFile (m.le 4 0) = false ∧
      isFatFile (m.le 4 0) = false ∧ is64File (m.le 4 0) = x ∧
      shouldSwapFile (m.le 4 0) = false := by
  have h32 := hwf.header
  refine ⟨Buffer.field_ok (by omega), ?_⟩
  rw [hwf.magic]
  cases x <;> decide

/-- The listing of a file: an empty line between files, the file's name when there are several,
the lines of the selected records in the order of the flags. -/
def listing (m : Buffer) (x : Bool) (name : List UInt8) (num : TNu) (flags : List UInt8)
    (list : List TNm) : List UInt8 :=
  printNewLine num.multi num.first ++
    ((if num.multi then ftPrintfS name ++ ascii ":\n" else []) ++
      (selected m flags (sorted m flags list)).flatMap (lineOf x flags))

theorem nm_listed {sym : Nat} {name : List UInt8} {num : TNu} (hwf : WellFormed m x 0 sym)
    (h : Listed m x 0 sym) (hn : 0 < nsyms m sym) :
    nm m name num flags = .ok ⟨0, listing m x name num flags (records m x 0 sym), []⟩ := by
  obtain ⟨h1, h2, h3, h4, h5⟩ := WellFormed.dispatch hwf
  have hle := hwf.symtab_le
  have hhs := le_headerSize x
  have h24 := h.1
  have hread := records_readable hwf h
  have hperm : (sorted m flags (records m x 0 sym)).Perm _ := sorted_perm
  have hne : ¬ sorted m flags (records m x 0 sym) = [] := by
    intro e
    have hlen := hperm.length_eq
    rw [e] at hlen
    simp [records] at hlen
    omega
  rw [nm, if_pos ((isSafe_natCast m 32).mpr (by unfold symtabSize at h24; omega)), h1, ok_bind,
    if_neg (by rw [h2]; decide)]
  simp only [h3, h4, h5]
  rw [handleNm, if_neg Bool.false_ne_true, handleNotFat_host hwf, if_pos h, ok_bind]
  simp only
  rw [sortNmList_ok hread, ok_bind, printNmList, if_neg hne,
    printRecords_ok fun r hr _ => hread r (hperm.subset hr)]
  rfl

theorem nm_malformed {sym : Nat} (name : List UInt8) (num : TNu) (flags : List UInt8)
    (hwf : WellFormed m x 0 sym) (h : ¬ (Listed m x 0 sym ∧ 0 < nsyms m sym)) :
    ∃ res, nm m name num flags = .ok res ∧ res.ret = -1 := by
  obtain ⟨h1, h2, h3, h4, h5⟩ := WellFormed.dispatch hwf
  unfold nm
  by_cases hs : isSafe m (32 : Nat)
  · have hempty : handleNotFat m x false 0 = .ok ([], m) := by
      rw [handleNotFat_host hwf]
      by_cases hl : Listed m x 0 sym
      · rw [if_pos hl, records, show nsyms m sym = 0 by
          rcases Nat.eq_zero_or_pos (nsyms m sym) with h0 | h0
          · exact h0
          · exact absurd ⟨hl, h0⟩ h]
        rfl
      · rw [if_neg hl]
    rw [if_pos hs, h1, ok_bind, if_neg (by rw [h2]; decide)]
    simp only [h3, h4, h5]
    rw [handleNm, if_neg Bool.false_ne_true, hempty, ok_bind]
    simp only
    rw [sortNmList_ok (x := x) (by simp), ok_bind, show sorted m flags [] = [] from
      List.Perm.eq_nil sorted_perm]
    exact ⟨_, rfl, rfl⟩
  · rw [if_neg hs]
    exact ⟨_, rfl, rfl⟩

/-- Success on a well-formed file: a zero return, no error, the headings, and one line for each
selected record. This is what happens exactly when the symbol table is not empty and no bounds
check fails; in a file below 2 GiB none does. -/
theorem nm_succeeds {sym : Nat} (name : List UInt8) (num : TNu) (flags : List UInt8)
    (hwf : WellFormed m x 0 sym) :
    ((∃ list, list.Perm (records m x 0 sym) ∧ nm m name num flags = .ok
        { ret := 0
          out := printNewLine num.multi num.first ++
            ((if num.multi then ftPrintfS name ++ ascii ":\n" else []) ++
              (selected m flags list).flatMap (lineOf x flags))
          err := [] }) ↔
      0 < nsyms m sym ∧ Listed m x 0 sym) ∧
    (m.size < 2 ^ 31 → Listed m x 0 sym) := by
  refine ⟨⟨fun ⟨list, _, hr⟩ => ?_, fun ⟨hn, hl⟩ => ?_⟩, listed_of_lt hwf⟩
  · by_contra hno
    obtain ⟨res, he, hret⟩ := nm_malformed name num flags hwf
      fun e => hno ⟨e.2, e.1⟩
    rw [he] at hr
    cases hr
    exact absurd hret (by simp)
  · exact ⟨_, sorted_perm, nm_listed hwf hl hn⟩

theorem nm_succeeds_smallFile :
    let m := (smallFile true).image .little true
    let sym := (smallFile true).symtabAt true
    ∃ list, list.Perm (records m true 0 sym) ∧ nm m (ascii "a.o") ⟨false, true⟩ [] = .ok
      { ret := 0
        out := (selected m [] list).flatMap (lineOf true [])
        err := [] } := by
  have hwf := (smallFile_wf true).wellFormed (smallFile_encodes .little true)
  have h := nm_succeeds (ascii "a.o") ⟨false, true⟩ [] hwf
  exact h.1.mpr ⟨by decide +kernel, h.2 (by decide +kernel)⟩

/-- A file whose only load command is an LC_SYMTAB of no symbols. -/
def noSymbols : ObjectFile where
  cpu := [CPU_TYPE_X86_64, 3, 1]
  flags := [0, 0]
  before := []
  symoff := 56
  symbols := []
  stroff := 56
  strings := []
  after := []

theorem noSymbols_wellFormed : WellFormed (noSymbols.image .little true) true 0 32 := by
  have hwf : noSymbols.Wf true := by
    refine ⟨⟨rfl, rfl, by decide, fun c hc => ?_⟩, by simp [noSymbols], by simp [noSymbols],
      by decide, by decide, by decide, by decide, by simp [noSymbols], by decide, by decide,
      by decide⟩
    rw [show c = noSymbols.symtab by simpa [ObjectFile.toDescription, noSymbols] using hc]
    exact ⟨by decide, by decide, by decide, by decide, rfl⟩
  exact hwf.wellFormed (hwf.encodes rfl rfl (Nat.le_refl _))

/-- An empty symbol table is reported as a malformed file. -/
theorem nm_noSymbols :
    ¬ ∀ m x sym name num flags, WellFormed m x 0 sym →
      ∃ list, list.Perm (records m x 0 sym) ∧ nm m name num flags = .ok
        { ret := 0
          out := printNewLine num.multi num.first ++
            ((if num.multi then ftPrintfS name ++ ascii ":\n" else []) ++
              (selected m flags list).flatMap (lineOf x flags))
          err := [] } := by
  intro h
  obtain ⟨list, -, hr⟩ := h _ _ _ [] ⟨false, true⟩ [] noSymbols_wellFormed
  obtain ⟨res, he, hret⟩ := nm_malformed [] ⟨false, true⟩ []
    noSymbols_wellFormed fun e => absurd e.2 (by decide +kernel)
  rw [he] at hr
  cases hr
  exact absurd hret (by simp)

end NmOtool.Nm
