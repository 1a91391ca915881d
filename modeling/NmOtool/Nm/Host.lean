import NmOtool.Nm.Symtab
import NmOtool.MachO.Encode

/-!
# ft_nm: host-order runs on a thin image

A run with `should_swap = 0` never writes, so on a well-formed image each function of the model
returns a value that can be read off the image. `getSection` finds the section header with the
given number, `getSymbolLetter` classifies the symbol by it, and `listSymtab` is a loop whose only
way to fail is a bounds check of its own (`EntryChecked`).
-/

namespace NmOtool.Nm

open MachO

variable {m : Buffer} {x : Bool} {ptr lc sec i n count : Nat}

/-! ## Section lookup -/

/-- The offset of a section in its segment: no wrap, as the number is a byte. -/
theorem sectionIndex (h : count < i) (hi : i < 256) :
    u32 (u32 ((i : Int) - count - 1) * sectionSize x) = (i - count - 1) * sectionSize x := by
  have h1 : u32 ((i : Int) - count - 1) = i - count - 1 := by
    rw [show (i : Int) - count - 1 = ((i - count - 1 : Nat) : Int) by omega]
    exact u32_natCast (by omega)
  have h2 : (i - count - 1) * sectionSize x < 2 ^ 32 := by
    cases x <;> simp only [sectionSize, Bool.false_eq_true, if_false, if_true] <;> omega
  rw [h1, show ((i - count - 1 : Nat) : Int) * (sectionSize x : Nat) =
    (((i - count - 1) * sectionSize x : Nat) : Int) by push_cast; rfl]
  exact u32_natCast h2

theorem section_inside {add k : Nat} (h : lc + segmentSize x + add * sectionSize x ≤ m.size)
    (hk : k < add) : lc + segmentSize x + k * sectionSize x + sectionSize x ≤ m.size := by
  have : (k + 1) * sectionSize x ≤ add * sectionSize x := Nat.mul_le_mul_right _ hk
  rw [Nat.add_mul] at this
  omega

theorem nsects_lt {add : Nat} (h : lc + segmentSize x + add * sectionSize x ≤ m.size)
    (hsz : m.size < 2 ^ 32) : 256 + add < 2 ^ 32 := by
  cases x <;> simp only [sectionSize, segmentSize, Bool.false_eq_true, if_false, if_true] at h <;>
    omega

/-- The address of the section header with the number `i`, in the segment at `lc` with `count`
sections behind it. -/
def headerAt (x : Bool) (lc i count : Nat) : Nat :=
  lc + segmentSize x + u32 (u32 ((i : Int) - count - 1) * sectionSize x)

theorem sectionsAt_length {c : Nat} (h : IsSegment m c) :
    (sectionsAt m x c).length = nsects m x c := by
  rw [sectionsAt, if_pos h, List.length_map, List.length_range]

/-- The header that the lookup computes in the segment that has the number. -/
theorem headerAt_eq (hseg : IsSegment m lc) (h1 : count < i) (h2 : i ≤ count + nsects m x lc)
    (h256 : i < 256) : (sectionsAt m x lc)[i - count - 1]? = some (headerAt x lc i count) := by
  rw [sectionsAt, if_pos hseg, List.getElem?_map, List.getElem?_range (by omega), headerAt,
    sectionIndex h1 h256]
  rfl

/-! One command of the lookup. -/

theorem getSectionFrom_segment {s : Bool} (h : isSafe m lc) (hseg : IsSegment m lc)
    (hss : isSegmantSafe m lc x) :
    getSectionFrom s x i (n + 1) lc count m =
      let m' := segmentImage s x m lc
      let next := u32 (count + nsects m' x lc)
      if i ≤ next then .ok (some (headerAt x lc i count), m')
      else getSectionFrom s x i n (lc + cmdsize m' lc) next m' := by
  have hle := ((isSegmantSafe_iff m lc x).mp hss).trans (mapSize_le m)
  have hoff := nsectsOffset_lt x
  have h56 := le_segmentSize x
  rw [getSectionFrom, if_pos h, Buffer.field_ok (by omega), Checked.ok_bind,
    if_pos (show m.le 4 lc = LC_SEGMENT ∨ m.le 4 lc = LC_SEGMENT_64 from hseg), if_pos hss]
  simp only [Checked.ite_bind]
  rw [segmentImage_ok hle, Checked.ok_bind, getAdd,
    Buffer.field_ok (by rw [size_segmentImage]; omega), Checked.ok_bind]
  apply if_congr Iff.rfl rfl
  rw [Buffer.field_ok (by rw [size_segmentImage]; omega), Checked.ok_bind]
  rfl

theorem getSectionFrom_other {s : Bool} (h : isSafe m lc) (hseg : ¬ IsSegment m lc)
    (h8 : lc + 8 ≤ m.size) :
    getSectionFrom s x i (n + 1) lc count m =
      getSectionFrom s x i n (lc + cmdsize m lc) count m := by
  rw [getSectionFrom, if_pos h, Buffer.field_ok (by omega), Checked.ok_bind,
    if_neg (show ¬ (m.le 4 lc = LC_SEGMENT ∨ m.le 4 lc = LC_SEGMENT_64) from hseg),
    Buffer.field_ok (by omega), Checked.ok_bind]
  rfl

theorem getSectionFrom_next (hs : isSafe m lc) (hseg : IsSegment m lc)
    (hss : isSegmantSafe m lc x) :
    getSectionFrom false x i (n + 1) lc count m =
      if i ≤ u32 (count + nsects m x lc) then .ok (some (headerAt x lc i count), m)
      else getSectionFrom false x i n (lc + cmdsize m lc) (u32 (count + nsects m x lc)) m :=
  getSectionFrom_segment hs hseg hss

theorem getSectionFrom_unreached (hlc : WfCommand m x lc) (hs : isSafe m lc)
    (hseg : IsSegment m lc) (hss : ¬ isSegmantSafe m lc x) :
    getSectionFrom false x i (n + 1) lc count m = .ok (none, m) := by
  have hlt := hlc.lt
  rw [getSectionFrom, if_pos hs, Buffer.field_ok (by omega), Checked.ok_bind,
    if_pos (show m.le 4 lc = LC_SEGMENT ∨ m.le 4 lc = LC_SEGMENT_64 from hseg), if_neg hss]
  rfl

/-- The lookup never leaves the file; in a file that `g_map_size` can measure it finds exactly
the section with the number `i`. -/
theorem getSectionFrom_host (hwf : ∀ c ∈ commandsFrom m n lc, WfCommand m x c) (hi : count < i)
    (h256 : i < 256) :
    ∃ r, getSectionFrom false x i n lc count m = .ok (r, m) ∧
      (∀ sec, r = some sec → sec + sectionSize x ≤ m.size) ∧
      (m.size < 2 ^ 32 →
        r = ((commandsFrom m n lc).flatMap (sectionsAt m x))[i - count - 1]?) := by
  induction n generalizing lc count with
  | zero => exact ⟨none, rfl, by simp, by simp [commandsFrom]⟩
  | succ n ih =>
    have hlc := hwf lc List.mem_cons_self
    have hlt := hlc.lt
    have hnext := fun c hc => hwf c (List.mem_cons_of_mem lc hc)
    by_cases hs : isSafe m lc
    · by_cases hseg : IsSegment m lc
      · have hsec := hlc.sections hseg
        by_cases hss : isSegmantSafe m lc x
        · have hadd : u32 (count + nsects m x lc) ≤ count + nsects m x lc := by
            unfold u32
            omega
          rw [getSectionFrom_next hs hseg hss]
          by_cases hle : i ≤ u32 (count + nsects m x lc)
          · have hget := headerAt_eq hseg hi (hle.trans hadd) h256
            have hk : i - count - 1 < nsects m x lc := by omega
            rw [if_pos hle]
            refine ⟨_, rfl, ?_, fun _ => ?_⟩
            · rintro sec ⟨⟩
              rw [headerAt, sectionIndex hi h256]
              exact section_inside hsec hk
            · rw [commandsFrom, List.flatMap_cons,
                List.getElem?_append_left (by rw [sectionsAt_length hseg]; exact hk), hget]
          · rw [if_neg hle]
            obtain ⟨r, h1, h2, h3⟩ := ih hnext (Nat.lt_of_not_le hle)
            refine ⟨r, h1, h2, fun hsz => ?_⟩
            have hwrap : u32 (count + nsects m x lc) = count + nsects m x lc := by
              have := nsects_lt hsec hsz
              exact u32_natCast (n := count + nsects m x lc) (by omega)
            rw [h3 hsz, commandsFrom, List.flatMap_cons,
              List.getElem?_append_right (by rw [sectionsAt_length hseg]; omega),
              sectionsAt_length hseg, hwrap]
            congr 1
            omega
        · refine ⟨none, getSectionFrom_unreached hlc hs hseg hss, by simp,
            fun hsz => absurd ?_ hss⟩
          rw [isSegmantSafe_iff, mapSize_eq hsz]
          omega
      · obtain ⟨r, h1, h2, h3⟩ := ih hnext hi
        refine ⟨r, (getSectionFrom_other hs hseg (by omega)).trans h1, h2, fun hsz => ?_⟩
        rw [h3 hsz, commandsFrom, List.flatMap_cons, sectionsAt, if_neg hseg, List.nil_append,
          cmdsize]
    · rw [getSectionFrom, if_neg hs]
      refine ⟨none, rfl, by simp, fun hsz => absurd ?_ hs⟩
      rw [isSafe_natCast, mapSize_eq hsz]
      omega

theorem getSection_host (hwf : ∀ c ∈ commands m x ptr, WfCommand m x c) (hi : 0 < i)
    (h256 : i < 256) :
    ∃ r, getSection m ptr false x i = .ok (r, m) ∧
      (∀ sec, r = some sec → sec + sectionSize x ≤ m.size) ∧
      (m.size < 2 ^ 32 → ptr + 32 ≤ m.size → r = (sections m x ptr)[i - 1]?) := by
  unfold getSection
  by_cases hlc : isLcSafe m ptr x
  · obtain ⟨r, h1, h2, h3⟩ := getSectionFrom_host hwf hi h256
    rw [getLc_host hlc]
    exact ⟨r, h1, h2, fun hsz _ => h3 hsz⟩
  · rw [getLc_none hlc]
    refine ⟨none, rfl, by simp, fun hsz h32 => absurd ?_ hlc⟩
    rw [isLcSafe_iff, mapSize_eq hsz]
    split <;> omega

/-! ## Letters -/

/-- The letter of the section header at `sec`, in lower case. -/
def headerLetter (m : Buffer) (sec : Nat) : UInt8 :=
  if IsNamed m sec SEG_TEXT SECT_TEXT then 't'.toUInt8
  else if IsNamed m sec SEG_DATA SECT_DATA then 'd'.toUInt8
  else if IsNamed m sec SEG_DATA SECT_BSS then 'b'.toUInt8
  else 's'.toUInt8

/-- The letter of a symbol; `sect` is that of its section, if it is defined in one. -/
def classify (t : UInt8) (weak : Bool) (value : Nat) (sect : UInt8) : UInt8 :=
  let letter := preLetter t weak value
  let letter := if letter = 's'.toUInt8 then sect else letter
  if letter ≠ '?'.toUInt8 ∧ N_EXT &&& t ≠ 0 then letter - ('a'.toUInt8 - 'A'.toUInt8) else letter

/-- The letter of the symbol at `e` when its section header, if any, is `r`. -/
def letterAt (m : Buffer) (x : Bool) (e : Nat) (r : Option Nat) : UInt8 :=
  classify (nType m e) (nDesc m e &&& N_WEAK_REF != 0) (nValue m x e)
    (r.elim 's'.toUInt8 (headerLetter m))

theorem preLetter_eq_s {t : UInt8} {weak : Bool} {value : Nat} :
    preLetter t weak value = 's'.toUInt8 ↔ InSection t := by
  unfold preLetter InSection
  by_cases h0 : N_STAB &&& t = 0
  · rw [if_neg (by simpa using h0)]
    by_cases h1 : t &&& N_TYPE = N_SECT
    · rw [if_neg (by rw [h1]; decide), if_neg (by rw [h1]; decide), if_pos h1]
      simp [h0, h1]
    · rw [if_neg h1]
      simp only [h1, and_false, iff_false]
      split_ifs <;> decide
  · rw [if_pos h0]
    simp only [h0, false_and, iff_false]
    decide

/-- Only a symbol defined in a section depends on the letter of one. -/
theorem classify_of_not_inSection {t : UInt8} {weak : Bool} {value : Nat} (h : ¬ InSection t)
    (a b : UInt8) : classify t weak value a = classify t weak value b := by
  have hs : ¬ preLetter t weak value = 's'.toUInt8 := fun e => h (preLetter_eq_s.mp e)
  simp only [classify, if_neg hs]

/-- The two classifiers on the fields of an entry. -/
theorem preLetter_of_entry {e : Nat} :
    (if x then pre64 (m.byte (e + 4)) (m.le 2 (e + 6)) (m.le (wordSize x) (e + 8))
      else preSymbolLetter (m.byte (e + 4)) (m.le 2 (e + 6)) (m.le (wordSize x) (e + 8))) =
      preLetter (nType m e) (nDesc m e &&& N_WEAK_REF != 0) (nValue m x e) := by
  cases x <;> rfl

theorem sectionLetter_host (h : sec + sectionSize x ≤ m.size) :
    sectionLetter m sec = .ok (headerLetter m sec) := by
  have h68 : sec + 68 ≤ m.size := by
    cases x <;> simp only [sectionSize, Bool.false_eq_true, if_false, if_true] at h <;> omega
  have e1 : isNamed m sec SECT_TEXT SEG_TEXT = _ := isNamed_host
    (by decide) (by decide) (by change sec + 6 + 1 ≤ _; omega)
    (by change sec + 16 + 6 + 1 ≤ _; omega)
  have e2 : isNamed m sec SECT_DATA SEG_DATA = _ := isNamed_host
    (by decide) (by decide) (by change sec + 6 + 1 ≤ _; omega)
    (by change sec + 16 + 6 + 1 ≤ _; omega)
  have e3 : isNamed m sec SECT_BSS SEG_DATA = _ := isNamed_host
    (by decide) (by decide) (by change sec + 5 + 1 ≤ _; omega)
    (by change sec + 16 + 6 + 1 ≤ _; omega)
  rw [sectionLetter, e1, e2, e3, headerLetter]
  simp only [Checked.ok_bind, Checked.pure_eq, decide_eq_true_eq]
  split_ifs <;> rfl

/-- The letter of an entry that is not in a section does not depend on the byte order. -/
theorem getSymbolLetter_plain {e : Nat} {s : Bool} (he : e + nlistSize x ≤ m.size)
    (hin : ¬ InSection (nType m e)) :
    getSymbolLetter m ptr e s x = .ok (letterAt m x e none, m) := by
  have hsz : e + 8 + wordSize x ≤ m.size := by
    cases x <;>
      simp only [nlistSize, wordSize, Bool.false_eq_true, if_false, if_true] at he ⊢ <;> omega
  have hs : ¬ preLetter (nType m e) (nDesc m e &&& N_WEAK_REF != 0) (nValue m x e) =
      's'.toUInt8 := fun h => hin (preLetter_eq_s.mp h)
  rw [getSymbolLetter, Buffer.load_ok (by omega), Checked.ok_bind, Buffer.field_ok (by omega),
    Checked.ok_bind, Buffer.field_ok hsz, Checked.ok_bind]
  simp only [preLetter_of_entry]
  rw [if_neg hs, letterAt, classify, if_neg hs]
  simp only [Checked.ok_bind, Checked.pure_eq, Buffer.load_ok (show e + 4 < m.size by omega)]
  unfold nType
  split_ifs <;> rfl

/-- The letter of an entry, from the section header that the lookup finds for it. -/
theorem getSymbolLetter_host {e : Nat} {r : Option Nat} (he : e + nlistSize x ≤ m.size)
    (hr : InSection (nType m e) → getSection m ptr false x (nSect m e) = .ok (r, m))
    (hsec : InSection (nType m e) → ∀ sec, r = some sec → sec + sectionSize x ≤ m.size) :
    getSymbolLetter m ptr e false x = .ok (letterAt m x e r, m) := by
  have hsz : e + 8 + wordSize x ≤ m.size := by
    cases x <;>
      simp only [nlistSize, wordSize, Bool.false_eq_true, if_false, if_true] at he ⊢ <;> omega
  by_cases hin : InSection (nType m e)
  · have hsym : symbol m ptr e false x = .ok (r.elim 's'.toUInt8 (headerLetter m), m) := by
      have hr := hr hin
      unfold nSect at hr
      rw [symbol, Buffer.load_ok (by omega), Checked.ok_bind, hr, Checked.ok_bind]
      cases r with
      | none => rfl
      | some sec =>
        simp only [Bool.false_eq_true, if_false, Checked.pure_eq, Checked.ok_bind,
          sectionLetter_host (hsec hin sec rfl), Option.elim_some]
    have hs : preLetter (nType m e) (nDesc m e &&& N_WEAK_REF != 0) (nValue m x e) =
        's'.toUInt8 := preLetter_eq_s.mpr hin
    rw [getSymbolLetter, Buffer.load_ok (by omega), Checked.ok_bind, Buffer.field_ok (by omega),
      Checked.ok_bind, Buffer.field_ok hsz, Checked.ok_bind]
    simp only [preLetter_of_entry]
    rw [if_pos hs, hsym, letterAt, classify, hs]
    simp only [Checked.ok_bind, Buffer.load_ok (show e + 4 < m.size by omega), if_true]
    unfold nType
    split_ifs <;> rfl
  · rw [getSymbolLetter_plain he hin, letterAt, letterAt, classify_of_not_inSection hin]

/-- The section header that `getSection` finds for the number `i`. -/
def lookup (m : Buffer) (x : Bool) (ptr i : Nat) : Option Nat :=
  match getSection m ptr false x i with
  | .ok (r, _) => r
  | .fault => none

theorem lookup_host (hwf : ∀ c ∈ commands m x ptr, WfCommand m x c) (hi : 0 < i) (h256 : i < 256) :
    getSection m ptr false x i = .ok (lookup m x ptr i, m) ∧
      ∀ sec, lookup m x ptr i = some sec → sec + sectionSize x ≤ m.size := by
  obtain ⟨r, h1, h2, -⟩ := getSection_host hwf hi h256
  have : lookup m x ptr i = r := by rw [lookup, h1]
  rw [this]
  exact ⟨h1, h2⟩

theorem lookup_eq (hwf : ∀ c ∈ commands m x ptr, WfCommand m x c) (hi : 0 < i) (h256 : i < 256)
    (hsz : m.size < 2 ^ 32) (h32 : ptr + 32 ≤ m.size) :
    lookup m x ptr i = (sections m x ptr)[i - 1]? := by
  obtain ⟨r, h1, -, h3⟩ := getSection_host hwf hi h256
  rw [lookup, h1, ← h3 hsz h32]

/-! ## The symbol table -/

variable {sym : Nat}

/-- The name of entry `i`, as `get_symbol_name` computes it. -/
def nameRef (m : Buffer) (x : Bool) (ptr sym i : Nat) : Int :=
  (ptr + stroff m sym : Nat) + int32 (strx m (nlistAt m x ptr sym i))

/-- The bounds checks of `list_symtab` for entry `i` succeed. -/
def EntryChecked (m : Buffer) (x : Bool) (ptr sym i : Nat) : Prop :=
  isSafe m (ptr + stroff m sym : Nat) ∧ isSafe m (nlistAt m x ptr sym i : Nat) ∧
    isSafe m (nameRef m x ptr sym i)

instance (m : Buffer) (x : Bool) (ptr sym i : Nat) : Decidable (EntryChecked m x ptr sym i) :=
  inferInstanceAs (Decidable (_ ∧ _))

/-- The letter of entry `i`. -/
def symbolLetter (m : Buffer) (x : Bool) (ptr sym i : Nat) : UInt8 :=
  letterAt m x (nlistAt m x ptr sym i) (lookup m x ptr (nSect m (nlistAt m x ptr sym i)))

/-- The record of entry `i`. -/
def record (m : Buffer) (x : Bool) (ptr sym i : Nat) : TNm where
  is64 := x
  type := symbolLetter m x ptr sym i
  add := nlistAt m x ptr sym i + 8
  name := (nameRef m x ptr sym i).toNat

/-- The records of all entries, in symbol-table order. -/
def records (m : Buffer) (x : Bool) (ptr sym : Nat) : List TNm :=
  (List.range (nsyms m sym)).map (record m x ptr sym)

@[simp] theorem addList_eq (list : List TNm) (add : TNm) : addList list add = list ++ [add] := by
  induction list with
  | nil => rfl
  | cons cp next ih => rw [addList, ih, List.cons_append]

theorem getSymbolLetter_wf (hwf : WellFormed m x ptr sym) (hi : i < nsyms m sym) :
    getSymbolLetter m ptr (nlistAt m x ptr sym i) false x =
      .ok (symbolLetter m x ptr sym i, m) := by
  have hl := fun h => lookup_host hwf.command (i := nSect m (nlistAt m x ptr sym i))
    (hwf.table.sect i hi h).1 (UInt8.toNat_lt _)
  exact getSymbolLetter_host (nlistAt_add_le hwf.table hi) (fun h => (hl h).1) fun h => (hl h).2

theorem getNlist_host (h : sym + symtabSize ≤ m.size) :
    getNlist m ptr i x sym = .ok (nlistAt m x ptr sym i) := by
  unfold symtabSize at h
  rw [getNlist, Buffer.field_ok (by omega)]
  rfl

theorem getSymbolName_ok {st e : Nat} (h : e + 4 ≤ m.size) :
    getSymbolName m st e = .ok (st + int32 (strx m e)) := by
  rw [getSymbolName, Buffer.field_ok h, Checked.ok_bind, strx, Checked.pure_eq]

theorem isSafe_congr {m' : Buffer} (h : m'.size = m.size) {z : Int} : isSafe m' z ↔ isSafe m z := by
  unfold isSafe mapSize
  rw [h]

/-- One round of the loop, when the letter of the entry can be had. -/
theorem listSymtabFrom_round {st fuel : Nat} {s : Bool} {m₁ m₂ : Buffer} {letter : UInt8}
    {list : List TNm} (hin : sym + symtabSize ≤ m.size) (hi : i < nsyms m sym)
    (hswap : (if s then swapNlist m (nlistAt m x ptr sym i) x else pure m) = .ok m₁)
    (hsize₁ : m₁.size = m.size) (hletter : getSymbolLetter m₁ ptr (nlistAt m₁ x ptr sym i) s x =
      .ok (letter, m₂)) (hsize₂ : m₂.size = m.size) (hent : nlistAt m₂ x ptr sym i + 4 ≤ m.size) :
    listSymtabFrom sym ptr st s x (fuel + 1) i list m =
      if isSafe m st then
        if isSafe m (nlistAt m x ptr sym i : Nat) then
          let name : Int := st + int32 (strx m₂ (nlistAt m₂ x ptr sym i))
          if isSafe m name then
            listSymtabFrom sym ptr st s x fuel (i + 1)
              (list ++ [⟨x, letter, nlistAt m₁ x ptr sym i + 8, name.toNat⟩]) m₂
          else .ok ([], m₂)
        else .ok ([], m)
      else .ok ([], m) := by
  rw [listSymtabFrom, Buffer.field_ok (by unfold symtabSize at hin; omega), Checked.ok_bind,
    if_pos (show i < m.le 4 (sym + 12) from hi), getNlist_host hin]
  by_cases h1 : isSafe m st
  · rw [if_pos h1, if_pos h1, Checked.ok_bind]
    by_cases h2 : isSafe m (nlistAt m x ptr sym i : Nat)
    · rw [if_pos h2, if_pos h2]
      simp only [Checked.ite_bind]
      rw [hswap, Checked.ok_bind, getNlist_host (by omega), Checked.ok_bind, initOneNm, hletter,
        Checked.ok_bind]
      simp only [Checked.pure_eq, Checked.ok_bind]
      rw [getNlist_host (by omega), Checked.ok_bind, getSymbolName_ok (by omega), Checked.ok_bind,
        addList_eq]
      by_cases h3 : isSafe m (st + int32 (strx m₂ (nlistAt m₂ x ptr sym i)))
      · rw [if_pos h3, if_pos ((isSafe_congr hsize₂).mpr h3)]
      · rw [if_neg h3, if_neg fun h => h3 ((isSafe_congr hsize₂).mp h)]
    · rw [if_neg h2, if_neg h2]
      rfl
  · rw [if_neg h1, if_neg h1]
    rfl

theorem listSymtabFrom_fault {st fuel : Nat} {s : Bool} {m₁ : Buffer} {list : List TNm}
    (hin : sym + symtabSize ≤ m.size) (hi : i < nsyms m sym) (hst : isSafe m st)
    (he : isSafe m (nlistAt m x ptr sym i : Nat))
    (hswap : (if s then swapNlist m (nlistAt m x ptr sym i) x else pure m) = .ok m₁)
    (hsize₁ : m₁.size = m.size)
    (hletter : getSymbolLetter m₁ ptr (nlistAt m₁ x ptr sym i) s x = .fault) :
    listSymtabFrom sym ptr st s x (fuel + 1) i list m = .fault := by
  rw [listSymtabFrom, Buffer.field_ok (by unfold symtabSize at hin; omega), Checked.ok_bind,
    if_pos (show i < m.le 4 (sym + 12) from hi), getNlist_host hin, if_pos hst, Checked.ok_bind,
    if_pos he]
  simp only [Checked.ite_bind]
  rw [hswap, Checked.ok_bind, getNlist_host (by omega), Checked.ok_bind, initOneNm, hletter]
  rfl

/-- Neither is the entry swapped nor its symbol looked at when it is out of bounds. -/
theorem listSymtabFrom_stop {st fuel : Nat} {s : Bool} {list : List TNm}
    (hin : sym + symtabSize ≤ m.size) (hi : i < nsyms m sym)
    (hno : ¬ (isSafe m st ∧ isSafe m (nlistAt m x ptr sym i : Nat))) :
    listSymtabFrom sym ptr st s x (fuel + 1) i list m = .ok ([], m) := by
  rw [listSymtabFrom, Buffer.field_ok (by unfold symtabSize at hin; omega), Checked.ok_bind,
    if_pos (show i < m.le 4 (sym + 12) from hi), getNlist_host hin]
  by_cases h1 : isSafe m st
  · rw [if_pos h1, Checked.ok_bind, if_neg fun h2 => hno ⟨h1, h2⟩]
    rfl
  · rw [if_neg h1]
    rfl

theorem listSymtabFrom_end {st fuel : Nat} {s : Bool} {list : List TNm}
    (hin : sym + symtabSize ≤ m.size) (hi : ¬ i < nsyms m sym) :
    listSymtabFrom sym ptr st s x (fuel + 1) i list m = .ok (list, m) := by
  rw [listSymtabFrom, Buffer.field_ok (by unfold symtabSize at hin; omega), Checked.ok_bind,
    if_neg (show ¬ i < m.le 4 (sym + 12) from hi), Checked.pure_eq]

/-- One round of the loop on a well-formed host-order image. -/
theorem listSymtabFrom_step (hwf : WellFormed m x ptr sym) (hi : i < nsyms m sym) {fuel : Nat}
    {list : List TNm} :
    listSymtabFrom sym ptr (ptr + stroff m sym) false x (fuel + 1) i list m =
      if EntryChecked m x ptr sym i then
        listSymtabFrom sym ptr (ptr + stroff m sym) false x fuel (i + 1)
          (list ++ [record m x ptr sym i]) m
      else .ok ([], m) := by
  have hent := nlistAt_add_le hwf.table hi
  rw [nlistSize_eq] at hent
  rw [listSymtabFrom_round hwf.table.inside hi rfl rfl (getSymbolLetter_wf hwf hi) rfl (by omega)]
  by_cases h : EntryChecked m x ptr sym i
  · obtain ⟨h1, h2, h3⟩ := id h
    unfold nameRef at h3
    rw [if_pos h, if_pos h1, if_pos h2]
    simp only
    rw [if_pos h3]
    rfl
  · rw [if_neg h]
    by_cases h1 : isSafe m (ptr + stroff m sym : Nat)
    · by_cases h2 : isSafe m (nlistAt m x ptr sym i : Nat)
      · rw [if_pos h1, if_pos h2]
        exact if_neg fun h3 => h ⟨h1, h2, h3⟩
      · rw [if_pos h1, if_neg h2]
    · rw [if_neg h1]

/-- The loop returns a record for every entry, unless a check fails. -/
theorem listSymtabFrom_host (hwf : WellFormed m x ptr sym) :
    ∀ fuel i list, i ≤ nsyms m sym → nsyms m sym < fuel + i →
      listSymtabFrom sym ptr (ptr + stroff m sym) false x fuel i list m =
        .ok (if ∀ j, i ≤ j → j < nsyms m sym → EntryChecked m x ptr sym j then
          list ++ (List.range' i (nsyms m sym - i)).map (record m x ptr sym) else [], m) := by
  intro fuel
  induction fuel with
  | zero => intro i list h1 h2; omega
  | succ fuel ih =>
    intro i list hi hf
    rcases Nat.lt_or_eq_of_le hi with hlt | rfl
    · rw [listSymtabFrom_step hwf hlt]
      by_cases hc : EntryChecked m x ptr sym i
      · rw [if_pos hc, ih (i + 1) _ hlt (by omega)]
        have hall : (∀ j, i + 1 ≤ j → j < nsyms m sym → EntryChecked m x ptr sym j) ↔
            ∀ j, i ≤ j → j < nsyms m sym → EntryChecked m x ptr sym j := by
          refine ⟨fun h j h1 h2 => ?_, fun h j h1 h2 => h j (by omega) h2⟩
          rcases Nat.lt_or_eq_of_le h1 with h1 | rfl
          · exact h j h1 h2
          · exact hc
        simp only [hall]
        congr 2
        rw [show nsyms m sym - i = nsyms m sym - (i + 1) + 1 by omega, List.range'_succ,
          List.map_cons, List.append_assoc, List.singleton_append]
      · rw [if_neg hc, if_neg fun h => hc (h i (Nat.le_refl _) hlt)]
    · rw [listSymtabFrom_end hwf.table.inside (Nat.lt_irrefl _),
        if_pos fun j h1 h2 => absurd h2 (by omega)]
      simp

theorem listSymtab_host (hwf : WellFormed m x ptr sym) :
    listSymtab sym ptr false x m =
      .ok (if sym + symtabSize ≤ mapSize m ∧ ∀ i < nsyms m sym, EntryChecked m x ptr sym i then
        records m x ptr sym else [], m) := by
  have hin := hwf.table.inside
  have hn : nsyms m sym < 2 ^ 32 := m.le_lt
  unfold listSymtab
  by_cases h : isSafe m (sym + symtabSize : Nat)
  · rw [if_pos h]
    simp only [Bool.false_eq_true, if_false, Checked.pure_eq, Checked.ok_bind]
    rw [Buffer.field_ok (by unfold symtabSize at hin; omega), Checked.ok_bind,
      show m.le 4 (sym + 16) = stroff m sym from rfl,
      listSymtabFrom_host hwf (2 ^ 32) 0 [] (by omega) (by omega)]
    rw [isSafe_natCast] at h
    simp only [Nat.zero_le, forall_const, h, true_and, List.nil_append, Nat.sub_zero,
      ← List.range_eq_range', records]
  · rw [if_neg h, if_neg fun hc => h ((isSafe_natCast m _).mpr hc.1)]
    rfl

/-! ## Whole images -/

/-- No bounds check of the run fails: `g_map_size` reaches behind the LC_SYMTAB command, and every
entry passes its checks. -/
def Listed (m : Buffer) (x : Bool) (ptr sym : Nat) : Prop :=
  sym + symtabSize ≤ mapSize m ∧ ∀ i < nsyms m sym, EntryChecked m x ptr sym i

instance (m : Buffer) (x : Bool) (ptr sym : Nat) : Decidable (Listed m x ptr sym) :=
  inferInstanceAs (Decidable (_ ∧ _))

/-- The walk reaches the first LC_SYMTAB command, as every command before it lies below it. -/
theorem getNmListFrom_host (hwf : ∀ c ∈ commandsFrom m n lc, WfCommand m x c)
    (hsym : (commandsFrom m n lc).find? (fun c => cmd m c == LC_SYMTAB) = some sym) :
    getNmListFrom ptr false x n lc m =
      if sym + symtabSize ≤ mapSize m then listSymtab sym ptr false x m else .ok ([], m) := by
  have hle := commandsFrom_ge (List.mem_of_find?_eq_some hsym)
  induction n generalizing lc with
  | zero => simp [commandsFrom] at hsym
  | succ n ih =>
    have hlc := hwf lc List.mem_cons_self
    have hlt := hlc.lt
    have hnext := fun c hc => hwf c (List.mem_cons_of_mem lc hc)
    unfold getNmListFrom
    by_cases hs : isSafe m (lc + 8 : Nat)
    · rw [if_pos hs]
      simp only [Bool.false_eq_true, if_false, Checked.pure_eq, Checked.ok_bind]
      rw [Buffer.field_ok (by omega), Checked.ok_bind]
      rw [commandsFrom, List.find?_cons] at hsym
      by_cases hc : cmd m lc = LC_SYMTAB
      · have heq : lc = sym := by simpa [hc] using hsym
        subst heq
        rw [if_pos (show m.le 4 lc = LC_SYMTAB from hc)]
        by_cases h24 : lc + symtabSize ≤ mapSize m
        · rw [if_pos h24]
        · rw [if_neg h24, listSymtab, if_neg fun h => h24 ((isSafe_natCast m _).mp h)]
          rfl
      · have hfind : (commandsFrom m n (lc + cmdsize m lc)).find?
            (fun c => cmd m c == LC_SYMTAB) = some sym := by
          rw [beq_false_of_ne hc] at hsym
          exact hsym
        rw [if_neg (show ¬ m.le 4 lc = LC_SYMTAB from hc), Buffer.field_ok (by omega),
          Checked.ok_bind]
        exact ih hnext hfind (commandsFrom_ge (List.mem_of_find?_eq_some hfind))
    · rw [if_neg hs, if_neg fun h => hs ((isSafe_natCast m _).mpr (by unfold symtabSize at h; omega))]
      rfl

/-- The list that `handle_not_fat` returns, in full generality: all records or `NULL`. -/
theorem handleNotFat_host (hwf : WellFormed m x ptr sym) :
    handleNotFat m x false ptr =
      .ok (if Listed m x ptr sym then records m x ptr sym else [], m) := by
  have hle := hwf.symtab_le
  have hhs := le_headerSize x
  unfold handleNotFat
  by_cases hs : isSafe m ptr
  · rw [if_pos hs]
    by_cases hlc : isLcSafe m ptr x
    · rw [getLc_host hlc, Checked.ok_bind]
      unfold getNmList
      simp only
      rw [show m.le 4 (ptr + 16) = ncmds m ptr from rfl, getNmListFrom_host hwf.command hwf.symtab]
      by_cases h24 : sym + symtabSize ≤ mapSize m
      · rw [if_pos h24, listSymtab_host hwf]
        rfl
      · rw [if_neg h24, if_neg fun h : Listed m x ptr sym => h24 h.1]
    · rw [getLc_none hlc, Checked.ok_bind, if_neg]
      · rfl
      · rintro ⟨h24, -⟩
        refine hlc ((isLcSafe_iff m ptr x).mpr ?_)
        unfold symtabSize at h24
        split <;> omega
  · rw [if_neg hs, if_neg]
    · rfl
    · rintro ⟨h24, -⟩
      exact hs ((isSafe_natCast m ptr).mpr (by omega))

/-- Every string offset survives the `int` it goes through. -/
def StrxFits (m : Buffer) (x : Bool) (ptr sym : Nat) : Prop :=
  ∀ i < nsyms m sym, strx m (nlistAt m x ptr sym i) < 2 ^ 31

instance (m : Buffer) (x : Bool) (ptr sym : Nat) : Decidable (StrxFits m x ptr sym) :=
  inferInstanceAs (Decidable (∀ i < _, _))

theorem nameRef_eq (hx : StrxFits m x ptr sym) (hi : i < nsyms m sym) :
    nameRef m x ptr sym i = (nameAt m x ptr sym i : Nat) := by
  rw [nameRef, int32_of_lt (hx i hi), nameAt]
  omega

/-- In a file that `g_map_size` measures, only a string offset can fail its check. -/
theorem listed_iff (hwf : WellFormed m x ptr sym) (hsz : m.size < 2 ^ 32) :
    Listed m x ptr sym ↔ StrxFits m x ptr sym := by
  have hg := mapSize_eq hsz
  have hstr := hwf.table.strings
  constructor
  · rintro ⟨-, hent⟩ i hi
    obtain ⟨-, -, hname⟩ := hent i hi
    have hx := hwf.table.strx i hi
    by_contra hge
    obtain ⟨h0, -⟩ := hname
    rw [nameRef, int32_of_ge (by omega) m.le_lt] at h0
    omega
  · intro hfit
    refine ⟨hg ▸ hwf.table.inside, fun i hi => ?_⟩
    have hx := hwf.table.strx i hi
    have hent := nlistAt_add_le hwf.table hi
    refine ⟨(isSafe_natCast m _).mpr (by omega), (isSafe_natCast m _).mpr (by omega), ?_⟩
    rw [nameRef_eq hfit hi]
    refine (isSafe_natCast m _).mpr ?_
    unfold nameAt
    omega

/-- Below 2 GiB no check fails: `n_strx` survives the `int`. -/
theorem strxFits_of_lt (hwf : WellFormed m x ptr sym) (hsz : m.size < 2 ^ 31) :
    StrxFits m x ptr sym := by
  intro i hi
  have hstr := hwf.table.strings
  have hx := hwf.table.strx i hi
  omega

theorem listed_of_lt (hwf : WellFormed m x ptr sym) (hsz : m.size < 2 ^ 31) :
    Listed m x ptr sym :=
  (listed_iff hwf (by omega)).mpr (strxFits_of_lt hwf hsz)

theorem record_name (hfit : StrxFits m x ptr sym) (hi : i < nsyms m sym) :
    (record m x ptr sym i).name = nameAt m x ptr sym i := by
  rw [record, nameRef_eq hfit hi, Int.toNat_natCast]

/-- Decoding undoes encoding: the list has a record for each entry, in symbol-table order, with
the image's width, the entry's name and the address of the entry's value. -/
theorem handleNotFat_decodes (hwf : WellFormed m x ptr sym) (hsz : m.size < 2 ^ 31) :
    ∃ list, handleNotFat m x false ptr = .ok (list, m) ∧ list.length = nsyms m sym ∧
      ∀ i, i < nsyms m sym → ∃ r, list[i]? = some r ∧ r.is64 = x ∧
        r.name = nameAt m x ptr sym i ∧
        ftStr m r.name = .ok (m.cstr (nameAt m x ptr sym i)) ∧
        r.add = nlistAt m x ptr sym i + 8 ∧
        m.field (wordSize x) r.add = .ok (nValue m x (nlistAt m x ptr sym i)) := by
  refine ⟨records m x ptr sym, ?_, by simp [records], fun i hi => ?_⟩
  · rw [handleNotFat_host hwf, if_pos (listed_of_lt hwf hsz)]
  · have hname := record_name (strxFits_of_lt hwf hsz) hi
    have hent := nlistAt_add_le hwf.table hi
    refine ⟨record m x ptr sym i, ?_, rfl, hname, ?_, rfl, ?_⟩
    · rw [records, List.getElem?_map, List.getElem?_range hi]
      rfl
    · rw [hname, ftStr_terminated (hwf.table.terminated hi)]
    · apply Buffer.field_ok
      change nlistAt m x ptr sym i + 8 + wordSize x ≤ m.size
      cases x <;>
        simp only [nlistSize, wordSize, Bool.false_eq_true, if_false, if_true] at hent ⊢ <;> omega

theorem handleNotFat_decodes_smallFile :
    ∃ list, handleNotFat ((smallFile true).image .little true) true false 0 =
        .ok (list, (smallFile true).image .little true) ∧
      list.length = 2 := by
  obtain ⟨list, h1, h2, -⟩ := handleNotFat_decodes
    ((smallFile_wf true).wellFormed (smallFile_encodes .little true)) (by decide +kernel)
  exact ⟨list, h1, h2.trans (by decide +kernel)⟩

end NmOtool.Nm
