import NmOtool.Nm.Host
import NmOtool.Nm.Main

/-!
# ft_nm: what a run requires of a thin file

The weakest precondition of `handle_not_fat`, for any file in either byte order: `ThinFits` holds
of an image exactly when the run on it stays in the map and its result satisfies `K`. Each
predicate follows the states of its function, and what it adds to them are the bounds that no
check of the code gives: `is_safe` only places the first byte of what is read.
-/

namespace NmOtool.Nm

open MachO Checked

variable {m : Buffer} {s x : Bool} {ptr lc sec e sym st i n count fuel : Nat}

/-! ## Section names -/

/-- The names that `symbol` compares end in the map, one way or the other. -/
def LetterFits (m : Buffer) (sec : Nat) : Prop :=
  NameFits m sec SECT_TEXT SEG_TEXT ∧ (¬ IsNamed m sec SEG_TEXT SECT_TEXT →
    NameFits m sec SECT_DATA SEG_DATA ∧ (¬ IsNamed m sec SEG_DATA SECT_DATA →
      NameFits m sec SECT_BSS SEG_DATA))

instance (m : Buffer) (sec : Nat) : Decidable (LetterFits m sec) :=
  inferInstanceAs (Decidable (_ ∧ (_ → _ ∧ (_ → _))))

theorem sectionLetter_eq :
    sectionLetter m sec = if LetterFits m sec then .ok (headerLetter m sec) else .fault := by
  have e1 : isNamed m sec SECT_TEXT SEG_TEXT = _ := isNamed_eq (by decide) (by decide)
  have e2 : isNamed m sec SECT_DATA SEG_DATA = _ := isNamed_eq (by decide) (by decide)
  have e3 : isNamed m sec SECT_BSS SEG_DATA = _ := isNamed_eq (by decide) (by decide)
  rw [sectionLetter, e1, e2, e3, headerLetter]
  by_cases n1 : NameFits m sec SECT_TEXT SEG_TEXT <;>
  by_cases i1 : IsNamed m sec SEG_TEXT SECT_TEXT <;>
  by_cases n2 : NameFits m sec SECT_DATA SEG_DATA <;>
  by_cases i2 : IsNamed m sec SEG_DATA SECT_DATA <;>
  by_cases n3 : NameFits m sec SECT_BSS SEG_DATA <;>
    simp [LetterFits, n1, i1, n2, i2, n3]
  split_ifs <;> rfl

/-! ## The section lookup -/

/-- Every command that the lookup looks at has its `cmd` in the map, and its `cmdsize` unless it
is a segment. -/
def LookupFits (s x : Bool) (i : Nat) (K : Option Nat → Buffer → Prop) :
    Nat → Nat → Nat → Buffer → Prop
  | 0, _, _, m => K none m
  | n + 1, lc, count, m =>
    if isSafe m lc then
      lc + 4 ≤ m.size ∧
        if IsSegment m lc then
          if isSegmantSafe m lc x then
            let m := segmentImage s x m lc
            let next := u32 (count + nsects m x lc)
            if i ≤ next then K (some (headerAt x lc i count)) m
            else LookupFits s x i K n (lc + cmdsize m lc) next m
          else K none m
        else lc + 8 ≤ m.size ∧ LookupFits s x i K n (lc + cmdsize m lc) count m
    else K none m

/-- `m'` agrees with `m` in front of `b`. -/
abbrev AgreeBelow (b : Nat) (m m' : Buffer) : Prop := Buffer.AgreeOn (fun q => q < b) m m'

/-- The lookup rewrites nothing in front of the command it starts at, and finds nothing there. -/
theorem getSectionFrom_behind {b : Nat} {r : Option Nat × Buffer} (hb : b ≤ lc)
    (h : getSectionFrom s x i n lc count m = .ok r) :
    AgreeBelow b m r.2 ∧ ∀ sec, r.1 = some sec → b ≤ sec := by
  induction n generalizing lc count m with
  | zero =>
    cases h
    exact ⟨.refl, by simp⟩
  | succ n ih =>
    unfold getSectionFrom at h
    split at h
    · obtain ⟨cmd, -, h⟩ := bind_eq_ok.mp h
      split at h
      · split at h
        · rename_i hs
          have hle := (isSegmantSafe_iff m lc x).mp hs
          have himage : AgreeBelow b m (segmentImage s x m lc) :=
            agreeOn_segmentImage.mono fun q hq => by omega
          simp only [ite_bind] at h
          rw [segmentImage_ok (hle.trans (mapSize_le m)), ok_bind] at h
          obtain ⟨add, -, h⟩ := bind_eq_ok.mp h
          split at h
          · cases h
            refine ⟨himage, ?_⟩
            rintro sec ⟨⟩
            omega
          · obtain ⟨cmdsize, -, h⟩ := bind_eq_ok.mp h
            obtain ⟨h1, h2⟩ := ih (by omega) h
            exact ⟨himage.trans h1, h2⟩
        · cases h
          exact ⟨.refl, by simp⟩
      · obtain ⟨cmdsize, -, h⟩ := bind_eq_ok.mp h
        exact ih (by omega) h
    · cases h
      exact ⟨.refl, by simp⟩

theorem getSectionFrom_returns {K : Option Nat → Buffer → Prop} :
    ((getSectionFrom s x i n lc count m).Returns fun r => K r.1 r.2) ↔
      LookupFits s x i K n lc count m := by
  induction n generalizing lc count m with
  | zero => rw [getSectionFrom, LookupFits, pure_eq, returns_ok]
  | succ n ih =>
    unfold LookupFits
    by_cases h : isSafe m lc
    · rw [if_pos h]
      by_cases hseg : IsSegment m lc
      · rw [if_pos hseg]
        by_cases hss : isSegmantSafe m lc x
        · have hle := ((isSegmantSafe_iff m lc x).mp hss).trans (mapSize_le m)
          have h56 := le_segmentSize x
          rw [if_pos hss, getSectionFrom_segment h hseg hss, and_iff_right (by omega)]
          exact returns_ite returns_ok ih
        · rw [if_neg hss, getSectionFrom, if_pos h, returns_bind, Buffer.returns_field,
            if_pos (show m.le 4 lc = LC_SEGMENT ∨ m.le 4 lc = LC_SEGMENT_64 from hseg), if_neg hss]
          exact and_congr_right fun _ => returns_ok
      · rw [if_neg hseg]
        by_cases h8 : lc + 8 ≤ m.size
        · rw [getSectionFrom_other h hseg h8, ih, and_iff_right h8, and_iff_right (by omega)]
        · rw [getSectionFrom, if_pos h, returns_bind, Buffer.returns_field,
            if_neg (show ¬ (m.le 4 lc = LC_SEGMENT ∨ m.le 4 lc = LC_SEGMENT_64) from hseg),
            returns_bind, Buffer.returns_field]
          exact and_congr_right fun _ => iff_of_false (fun h => h8 h.1) fun h => h8 h.1
    · rw [if_neg h, getSectionFrom, if_neg h]
      exact returns_ok

theorem getSection_behind {b : Nat} {r : Option Nat × Buffer} (hb : b ≤ ptr + headerSize x)
    (h : getSection m ptr s x i = .ok r) : AgreeBelow b m r.2 ∧ ∀ sec, r.1 = some sec → b ≤ sec := by
  unfold getSection at h
  by_cases hlc : isLcSafe m ptr x
  · rw [getLc_host hlc] at h
    exact getSectionFrom_behind hb h
  · rw [getLc_none hlc] at h
    cases h
    exact ⟨.refl, by simp⟩

/-! ## The letter of an entry -/

/-- The header that the lookup finds is swapped, and its names compared, within the map. -/
def HeaderFits (s x : Bool) (K : Buffer → Prop) : Option Nat → Buffer → Prop
  | none, m => K m
  | some sec, m =>
    (s = true → sec + (if x then 24 else 16) ≤ m.size) ∧
      LetterFits (sectionImage s x m sec) sec ∧ K (sectionImage s x m sec)

/-- The lookup for the section of the entry at `e`, and the header that it finds. -/
def SymbolFits (s x : Bool) (ptr e : Nat) (K : Buffer → Prop) (m : Buffer) : Prop :=
  if isLcSafe m ptr x then
    LookupFits s x (nSect m e) (HeaderFits s x K) (ncmds m ptr) (ptr + headerSize x) 0 m
  else K m

theorem symbol_behind {b : Nat} {r : UInt8 × Buffer} (hb : b ≤ ptr + headerSize x)
    (h : symbol m ptr e s x = .ok r) : AgreeBelow b m r.2 := by
  unfold symbol at h
  obtain ⟨index, -, h⟩ := bind_eq_ok.mp h
  obtain ⟨⟨found, m₁⟩, hsec, h⟩ := bind_eq_ok.mp h
  obtain ⟨hm₁, hfound⟩ := getSection_behind hb hsec
  cases found with
  | none =>
    cases h
    exact hm₁
  | some sec =>
    have hbsec : b ≤ sec := hfound sec rfl
    simp only [ite_bind] at h
    obtain ⟨m₂, hm₂, h⟩ := bind_eq_ok.mp h
    obtain ⟨letter, -, h⟩ := bind_eq_ok.mp h
    obtain ⟨-, himg⟩ := returns_section.mp ⟨m₂, hm₂, rfl⟩
    cases h
    subst himg
    exact hm₁.trans (agreeOn_sectionImage.mono fun q hq => by omega)

theorem symbol_size {r : UInt8 × Buffer} (h : symbol m ptr e s x = .ok r) :
    r.2.size = m.size :=
  (symbol_behind (Nat.zero_le _) h).size

theorem symbol_returns {K : Buffer → Prop} (he : e + 5 < m.size) :
    ((symbol m ptr e s x).Returns fun r => K r.2) ↔ SymbolFits s x ptr e K m := by
  have hfound : ∀ r : Option Nat × Buffer, (match r with
      | (none, m) => (pure ('s'.toUInt8, m) : Checked (UInt8 × Buffer))
      | (some sec, m) => do
        let m ← if s then swapSection m sec x else pure m
        let letter ← sectionLetter m sec
        pure (letter, m)).Returns (fun r => K r.2) ↔ HeaderFits s x K r.1 r.2 := by
    rintro ⟨_ | sec, m⟩
    · exact returns_ok
    · simp only [ite_bind]
      rw [returns_bind, returns_section, sectionLetter_eq]
      apply and_congr_right
      intro _
      by_cases hf : LetterFits (sectionImage s x m sec) sec
      · rw [if_pos hf, ok_bind, pure_eq, returns_ok, and_iff_right hf]
      · simp [hf]
  unfold SymbolFits
  rw [symbol, Buffer.load_ok he, ok_bind, returns_bind, getSection]
  by_cases hlc : isLcSafe m ptr x
  · rw [getLc_host hlc, if_pos hlc]
    refine (returns_congr fun r _ => ?_).trans getSectionFrom_returns
    rw [← hfound r]
    rcases r with ⟨_ | sec, m⟩ <;> rfl
  · rw [getLc_none hlc, if_neg hlc]
    exact returns_ok.trans returns_ok

/-- The entry at `e` lies in the map, and so does what its letter is taken from. -/
def EntryFits (s x : Bool) (ptr e : Nat) (K : Buffer → Prop) (m : Buffer) : Prop :=
  e + 8 + wordSize x ≤ m.size ∧
    if InSection (nType m e) then SymbolFits s x ptr e K m else K m

theorem getSymbolLetter_returns {K : Buffer → Prop} :
    ((getSymbolLetter m ptr e s x).Returns fun r => K r.2) ↔ EntryFits s x ptr e K m := by
  by_cases he : e + 8 + wordSize x ≤ m.size
  · -- `n_type` is read again, in an image of the same size.
    have hreload : ∀ letter m', m'.size = m.size →
        ((do
          let nType ← m'.load (e + 4)
          if letter ≠ '?'.toUInt8 ∧ N_EXT &&& nType ≠ 0 then
            pure (letter - ('a'.toUInt8 - 'A'.toUInt8), m')
          else pure (letter, m') : Checked (UInt8 × Buffer)).Returns (fun r => K r.2) ↔ K m') := by
      intro letter m' hm'
      rw [Buffer.load_ok (by omega), ok_bind]
      split <;> exact returns_ok
    rw [getSymbolLetter, Buffer.load_ok (by omega), ok_bind, Buffer.field_ok (by omega), ok_bind,
      Buffer.field_ok he, ok_bind]
    simp only [preLetter_of_entry, ite_bind, preLetter_eq_s]
    rw [EntryFits, and_iff_right he, returns_bind]
    refine returns_ite ?_ ?_
    · rw [← symbol_returns (by omega)]
      exact returns_congr fun r hr => hreload r.1 r.2 (symbol_size hr)
    · rw [pure_eq, returns_ok]
      exact hreload _ m rfl
  · refine iff_of_false (fun h => he ?_) fun h => he h.1
    rw [getSymbolLetter, returns_bind, Buffer.returns_load, returns_bind, Buffer.returns_field,
      returns_bind, Buffer.returns_field] at h
    exact h.2.2.1

theorem getSymbolLetter_behind {b : Nat} {r : UInt8 × Buffer} (hb : b ≤ ptr + headerSize x)
    (h : getSymbolLetter m ptr e s x = .ok r) : AgreeBelow b m r.2 := by
  unfold getSymbolLetter at h
  obtain ⟨nType, -, h⟩ := bind_eq_ok.mp h
  obtain ⟨nDesc, -, h⟩ := bind_eq_ok.mp h
  obtain ⟨nValue, -, h⟩ := bind_eq_ok.mp h
  simp only [ite_bind] at h
  obtain ⟨⟨letter, m'⟩, hl, h⟩ := bind_eq_ok.mp h
  obtain ⟨nType', -, h⟩ := bind_eq_ok.mp h
  have hm' : AgreeBelow b m m' := by
    rcases ite_eq_iff.mp hl with ⟨-, hl⟩ | ⟨-, hl⟩
    · exact symbol_behind hb hl
    · cases hl
      exact .refl
  split at h <;> cases h <;> exact hm'

theorem getSymbolLetter_size {r : UInt8 × Buffer} (h : getSymbolLetter m ptr e s x = .ok r) :
    r.2.size = m.size :=
  (getSymbolLetter_behind (Nat.zero_le _) h).size

/-- A stab that is not external: its letter is '-', which `can_show_list` never shows. -/
def isHidden (t : UInt8) : Bool := N_STAB &&& t ≠ 0 ∧ N_EXT &&& t = 0

/-- The letters of what is no stab. -/
def plainLetters : List UInt8 := ascii "tdbscuaiw?"

theorem preLetter_plain {t : UInt8} {weak : Bool} {value : Nat} (h : N_STAB &&& t = 0) :
    preLetter t weak value ∈ plainLetters := by
  unfold preLetter
  rw [if_neg fun hne => hne h]
  split_ifs <;> decide

theorem sectionLetter_plain {letter : UInt8} (h : sectionLetter m sec = .ok letter) :
    letter ∈ plainLetters := by
  rw [sectionLetter_eq] at h
  split at h
  · cases h
    unfold headerLetter
    split_ifs <;> decide
  · cases h

theorem symbol_plain {r : UInt8 × Buffer} (h : symbol m ptr e s x = .ok r) :
    r.1 ∈ plainLetters := by
  unfold symbol at h
  obtain ⟨index, -, h⟩ := bind_eq_ok.mp h
  obtain ⟨⟨found, m₁⟩, -, h⟩ := bind_eq_ok.mp h
  cases found with
  | none =>
    cases h
    exact (by decide : 's'.toUInt8 ∈ plainLetters)
  | some sec =>
    simp only [ite_bind] at h
    obtain ⟨m₂, -, h⟩ := bind_eq_ok.mp h
    obtain ⟨letter, hletter, h⟩ := bind_eq_ok.mp h
    cases h
    exact sectionLetter_plain hletter

/-- Neither a plain letter nor its capital is the '-' of a stab. -/
theorem plainLetters_ne : ∀ letter ∈ plainLetters,
    letter ≠ '-'.toUInt8 ∧ letter - ('a'.toUInt8 - 'A'.toUInt8) ≠ '-'.toUInt8 := by
  decide +kernel

/-- The letter that `can_show_list` never shows is that of a stab that is not external. -/
theorem getSymbolLetter_hidden {r : UInt8 × Buffer} (h : getSymbolLetter m ptr e s x = .ok r) :
    decide (r.1 = '-'.toUInt8) = isHidden (nType m e) := by
  obtain ⟨he, -⟩ := getSymbolLetter_returns (K := fun _ => True).mp ⟨r, h, trivial⟩
  have hplain : ∀ {letter : UInt8} {t : UInt8} {m' : Buffer}, letter ∈ plainLetters →
      (if letter ≠ '?'.toUInt8 ∧ N_EXT &&& t ≠ 0 then
        pure (letter - ('a'.toUInt8 - 'A'.toUInt8), m')
      else pure (letter, m') : Checked (UInt8 × Buffer)) = .ok r → r.1 ≠ '-'.toUInt8 := by
    intro letter t m' hmem h
    obtain ⟨h1, h2⟩ := plainLetters_ne letter hmem
    split at h <;> cases h
    · exact h2
    · exact h1
  rw [getSymbolLetter, Buffer.load_ok (by omega), ok_bind, Buffer.field_ok (by omega), ok_bind,
    Buffer.field_ok he, ok_bind] at h
  simp only [preLetter_of_entry, ite_bind, preLetter_eq_s] at h
  rw [isHidden, decide_eq_decide]
  obtain ⟨⟨letter, m'⟩, hletter, h⟩ := bind_eq_ok.mp h
  rcases ite_eq_iff.mp hletter with ⟨hin, hsym⟩ | ⟨-, hpre⟩
  · obtain ⟨t, -, h⟩ := bind_eq_ok.mp h
    exact iff_of_false (hplain (symbol_plain hsym) h) fun hhid => hhid.1 hin.1
  · cases hpre
    rw [Buffer.load_ok (m := m) (by omega), ok_bind] at h
    by_cases hstab : N_STAB &&& nType m e = 0
    · exact iff_of_false (hplain (preLetter_plain hstab) h) fun hhid => hhid.1 hstab
    · rw [preLetter, if_pos hstab] at h
      rw [and_iff_right hstab]
      simp only at h
      split at h
      · next hext =>
        cases h
        have hne : '-'.toUInt8 - ('a'.toUInt8 - 'A'.toUInt8) ≠ '-'.toUInt8 := by decide
        exact iff_of_false hne hext.2
      · next hext =>
        cases h
        exact iff_of_true rfl (not_not.mp fun hne => hext ⟨by decide, hne⟩)

/-! ## The symbol table -/

/-- The record that a round appends: the entry at `e` with the letter `letter`, in the image that
`get_symbol_name` reads. -/
def builtRecord (m : Buffer) (x : Bool) (ptr sym st i : Nat) (e : Nat) (letter : UInt8) : TNm :=
  ⟨x, letter, e + 8, (st + int32 (strx m (nlistAt m x ptr sym i)) : Int).toNat⟩

/-- What a round that does not fault can do: nothing is left and the loop ends, a check fails and
the list is dropped, before the swap of the entry or behind its letter, or the entry is swapped, has
its letter, and its record is appended. -/
theorem listSymtabFrom_cases {list : List TNm} {r : List TNm × Buffer}
    (h : listSymtabFrom sym ptr st s x (fuel + 1) i list m = .ok r) :
    let m₁ := entryImage s x m (nlistAt m x ptr sym i)
    (¬ i < nsyms m sym ∧ r = (list, m)) ∨
      (i < nsyms m sym ∧ r.1 = [] ∧ (r.2 = m ∨ ∃ letter,
        getSymbolLetter m₁ ptr (nlistAt m₁ x ptr sym i) s x = .ok (letter, r.2))) ∨
      (i < nsyms m sym ∧ ∃ letter m₂,
        getSymbolLetter m₁ ptr (nlistAt m₁ x ptr sym i) s x = .ok (letter, m₂) ∧
        isSafe m₂ (st + int32 (strx m₂ (nlistAt m₂ x ptr sym i))) ∧
        listSymtabFrom sym ptr st s x fuel (i + 1)
          (list ++ [builtRecord m₂ x ptr sym st i (nlistAt m₁ x ptr sym i) letter]) m₂ = .ok r) := by
  have hget : ∀ {m' : Buffer} {e : Nat}, getNlist m' ptr i x sym = .ok e →
      e = nlistAt m' x ptr sym i := by
    intro m' e he
    obtain ⟨symoff, hoff, he⟩ := bind_eq_ok.mp he
    obtain ⟨-, rfl⟩ := Buffer.returns_field.mp ⟨symoff, hoff, rfl⟩
    cases he
    rfl
  intro m₁
  unfold listSymtabFrom at h
  obtain ⟨nsyms', hn, h⟩ := bind_eq_ok.mp h
  obtain ⟨-, rfl⟩ := Buffer.returns_field.mp ⟨nsyms', hn, rfl⟩
  rcases ite_eq_iff.mp h with ⟨hi, h⟩ | ⟨hi, h⟩
  · refine .inr ?_
    rcases ite_eq_iff.mp h with ⟨-, h⟩ | ⟨-, h⟩
    · obtain ⟨e, he, h⟩ := bind_eq_ok.mp h
      obtain rfl := hget he
      rcases ite_eq_iff.mp h with ⟨-, h⟩ | ⟨-, h⟩
      · simp only [ite_bind] at h
        obtain ⟨m₁', hm₁, h⟩ := bind_eq_ok.mp h
        obtain ⟨-, rfl⟩ := returns_entry.mp ⟨m₁', hm₁, rfl⟩
        obtain ⟨e₁, he₁, h⟩ := bind_eq_ok.mp h
        obtain rfl := hget he₁
        obtain ⟨⟨add, m₂⟩, hadd, h⟩ := bind_eq_ok.mp h
        obtain ⟨⟨letter, m₂'⟩, hletter, hadd⟩ := bind_eq_ok.mp hadd
        cases hadd
        obtain ⟨e₂, he₂, h⟩ := bind_eq_ok.mp h
        obtain rfl := hget he₂
        obtain ⟨name, hname, h⟩ := bind_eq_ok.mp h
        obtain ⟨strx', hstrx, hname⟩ := bind_eq_ok.mp hname
        obtain ⟨-, rfl⟩ := Buffer.returns_field.mp ⟨strx', hstrx, rfl⟩
        obtain rfl := Checked.ok.inj hname
        rcases ite_eq_iff.mp h with ⟨hsafe, h⟩ | ⟨-, h⟩
        · rw [addList_eq] at h
          refine .inr ⟨hi, letter, m₂, hletter, hsafe, ?_⟩
          simp only [builtRecord, strx]
          exact h
        · cases h
          exact .inl ⟨hi, rfl, .inr ⟨letter, hletter⟩⟩
      · cases h
        exact .inl ⟨hi, rfl, .inl rfl⟩
    · cases h
      exact .inl ⟨hi, rfl, .inl rfl⟩
  · cases h
    exact .inl ⟨hi, rfl⟩

/-- Where the name of a record lies, and whether the record is hidden. -/
def TNm.use (r : TNm) : Nat × Bool := (r.name, decide (r.type = '-'.toUInt8))

/-- The loop of `list_symtab` from entry `i`, with the names so far. An entry whose first byte is
within `g_map_size` must lie in the map, before its swap and after it. -/
def TableFits (sym ptr st : Nat) (s x : Bool) (K : List (Nat × Bool) → Buffer → Prop) :
    Nat → Nat → List (Nat × Bool) → Buffer → Prop
  | 0, _, _, _ => False
  | fuel + 1, i, names, m =>
    if i < nsyms m sym then
      if isSafe m st ∧ isSafe m (nlistAt m x ptr sym i) then
        let e := nlistAt m x ptr sym i
        let e₁ := nlistAt (entryImage s x m e) x ptr sym i
        let hidden := isHidden (nType (entryImage s x m e) e₁)
        (s = true → e + 7 + wordSize x ≤ m.size) ∧
          EntryFits s x ptr e₁ (fun m =>
            nlistAt m x ptr sym i + 4 ≤ m.size ∧
              let name : Int := st + int32 (strx m (nlistAt m x ptr sym i))
              if isSafe m name then
                TableFits sym ptr st s x K fuel (i + 1) (names ++ [(name.toNat, hidden)]) m
              else K [] m) (entryImage s x m e)
      else K [] m
    else K names m

theorem listSymtabFrom_returns {K : List (Nat × Bool) → Buffer → Prop} {list : List TNm}
    (hsym : sym + symtabSize ≤ m.size) :
    ((listSymtabFrom sym ptr st s x fuel i list m).Returns fun r => K (r.1.map TNm.use) r.2) ↔
      TableFits sym ptr st s x K fuel i (list.map TNm.use) m := by
  induction fuel generalizing i list m with
  | zero => rw [listSymtabFrom, TableFits]; exact iff_of_false returns_fault id
  | succ fuel ih =>
    have hget : ∀ m', m'.size = m.size → getNlist m' ptr i x sym = .ok (nlistAt m' x ptr sym i) :=
      fun m' h => getNlist_host (h ▸ hsym)
    rw [listSymtabFrom, TableFits, Buffer.field_ok (by unfold symtabSize at hsym; omega), ok_bind]
    refine returns_ite ?_ returns_ok
    by_cases hst : isSafe m st
    · rw [if_pos hst, hget m rfl, ok_bind]
      by_cases he : isSafe m (nlistAt m x ptr sym i)
      · rw [if_pos he, if_pos (show isSafe m st ∧ isSafe m (nlistAt m x ptr sym i) from ⟨hst, he⟩)]
        simp only [ite_bind]
        rw [returns_bind, returns_entry]
        apply and_congr_right
        intro _
        rw [hget _ (by simp), ok_bind, returns_bind, initOneNm, returns_bind,
          ← getSymbolLetter_returns]
        apply returns_congr
        intro r hr
        obtain ⟨type, m'⟩ := r
        have hsize : m'.size = m.size := (getSymbolLetter_size hr).trans size_entryImage
        apply returns_ok.trans
        simp only
        rw [hget _ hsize, ok_bind, getSymbolName, returns_bind, returns_bind,
          Buffer.returns_field]
        apply and_congr_right
        intro _
        rw [pure_eq, returns_ok]
        refine returns_ite ?_ returns_ok
        rw [ih (hsize ▸ hsym), addList_eq, List.map_append, List.map_cons, List.map_nil, TNm.use,
          getSymbolLetter_hidden hr, strx]
      · rw [if_neg he, if_neg fun h => he h.2]
        exact returns_ok
    · rw [if_neg hst, if_neg fun h => hst h.1]
      exact returns_ok

/-! ## The whole run -/

/-- `listSymtab` at the command `lc`. -/
def SymtabFits (ptr lc : Nat) (s x : Bool) (K : List (Nat × Bool) → Buffer → Prop) (m : Buffer) :
    Prop :=
  if isSafe m (lc + symtabSize : Nat) then
    let m := symtabImage s m lc
    TableFits lc ptr (ptr + stroff m lc) s x K (2 ^ 32) 0 [] m
  else K [] m

/-- The walk of `getNmList` at the command `lc`: `is_safe` covers all that it reads. -/
def WalkFits (ptr : Nat) (s x : Bool) (K : List (Nat × Bool) → Buffer → Prop) :
    Nat → Nat → Buffer → Prop
  | 0, _, m => K [] m
  | n + 1, lc, m =>
    if isSafe m (lc + 8 : Nat) then
      let m := commandImage s m lc
      if cmd m lc = LC_SYMTAB then SymtabFits ptr lc s x K m
      else WalkFits ptr s x K n (lc + cmdsize m lc) m
    else K [] m

/-- `handle_not_fat` on the image at `ptr`. -/
def ThinFits (m : Buffer) (s x : Bool) (ptr : Nat) (K : List (Nat × Bool) → Buffer → Prop) : Prop :=
  if isSafe m ptr ∧ isLcSafe m ptr x then
    let m := headerImage s m ptr
    WalkFits ptr s x K (ncmds m ptr) (ptr + headerSize x) m
  else K [] m

theorem listSymtab_eq (h : lc + symtabSize ≤ mapSize m) :
    listSymtab lc ptr s x m = listSymtabFrom lc ptr (ptr + stroff (symtabImage s m lc) lc) s x
      (2 ^ 32) 0 [] (symtabImage s m lc) := by
  have hle := h.trans (mapSize_le m)
  rw [listSymtab, if_pos ((isSafe_natCast m _).mpr h)]
  simp only [ite_bind]
  rw [symtabImage_ok hle, ok_bind, Buffer.field_ok (by unfold symtabSize at hle; simp; omega), ok_bind]
  rfl

theorem getNmListFrom_succ (h : lc + 8 ≤ mapSize m) :
    getNmListFrom ptr s x (n + 1) lc m =
      if cmd (commandImage s m lc) lc = LC_SYMTAB then listSymtab lc ptr s x (commandImage s m lc)
      else getNmListFrom ptr s x n (lc + cmdsize (commandImage s m lc) lc) (commandImage s m lc) := by
  have hle := h.trans (mapSize_le m)
  rw [getNmListFrom, if_pos ((isSafe_natCast m _).mpr h)]
  simp only [ite_bind]
  rw [commandImage_ok hle, ok_bind, Buffer.field_ok (by simp; omega), ok_bind,
    Buffer.field_ok (by simp; omega), ok_bind]
  rfl

theorem handleNotFat_eq (h : isSafe m ptr) (hlc : isLcSafe m ptr x) :
    handleNotFat m x s ptr = getNmListFrom ptr s x (ncmds (headerImage s m ptr) ptr)
      (ptr + headerSize x) (headerImage s m ptr) := by
  rw [handleNotFat, if_pos h, getLc_ok hlc, ok_bind]
  rfl

theorem listSymtab_returns {K : List (Nat × Bool) → Buffer → Prop} :
    ((listSymtab lc ptr s x m).Returns fun r => K (r.1.map TNm.use) r.2) ↔
      SymtabFits ptr lc s x K m := by
  unfold SymtabFits
  by_cases h : isSafe m (lc + symtabSize : Nat)
  · have hle := (isSafe_natCast m _).mp h
    rw [if_pos h, listSymtab_eq hle]
    exact listSymtabFrom_returns (by simpa using hle.trans (mapSize_le m))
  · rw [if_neg h, listSymtab, if_neg h]
    exact returns_ok

theorem getNmListFrom_returns {K : List (Nat × Bool) → Buffer → Prop} :
    ((getNmListFrom ptr s x n lc m).Returns fun r => K (r.1.map TNm.use) r.2) ↔
      WalkFits ptr s x K n lc m := by
  induction n generalizing lc m with
  | zero => exact returns_ok
  | succ n ih =>
    unfold WalkFits
    by_cases h : isSafe m (lc + 8 : Nat)
    · rw [if_pos h, getNmListFrom_succ ((isSafe_natCast m _).mp h)]
      exact returns_ite listSymtab_returns ih
    · rw [if_neg h, getNmListFrom, if_neg h]
      exact returns_ok

/-- The run returns a list whose names satisfy `K` exactly when the image fits it. -/
theorem handleNotFat_returns {K : List (Nat × Bool) → Buffer → Prop} :
    ((handleNotFat m x s ptr).Returns fun r => K (r.1.map TNm.use) r.2) ↔
      ThinFits m s x ptr K := by
  unfold ThinFits
  by_cases h : isSafe m ptr
  · by_cases hlc : isLcSafe m ptr x
    · rw [if_pos ⟨h, hlc⟩, handleNotFat_eq h hlc]
      exact getNmListFrom_returns
    · rw [if_neg fun h => hlc h.2, handleNotFat, if_pos h, getLc_none hlc]
      exact returns_ok
  · rw [if_neg fun h' => h h'.1, handleNotFat, if_neg h]
    exact returns_ok

/-! ## The run behind a list -/

/-- The first LC_SYMTAB command that the walk from the command `lc` reaches, and the image there. -/
def symtabReachedFrom (s : Bool) : Nat → Nat → Buffer → Option (Buffer × Nat)
  | 0, _, _ => none
  | n + 1, lc, m =>
    if isSafe m (lc + 8 : Nat) then
      let m := commandImage s m lc
      if cmd m lc = LC_SYMTAB then some (m, lc)
      else symtabReachedFrom s n (lc + cmdsize m lc) m
    else none

def symtabReached (m : Buffer) (s x : Bool) (ptr : Nat) : Option (Buffer × Nat) :=
  let m := headerImage s m ptr
  symtabReachedFrom s (ncmds m ptr) (ptr + headerSize x) m

/-- A list comes from an LC_SYMTAB command that the walk has reached. -/
theorem getNmListFrom_listed {r : List TNm × Buffer} (h : getNmListFrom ptr s x n lc m = .ok r)
    (hne : r.1 ≠ []) : ∃ m₁ sym, symtabReachedFrom s n lc m = some (m₁, sym) ∧
      listSymtab sym ptr s x m₁ = .ok r := by
  induction n generalizing lc m with
  | zero =>
    cases h
    exact absurd rfl hne
  | succ n ih =>
    unfold symtabReachedFrom
    by_cases hs : isSafe m (lc + 8 : Nat)
    · rw [getNmListFrom_succ ((isSafe_natCast m _).mp hs)] at h
      rw [if_pos hs]
      simp only
      by_cases hc : cmd (commandImage s m lc) lc = LC_SYMTAB
      · rw [if_pos hc] at h ⊢
        exact ⟨_, _, rfl, h⟩
      · rw [if_neg hc] at h ⊢
        exact ih h
    · rw [getNmListFrom, if_neg hs] at h
      cases h
      exact absurd rfl hne

theorem handleNotFat_listed {r : List TNm × Buffer} (h : handleNotFat m x s ptr = .ok r)
    (hne : r.1 ≠ []) : ∃ m₁ sym, symtabReached m s x ptr = some (m₁, sym) ∧
      sym + symtabSize ≤ mapSize m₁ ∧
      listSymtabFrom sym ptr (ptr + stroff (symtabImage s m₁ sym) sym) s x (2 ^ 32) 0 []
        (symtabImage s m₁ sym) = .ok r := by
  have hnil : ∀ m', (pure ([], m') : Checked (List TNm × Buffer)) = .ok r → False := by
    rintro m' ⟨⟩
    exact hne rfl
  by_cases hs : isSafe m ptr
  · by_cases hlc : isLcSafe m ptr x
    · rw [handleNotFat_eq hs hlc] at h
      obtain ⟨m₁, sym, hreach, hl⟩ := getNmListFrom_listed h hne
      refine ⟨m₁, sym, hreach, ?_⟩
      by_cases h24 : sym + symtabSize ≤ mapSize m₁
      · rw [listSymtab_eq h24] at hl
        exact ⟨h24, hl⟩
      · rw [listSymtab, if_neg fun h => h24 ((isSafe_natCast m₁ _).mp h)] at hl
        exact (hnil _ hl).elim
    · rw [handleNotFat, if_pos hs, getLc_none hlc] at h
      exact (hnil _ h).elim
  · rw [handleNotFat, if_neg hs] at h
    exact (hnil _ h).elim

end NmOtool.Nm
