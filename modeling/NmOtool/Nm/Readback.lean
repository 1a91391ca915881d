import NmOtool.Base.Lines
import NmOtool.Nm.Arranged
import NmOtool.Nm.Render

/-!
# ft_nm: a listing is read back

A reader of the default listing: `readListing` gives, line by line, the name, the letter and the
value that the run printed. Names that hold no newline come back unchanged, so two files with one
listing show the same symbols; the converse is the arrangement of the symbol table.
-/

namespace NmOtool.Nm

open MachO Checked

variable {m m' : Buffer} {x : Bool} {sym sym' w : Nat} {flags : List UInt8} {d d' : Picture}
  {l : List Shown} {r : Shown}

/-! ## The reader -/

/-- A line without its newline: `2 * w` digits, a blank, the letter, a blank, the name. -/
def readLine (w : Nat) (line : List UInt8) : Shown where
  name := line.drop (2 * w + 3)
  letter := line.getD (2 * w + 1) 0
  value := readHex (line.take (2 * w))

def readListing (w : Nat) (text : List UInt8) : List Shown :=
  (splitLines '\n'.toUInt8 text).map (readLine w)

/-! ## What is printed can be read -/

/-- A symbol whose line is read back. -/
structure Legible (w : Nat) (r : Shown) : Prop where
  value : r.value < 256 ^ w
  length : r.name.length < 2 ^ 31
  name : '\n'.toUInt8 ∉ r.name
  letter : '\n'.toUInt8 ≠ r.letter

/-- The line of a symbol without its newline. -/
def fieldsOf (w : Nat) (r : Shown) : List UInt8 :=
  hexWord w r.value ++ ascii " " ++ [r.letter] ++ ascii " " ++ r.name

theorem lineOf_default (h : Legible (wordSize x) r) (hu : ftStrchr flags 'u'.toUInt8 = false)
    (hj : ftStrchr flags 'j'.toUInt8 = false) :
    lineOf x flags r = fieldsOf (wordSize x) r ++ ['\n'.toUInt8] := by
  rw [lineOf, hu, hj, ftPrintfS_eq h.length]
  rfl

theorem newline_not_mem_fieldsOf (h : Legible w r) : '\n'.toUInt8 ∉ fieldsOf w r := by
  have hdigits : '\n'.toUInt8 ∉ hexWord w r.value := fun hc =>
    absurd ((hexWord_numeral h.value).digits _ hc) (by decide)
  have hblank : '\n'.toUInt8 ∉ ascii " " := by decide
  unfold fieldsOf
  simp only [List.mem_append, List.mem_singleton, not_or]
  exact ⟨⟨⟨⟨hdigits, hblank⟩, h.letter⟩, hblank⟩, h.name⟩

theorem readLine_fieldsOf (h : Legible w r) : readLine w (fieldsOf w r) = r := by
  have hlen := length_hexWord w r.value
  have hsplit : fieldsOf w r =
      hexWord w r.value ++ (' '.toUInt8 :: r.letter :: ' '.toUInt8 :: r.name) := by
    simp [fieldsOf, ascii]
  unfold readLine
  rw [hsplit, List.take_left' hlen, (hexWord_numeral h.value).value]
  congr 1
  · rw [List.drop_append, hlen, List.drop_eq_nil_of_le (by omega), Nat.add_sub_cancel_left]
    rfl
  · rw [List.getD_append_right _ _ _ _ (by omega), hlen, Nat.add_sub_cancel_left]
    rfl

/-- The lines of the default listing are read back. -/
theorem readListing_lines (h : ∀ r ∈ l, Legible (wordSize x) r)
    (hu : ftStrchr flags 'u'.toUInt8 = false) (hj : ftStrchr flags 'j'.toUInt8 = false) :
    readListing (wordSize x) (l.flatMap (lineOf x flags)) = l := by
  have hlines : l.flatMap (lineOf x flags) =
      (l.map (fieldsOf (wordSize x))).flatMap (· ++ ['\n'.toUInt8]) := by
    rw [List.flatMap_map]
    exact List.flatMap_congr fun r hr => lineOf_default (h r hr) hu hj
  have hread : l.map (readLine (wordSize x) ∘ fieldsOf (wordSize x)) = l.map id :=
    List.map_congr_left fun r hr => readLine_fieldsOf (h r hr)
  rw [readListing, hlines, splitLines_flatMap, List.map_map, hread, List.map_id]
  intro line hline
  obtain ⟨r, hr, rfl⟩ := List.mem_map.mp hline
  exact newline_not_mem_fieldsOf (h r hr)

/-! ## The symbols of a file -/

theorem show_letter_ne (d : Picture) (s : PictureSymbol) : '\n'.toUInt8 ≠ (d.show s).letter := by
  have hsect := sectLetter_mem d (s.sect - 1)
  have hpre := preLetter_mem s.type (s.desc &&& N_WEAK_REF != 0) s.value
  unfold Picture.show classify
  simp only
  generalize preLetter s.type (s.desc &&& N_WEAK_REF != 0) s.value = p at hpre ⊢
  generalize (d.sections[s.sect - 1]?).elim 's'.toUInt8 namesLetter = a at hsect ⊢
  have hletters : ∀ p ∈ preLetters, ∀ a ∈ sectLetters,
      '\n'.toUInt8 ≠ (if p = 's'.toUInt8 then a else p) ∧
      '\n'.toUInt8 ≠ (if p = 's'.toUInt8 then a else p) - ('a'.toUInt8 - 'A'.toUInt8) := by
    decide +kernel
  obtain ⟨hlower, hupper⟩ := hletters p hpre a hsect
  generalize (if p = 's'.toUInt8 then a else p) = c at hlower hupper ⊢
  split
  · exact hupper
  · exact hlower

theorem length_cstrUpTo {n : Nat} : ∀ {p}, (m.cstrUpTo n p).length ≤ n := by
  induction n with
  | zero => exact Nat.le_refl 0
  | succ n ih =>
    intro p
    unfold Buffer.cstrUpTo
    split
    · exact Nat.zero_le _
    · exact Nat.succ_le_succ ih

/-- The symbols of a file below 2 GiB whose names hold no newline. -/
theorem legible_shown (h : Depicts m x sym d) (hsz : m.size < 2 ^ 31)
    (hnames : ∀ s ∈ d.symbols, '\n'.toUInt8 ∉ s.name) :
    ∀ r ∈ d.symbols.map d.show, Legible (wordSize x) r := by
  intro r hr
  obtain ⟨s, hs, rfl⟩ := List.mem_map.mp hr
  have hname := hnames s hs
  have hletter := show_letter_ne d s
  obtain ⟨i, hi, rfl⟩ : ∃ i < nsyms m sym, symbolOf m x 0 sym i = s := by
    rw [← h.picture] at hs
    obtain ⟨i, hi, rfl⟩ := List.mem_map.mp hs
    exact ⟨i, List.mem_range.mp hi, rfl⟩
  have hlen : (m.cstr (nameAt m x 0 sym i)).length ≤ m.size - nameAt m x 0 sym i :=
    length_cstrUpTo
  refine ⟨m.le_lt, ?_, hname, hletter⟩
  change (m.cstr (nameAt m x 0 sym i)).length < 2 ^ 31
  omega

theorem legible_list (h : Depicts m x sym d) (hsz : m.size < 2 ^ 31)
    (hnames : ∀ s ∈ d.symbols, '\n'.toUInt8 ∉ s.name) :
    ∀ r ∈ d.list flags, Legible (wordSize x) r :=
  fun r hr => legible_shown h hsz hnames r (List.mem_of_mem_filter (list_perm.subset hr))

/-- What is printed for a file on its own is read back to the symbols that the flags list. -/
theorem nm_readback (h : Depicts m x sym d) (hsz : m.size < 2 ^ 31) (hne : d.symbols ≠ [])
    (hnames : ∀ s ∈ d.symbols, '\n'.toUInt8 ∉ s.name) (hu : ftStrchr flags 'u'.toUInt8 = false)
    (hj : ftStrchr flags 'j'.toUInt8 = false) (name : List UInt8) :
    ∃ o, nm m name ⟨false, true⟩ flags = .ok o ∧ readListing (wordSize x) o.out = d.list flags := by
  refine ⟨_, nm_depicts h hsz name ⟨false, true⟩, ?_⟩
  rw [Picture.outcome, if_neg hne]
  exact readListing_lines (legible_list h hsz hnames) hu hj

/-- Two files of one width have the same default listing exactly if they show the same symbols, in
whatever order their tables have them, or have no symbols at all. -/
theorem nm_same_listing (h : Depicts m x sym d) (h' : Depicts m' x sym' d')
    (hsz : m.size < 2 ^ 31) (hsz' : m'.size < 2 ^ 31)
    (hnames : ∀ s ∈ d.symbols, '\n'.toUInt8 ∉ s.name)
    (hnames' : ∀ s ∈ d'.symbols, '\n'.toUInt8 ∉ s.name) (hset : d.Settled) (hset' : d'.Settled)
    (hp : ftStrchr flags 'p'.toUInt8 = false) (hu : ftStrchr flags 'u'.toUInt8 = false)
    (hj : ftStrchr flags 'j'.toUInt8 = false) (name : List UInt8) (num : TNu) :
    nm m' name num flags = nm m name num flags ↔
      (d'.symbols = [] ↔ d.symbols = []) ∧
        (selectShown flags (d'.symbols.map d'.show)).Perm
          (selectShown flags (d.symbols.map d.show)) := by
  rw [nm_depicts h hsz, nm_depicts h' hsz', Picture.outcome, Picture.outcome]
  constructor
  · intro hsame
    have houtcome := Checked.ok.inj hsame
    by_cases hd : d.symbols = [] <;> by_cases hd' : d'.symbols = []
    · rw [hd, hd']
      exact ⟨Iff.rfl, .refl _⟩
    · rw [if_neg hd', if_pos hd] at houtcome
      have hret : (0 : Int) = -1 := congrArg Outcome.ret houtcome
      exact absurd hret (by decide)
    · rw [if_pos hd', if_neg hd] at houtcome
      have hret : (-1 : Int) = 0 := congrArg Outcome.ret houtcome
      exact absurd hret (by decide)
    · rw [if_neg hd, if_neg hd'] at houtcome
      have hout := congrArg Outcome.out houtcome
      simp only at hout
      have hlines := List.append_cancel_left (List.append_cancel_left hout)
      have hlist := congrArg (readListing (wordSize x)) hlines
      rw [readListing_lines (legible_list h hsz hnames) hu hj,
        readListing_lines (legible_list h' hsz' hnames') hu hj] at hlist
      exact ⟨iff_of_false hd' hd, (list_perm.symm.trans (.of_eq hlist)).trans list_perm⟩
  · rintro ⟨hnil, hsame⟩
    rw [list_eq_of_perm hset hset' hp hsame]
    simp only [hnil]

/-- The small file with its symbol table the other way round. -/
def turnedFile : ObjectFile := { smallFile true with symbols := (smallFile true).symbols.reverse }

theorem turnedFile_wf : turnedFile.Wf true where
  area := (smallFile_wf true).area
  before := (smallFile_wf true).before
  after := (smallFile_wf true).after
  symoff := (smallFile_wf true).symoff
  nsyms := (smallFile_wf true).nsyms
  stroff := (smallFile_wf true).stroff
  strsize := (smallFile_wf true).strsize
  symbols := fun s hs =>
    let h := (smallFile_wf true).symbols s (List.mem_reverse.mp hs)
    ⟨h.strx, h.named, h.desc, h.value, h.sect⟩
  entries := (smallFile_wf true).entries
  strings := (smallFile_wf true).strings
  disjoint := (smallFile_wf true).disjoint

theorem turnedFile_depicts : Depicts (turnedFile.image .little true) true 184
    (picture (turnedFile.image .little true) true 0 184) :=
  ⟨turnedFile_wf.wellFormed (turnedFile_wf.encodes rfl rfl (Nat.le_refl _)), rfl⟩

theorem nm_same_listing_turnedFile :
    nm (turnedFile.image .little true) (ascii "a.o") ⟨false, true⟩ (ascii "r") =
      nm ((smallFile true).image .little true) (ascii "a.o") ⟨false, true⟩ (ascii "r") :=
  (nm_same_listing smallFile_depicts.2 turnedFile_depicts (by decide +kernel) (by decide +kernel)
    (by decide +kernel) (by decide +kernel) smallFile_settled
    (settled_of_apart (by decide +kernel) (by decide +kernel)) rfl rfl rfl _ _).mpr
    ⟨by decide +kernel, by decide +kernel⟩

theorem nm_readback_smallFile : ∃ o,
    nm ((smallFile true).image .little true) (ascii "a.o") ⟨false, true⟩ [] = .ok o ∧
      readListing 8 o.out = (picture ((smallFile true).image .little true) true 0 184).list [] :=
  nm_readback smallFile_depicts.2 (by decide +kernel) (by decide +kernel) (by decide +kernel) rfl
    rfl _

end NmOtool.Nm
