import NmOtool.Nm.Atomic
import NmOtool.Nm.Requires

/-!
# ft_nm: names and the string table

`get_symbol_name` adds `n_strx`, as an `int`, to the address of the string table, and no one looks
at `strsize`. So a listed name lies in the string table exactly when the index it was computed from
does (`IndexFits`).
-/

namespace NmOtool.Nm

open MachO Checked

variable {m m' : Buffer} {s x : Bool} {ptr sym st size i v fuel : Nat} {list : List TNm}

/-- The string at `p` begins and ends in `[lo, hi)`. -/
def InTable (m : Buffer) (lo hi p : Nat) : Prop :=
  lo ≤ p ∧ p < hi ∧ ∃ q, p ≤ q ∧ q < hi ∧ m.byte q = 0

/-- The index is not negative as an `int`, and the string it names begins and ends in the table of
`size` bytes at `st`. -/
def IndexFits (m : Buffer) (st size v : Nat) : Prop :=
  v < 2 ^ 31 ∧ v < size ∧ ∃ q, st + v ≤ q ∧ q < st + size ∧ m.byte q = 0

/-- The name that `get_symbol_name` computes from an index. -/
def nameOf (st v : Nat) : Nat := (st + int32 v : Int).toNat

theorem inTable_iff (hv : v < 2 ^ 32) (h0 : 0 ≤ (st : Int) + int32 v) :
    InTable m st (st + size) (nameOf st v) ↔ IndexFits m st size v := by
  rcases Nat.lt_or_ge v (2 ^ 31) with hlt | hge
  · have hname : nameOf st v = st + v := by
      rw [nameOf, int32_of_lt hlt]
      omega
    rw [hname]
    constructor
    · rintro ⟨-, hin, hnul⟩
      exact ⟨hlt, by omega, hnul⟩
    · rintro ⟨-, hin, hnul⟩
      exact ⟨by omega, by omega, hnul⟩
  · have hname : nameOf st v < st := by
      rw [int32_of_ge hge hv] at h0
      rw [nameOf, int32_of_ge hge hv]
      omega
    exact iff_of_false (fun h => absurd h.1 (by omega)) fun h => absurd h.1 (by omega)

/-! ## The indices of a run -/

/-- The image in which the name of entry `i` is looked up: the entry swapped, its letter found. -/
def nameImage (m : Buffer) (s x : Bool) (ptr sym i : Nat) : Buffer :=
  let m := entryImage s x m (nlistAt m x ptr sym i)
  match getSymbolLetter m ptr (nlistAt m x ptr sym i) s x with
  | .ok r => r.2
  | .fault => m

/-- The indices that the loop of `list_symtab` hands to `get_symbol_name`, from entry `i` on. -/
def indicesFrom (s x : Bool) (ptr sym : Nat) : Nat → Nat → Buffer → List Nat
  | 0, _, _ => []
  | fuel + 1, i, m =>
    if i < nsyms m sym then
      let m := nameImage m s x ptr sym i
      strx m (nlistAt m x ptr sym i) :: indicesFrom s x ptr sym fuel (i + 1) m
    else []

theorem nameImage_eq {letter : UInt8} {m₂ : Buffer}
    (h : getSymbolLetter (entryImage s x m (nlistAt m x ptr sym i)) ptr
      (nlistAt (entryImage s x m (nlistAt m x ptr sym i)) x ptr sym i) s x = .ok (letter, m₂)) :
    nameImage m s x ptr sym i = m₂ := by
  simp only [nameImage, h]

/-- The names of the list that the loop returns are computed from its indices. -/
theorem listSymtabFrom_names {r : List TNm × Buffer}
    (h : listSymtabFrom sym ptr st s x fuel i list m = .ok r) (hne : r.1 ≠ []) :
    r.1.map TNm.name = list.map TNm.name ++
        (indicesFrom s x ptr sym fuel i m).map (nameOf st) ∧
      ∀ v ∈ indicesFrom s x ptr sym fuel i m, v < 2 ^ 32 ∧ 0 ≤ (st : Int) + int32 v := by
  induction fuel generalizing i list m with
  | zero => cases h
  | succ fuel ih =>
    unfold indicesFrom
    rcases listSymtabFrom_cases h with
      ⟨hi, rfl⟩ | ⟨-, hnil, -⟩ | ⟨hi, letter, m₂, hletter, hsafe, hnext⟩
    · rw [if_neg hi]
      simp
    · exact absurd hnil hne
    · rw [if_pos hi]
      simp only [nameImage_eq hletter]
      obtain ⟨hnames, hall⟩ := ih hnext
      constructor
      · rw [hnames, List.map_append, List.append_assoc, List.map_singleton, List.map_cons]
        simp only [builtRecord, List.singleton_append, nameOf]
      · intro v hv
        rcases List.mem_cons.mp hv with rfl | hv
        · exact ⟨m₂.le_lt, hsafe.1⟩
        · exact hall v hv

theorem nameImage_host : nameImage m false x ptr sym i = m := by
  unfold nameImage
  simp only [entryImage_false]
  rcases keep_cases (getSymbolLetter_keep m ptr (nlistAt m x ptr sym i) x) with h | ⟨letter, h⟩ <;>
    rw [h]

/-- In host order the indices are those of the entries. -/
theorem mem_indicesFrom_host (hf : nsyms m sym ≤ fuel + i) :
    v ∈ indicesFrom false x ptr sym fuel i m ↔
      ∃ j, i ≤ j ∧ j < nsyms m sym ∧ strx m (nlistAt m x ptr sym j) = v := by
  induction fuel generalizing i with
  | zero =>
    apply iff_of_false (List.not_mem_nil)
    rintro ⟨j, h1, h2, -⟩
    omega
  | succ fuel ih =>
    rw [indicesFrom, nameImage_host]
    by_cases hi : i < nsyms m sym
    · rw [if_pos hi, List.mem_cons, ih (by omega)]
      constructor
      · rintro (rfl | ⟨j, h1, h2, h3⟩)
        · exact ⟨i, Nat.le_refl _, hi, rfl⟩
        · exact ⟨j, by omega, h2, h3⟩
      · rintro ⟨j, h1, h2, h3⟩
        rcases Nat.lt_or_eq_of_le h1 with h1 | rfl
        · exact .inr ⟨j, h1, h2, h3⟩
        · exact .inl h3.symm
    · rw [if_neg hi]
      apply iff_of_false (List.not_mem_nil)
      rintro ⟨j, h1, h2, -⟩
      omega

/-- In host order the walk reaches the first LC_SYMTAB command, and changes nothing. -/
theorem symtabReachedFrom_host {n lc : Nat} {m₁ : Buffer}
    (h : symtabReachedFrom false n lc m = some (m₁, sym)) :
    m₁ = m ∧ (commandsFrom m n lc).find? (fun c => cmd m c == LC_SYMTAB) = some sym := by
  induction n generalizing lc with
  | zero => cases h
  | succ n ih =>
    unfold symtabReachedFrom at h
    simp only [commandImage_false] at h
    rw [commandsFrom, List.find?_cons]
    rcases ite_eq_iff.mp h with ⟨-, h⟩ | ⟨-, h⟩
    · rcases ite_eq_iff.mp h with ⟨hc, h⟩ | ⟨hc, h⟩
      · cases h
        rw [hc]
        exact ⟨rfl, rfl⟩
      · rw [beq_false_of_ne hc]
        exact ih h
    · cases h

/-! ## Whole runs -/

/-- The names of the records lie in the string table of the LC_SYMTAB command at `sym` in `m`, and
`m'` is the image in which the run leaves them. -/
def NamesInTable (m m' : Buffer) (ptr sym : Nat) (list : List TNm) : Prop :=
  ∀ r ∈ list, InTable m' (ptr + stroff m sym) (ptr + stroff m sym + strsize m sym) r.name

/-- The names of a list lie in the string table if and only if all indices do that the run hands to
`get_symbol_name`; in host order these are the `n_strx` of the entries, and the image is as it
was. -/
theorem handleNotFat_strings (h : handleNotFat m x s ptr = .ok (list, m')) (hne : list ≠ []) :
    (∃ m₀ sym, symtabReached m s x ptr = some (m₀, sym) ∧
      let m₁ := symtabImage s m₀ sym
      (NamesInTable m₁ m' ptr sym list ↔ ∀ v ∈ indicesFrom s x ptr sym (2 ^ 32) 0 m₁,
        IndexFits m' (ptr + stroff m₁ sym) (strsize m₁ sym) v)) ∧
    (s = false → m' = m ∧ ∃ sym, symtabCommand m x ptr = some sym ∧
      (NamesInTable m m ptr sym list ↔ ∀ i < nsyms m sym,
        IndexFits m (ptr + stroff m sym) (strsize m sym) (strx m (nlistAt m x ptr sym i)))) := by
  obtain ⟨m₁, sym, hreach, h24, hl⟩ := handleNotFat_listed h hne
  obtain ⟨hnames, hall⟩ := listSymtabFrom_names hl hne
  have hiff : NamesInTable (symtabImage s m₁ sym) m' ptr sym list ↔
      ∀ v ∈ indicesFrom s x ptr sym (2 ^ 32) 0 (symtabImage s m₁ sym),
        IndexFits m' (ptr + stroff (symtabImage s m₁ sym) sym)
          (strsize (symtabImage s m₁ sym) sym) v := by
    have hrecords : NamesInTable (symtabImage s m₁ sym) m' ptr sym list ↔
        ∀ p ∈ list.map TNm.name, InTable m' (ptr + stroff (symtabImage s m₁ sym) sym)
          (ptr + stroff (symtabImage s m₁ sym) sym + strsize (symtabImage s m₁ sym) sym) p :=
      List.forall_mem_map.symm
    rw [hrecords, show list.map TNm.name = _ from hnames, List.map_nil, List.nil_append,
      List.forall_mem_map]
    refine forall₂_congr fun v hv => ?_
    obtain ⟨hlt, h0⟩ := hall v hv
    exact inTable_iff hlt h0
  refine ⟨⟨m₁, sym, hreach, hiff⟩, ?_⟩
  rintro rfl
  have hkeep : m' = m := by
    have hsame : handleNotFat m x false ptr = keep m (handleNotFat m x false ptr) :=
      handleNotFat_keep
    rw [h] at hsame
    exact congrArg Prod.snd (Checked.ok.inj hsame)
  obtain ⟨hm₁, hfind⟩ := symtabReachedFrom_host hreach
  rw [hkeep, symtabImage_false, show m₁ = m from hm₁] at hiff
  have hn : nsyms m sym ≤ 2 ^ 32 + 0 := Nat.le_of_lt m.le_lt
  refine ⟨hkeep, sym, hfind, hiff.trans ⟨fun h i hi => ?_, fun h v hv => ?_⟩⟩
  · exact h _ ((mem_indicesFrom_host hn).mpr ⟨i, Nat.zero_le _, hi, rfl⟩)
  · obtain ⟨i, -, hi, rfl⟩ := (mem_indicesFrom_host hn).mp hv
    exact h i hi

/-- The indices of a well-formed symbol table fit, as far as they survive the `int`. -/
theorem WfSymtab.indexFits (h : WfSymtab m x ptr sym) (hi : i < nsyms m sym)
    (hx : strx m (nlistAt m x ptr sym i) < 2 ^ 31) :
    IndexFits m (ptr + stroff m sym) (strsize m sym) (strx m (nlistAt m x ptr sym i)) :=
  ⟨hx, h.strx i hi, h.name i hi⟩

theorem handleNotFat_strings_smallFile :
    ∃ list, list ≠ [] ∧ NamesInTable ((smallFile true).image .little true)
      ((smallFile true).image .little true) 0 184 list := by
  have hwf := (smallFile_wf true).wellFormed (smallFile_encodes .little true)
  have hlisted := listed_of_lt hwf (by decide +kernel)
  have hrun := handleNotFat_host hwf
  rw [if_pos hlisted] at hrun
  have hne : records ((smallFile true).image .little true) true 0
      ((smallFile true).symtabAt true) ≠ [] := by
    rw [← List.length_pos_iff, records, List.length_map, List.length_range]
    decide +kernel
  refine ⟨_, hne, ?_⟩
  obtain ⟨-, sym, hsym, hiff⟩ := (handleNotFat_strings hrun hne).2 rfl
  obtain rfl : sym = (smallFile true).symtabAt true :=
    Option.some.inj (hsym.symm.trans hwf.symtab)
  exact hiff.mpr fun i hi => WfSymtab.indexFits hwf.table hi
    (strxFits_of_lt hwf (by decide +kernel) i hi)

/-- A 32-bit file with one symbol whose `n_strx`, 4, lies behind the one byte of its string
table. -/
def badStringIndex : Buffer := .ofBytes 72 <|
  [0xce, 0xfa, 0xed, 0xfe, 7, 0, 0, 0, 3, 0, 0, 0, 2, 0, 0, 0, 1, 0, 0, 0, 24, 0, 0, 0, 0, 0, 0, 0] ++
  [2, 0, 0, 0, 24, 0, 0, 0, 52, 0, 0, 0, 1, 0, 0, 0, 64, 0, 0, 0, 1, 0, 0, 0] ++
  [4, 0, 0, 0, 1, 0, 0, 0, 0, 0, 0, 0] ++ [0, 0, 0, 0, 0x61, 0, 0, 0]

/-- The name at 68 is listed, from a table that ends at 65. -/
theorem badStringIndex_listed :
    ¬ ∀ m x s ptr list m', handleNotFat m x s ptr = .ok (list, m') → list ≠ [] →
      ∀ m₀ sym, symtabReached m s x ptr = some (m₀, sym) →
        NamesInTable (symtabImage s m₀ sym) m' ptr sym list := by
  intro h
  have hrun : answer (handleNotFat badStringIndex false false 0) =
      some [⟨false, 'U'.toUInt8, 60, 68⟩] := by decide +kernel
  obtain ⟨m', hrun⟩ := answer_eq_some.mp hrun
  have hreach : (symtabReached badStringIndex false false 0).map Prod.snd = some 28 := by
    decide +kernel
  obtain ⟨⟨m₀, sym⟩, hreach, rfl⟩ := Option.map_eq_some_iff.mp hreach
  obtain ⟨hm₀, -⟩ := symtabReachedFrom_host hreach
  have hin := h _ _ _ _ _ _ hrun (by simp) m₀ _ hreach _ List.mem_cons_self
  rw [show m₀ = badStringIndex from hm₀] at hin
  exact absurd hin.2.1 (by decide +kernel)

end NmOtool.Nm
