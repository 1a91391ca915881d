import NmOtool.Nm.InBounds
import NmOtool.Nm.Local

/-!
# ft_nm: all records or none

A host-order run on any thin image, well-formed or not, that stays in the map. The list is built
entry by entry, but each branch that gives up drops it, so what `handle_not_fat` returns is empty
or complete (`Complete`), and it is complete exactly when no check failed on the way.
-/

namespace NmOtool.Nm

open MachO Checked

variable {m : Buffer} {x : Bool} {ptr lc sym i n fuel : Nat} {list : List TNm}

/-! ## The symbol table -/

/-- The record that `list_symtab` makes of entry `i`. -/
structure BuiltFrom (m : Buffer) (x : Bool) (ptr sym i : Nat) (r : TNm) : Prop where
  is64 : r.is64 = x
  letter : getSymbolLetter m ptr (nlistAt m x ptr sym i) false x = .ok (r.type, m)
  add : r.add = nlistAt m x ptr sym i + 8
  name : (r.name : Int) = nameRef m x ptr sym i

/-- The records of the first `n` entries, in their order. -/
structure BuiltUpTo (m : Buffer) (x : Bool) (ptr sym n : Nat) (list : List TNm) : Prop where
  length : list.length = n
  entry : ∀ i r, list[i]? = some r → BuiltFrom m x ptr sym i r

/-- The records of all entries. -/
abbrev Complete (m : Buffer) (x : Bool) (ptr sym : Nat) (list : List TNm) : Prop :=
  BuiltUpTo m x ptr sym (nsyms m sym) list

theorem BuiltUpTo.nil : BuiltUpTo m x ptr sym 0 [] := ⟨rfl, by simp⟩

theorem BuiltUpTo.append {r : TNm} (h : BuiltUpTo m x ptr sym n list)
    (hr : BuiltFrom m x ptr sym n r) : BuiltUpTo m x ptr sym (n + 1) (list ++ [r]) := by
  refine ⟨by rw [List.length_append, h.length]; rfl, fun i t ht => ?_⟩
  rcases Nat.lt_or_ge i list.length with hi | hi
  · rw [List.getElem?_append_left hi] at ht
    exact h.entry i t ht
  · rw [List.getElem?_append_right hi] at ht
    obtain ⟨hlt, rfl⟩ := List.getElem?_eq_some_iff.mp ht
    have hin : i = n := by
      have := h.length
      simp only [List.length_singleton] at hlt
      omega
    subst hin
    simpa using hr

/-- One round: the entry fails a check and the list is dropped, or its record is appended. -/
theorem listSymtabFrom_builds (hin : sym + symtabSize ≤ m.size) (hi : i < nsyms m sym)
    (h : listSymtabFrom sym ptr (ptr + stroff m sym) false x (fuel + 1) i list m ≠ .fault) :
    (EntryChecked m x ptr sym i ∧ ∃ r, BuiltFrom m x ptr sym i r ∧
      listSymtabFrom sym ptr (ptr + stroff m sym) false x (fuel + 1) i list m =
        listSymtabFrom sym ptr (ptr + stroff m sym) false x fuel (i + 1) (list ++ [r]) m) ∨
    (¬ EntryChecked m x ptr sym i ∧
      listSymtabFrom sym ptr (ptr + stroff m sym) false x (fuel + 1) i list m = .ok ([], m)) := by
  by_cases hst : isSafe m (ptr + stroff m sym : Nat)
  · by_cases he : isSafe m (nlistAt m x ptr sym i : Nat)
    · rcases keep_cases (getSymbolLetter_keep m ptr (nlistAt m x ptr sym i) x) with hl | ⟨letter, hl⟩
      · exact absurd (listSymtabFrom_fault hin hi hst he rfl rfl hl) h
      · have hent := getSymbolLetter_inside hl
        have hround : listSymtabFrom sym ptr (ptr + stroff m sym) false x (fuel + 1) i list m =
            if isSafe m (nameRef m x ptr sym i) then
              listSymtabFrom sym ptr (ptr + stroff m sym) false x fuel (i + 1)
                (list ++ [⟨x, letter, nlistAt m x ptr sym i + 8,
                  (nameRef m x ptr sym i).toNat⟩]) m
            else .ok ([], m) := by
          rw [listSymtabFrom_round hin hi rfl rfl hl rfl (by omega), if_pos hst, if_pos he]
          rfl
        by_cases hn : isSafe m (nameRef m x ptr sym i)
        · refine .inl ⟨⟨hst, he, hn⟩, _, ?_, hround.trans (if_pos hn)⟩
          refine ⟨rfl, hl, rfl, ?_⟩
          simp only
          exact Int.toNat_of_nonneg hn.1
        · exact .inr ⟨fun hc => hn hc.2.2, hround.trans (if_neg hn)⟩
    · exact .inr ⟨fun hc => he hc.2.1, listSymtabFrom_stop hin hi fun hc => he hc.2⟩
  · exact .inr ⟨fun hc => hst hc.1, listSymtabFrom_stop hin hi fun hc => hst hc.1⟩

/-- The loop, with the records of the entries before `i` in hand. -/
theorem listSymtabFrom_atomic (hin : sym + symtabSize ≤ m.size) :
    ∀ fuel i list, i ≤ nsyms m sym → BuiltUpTo m x ptr sym i list →
      (∀ j, j < i → EntryChecked m x ptr sym j) →
      listSymtabFrom sym ptr (ptr + stroff m sym) false x fuel i list m ≠ .fault →
      ∃ out, listSymtabFrom sym ptr (ptr + stroff m sym) false x fuel i list m = .ok (out, m) ∧
        if ∀ j, j < nsyms m sym → EntryChecked m x ptr sym j then Complete m x ptr sym out
        else out = [] := by
  intro fuel
  induction fuel with
  | zero => intro i list _ _ _ h; exact absurd rfl h
  | succ fuel ih =>
    intro i list hi hbuilt hbefore h
    rcases Nat.lt_or_eq_of_le hi with hlt | rfl
    · rcases listSymtabFrom_builds hin hlt h with ⟨hc, r, hr, hnext⟩ | ⟨hc, hnext⟩
      · rw [hnext] at h ⊢
        refine ih (i + 1) _ hlt (hbuilt.append hr) (fun j hj => ?_) h
        rcases Nat.lt_or_eq_of_le (Nat.lt_succ_iff.mp hj) with hj | rfl
        · exact hbefore j hj
        · exact hc
      · exact ⟨[], hnext, by rw [if_neg fun hall => hc (hall i hlt)]⟩
    · refine ⟨list, listSymtabFrom_end hin (Nat.lt_irrefl _), ?_⟩
      rw [if_pos hbefore]
      exact hbuilt

theorem listSymtab_atomic (h24 : sym + symtabSize ≤ mapSize m)
    (h : listSymtab sym ptr false x m ≠ .fault) :
    ∃ out, listSymtab sym ptr false x m = .ok (out, m) ∧
      if ∀ j, j < nsyms m sym → EntryChecked m x ptr sym j then Complete m x ptr sym out
      else out = [] := by
  have heq : listSymtab sym ptr false x m =
      listSymtabFrom sym ptr (ptr + stroff m sym) false x (2 ^ 32) 0 [] m := listSymtab_eq h24
  rw [heq] at h ⊢
  exact listSymtabFrom_atomic (h24.trans (mapSize_le m)) _ 0 [] (Nat.zero_le _) .nil
    (fun j hj => absurd hj (Nat.not_lt_zero _)) h

/-! ## The walk -/

theorem getNmListFrom_next (h : lc + 8 ≤ mapSize m) :
    getNmListFrom ptr false x (n + 1) lc m =
      if cmd m lc = LC_SYMTAB then listSymtab lc ptr false x m
      else getNmListFrom ptr false x n (lc + cmdsize m lc) m :=
  getNmListFrom_succ h

/-- The walk reaches the first LC_SYMTAB command when `g_map_size` reaches behind it: the commands
before it lie below it. -/
theorem getNmListFrom_reaches
    (hsym : (commandsFrom m n lc).find? (fun c => cmd m c == LC_SYMTAB) = some sym)
    (h24 : sym + symtabSize ≤ mapSize m) :
    getNmListFrom ptr false x n lc m = listSymtab sym ptr false x m := by
  induction n generalizing lc with
  | zero => simp [commandsFrom] at hsym
  | succ n ih =>
    have hle : lc ≤ sym := commandsFrom_ge (List.mem_of_find?_eq_some hsym)
    rw [commandsFrom, List.find?_cons] at hsym
    rw [getNmListFrom_next (by unfold symtabSize at h24; omega)]
    by_cases hc : cmd m lc = LC_SYMTAB
    · have heq : lc = sym := by simpa [hc] using hsym
      rw [if_pos hc, heq]
    · rw [beq_false_of_ne hc] at hsym
      rw [if_neg hc]
      exact ih hsym

theorem getNmListFrom_misses
    (hno : ∀ sym, (commandsFrom m n lc).find? (fun c => cmd m c == LC_SYMTAB) = some sym →
      ¬ sym + symtabSize ≤ mapSize m) :
    getNmListFrom ptr false x n lc m = .ok ([], m) := by
  induction n generalizing lc with
  | zero => rfl
  | succ n ih =>
    by_cases h8 : lc + 8 ≤ mapSize m
    · rw [getNmListFrom_next h8]
      simp only [commandsFrom, List.find?_cons] at hno
      by_cases hc : cmd m lc = LC_SYMTAB
      · have h24 : ¬ lc + symtabSize ≤ mapSize m := hno lc (by rw [hc]; rfl)
        rw [if_pos hc, listSymtab, if_neg fun h => h24 ((isSafe_natCast m _).mp h)]
        rfl
      · rw [if_neg hc]
        refine ih fun sym hsym => hno sym ?_
        rw [beq_false_of_ne hc]
        exact hsym
    · rw [getNmListFrom, if_neg fun h => h8 ((isSafe_natCast m _).mp h)]
      rfl

/-! ## The whole run -/

/-- Every check of the run succeeds: of the header, of the first LC_SYMTAB command, which stands
among the `ncmds` commands at `sym`, and of all its entries. -/
structure AllChecked (m : Buffer) (x : Bool) (ptr sym : Nat) : Prop where
  header : isSafe m ptr ∧ isLcSafe m ptr x
  symtab : symtabCommand m x ptr = some sym
  listed : Listed m x ptr sym

/-- Without a fault the run returns all records or none, and all exactly when every check
succeeds. -/
theorem handleNotFat_complete (h : handleNotFat m x false ptr ≠ .fault) :
    ∃ list, handleNotFat m x false ptr = .ok (list, m) ∧
      ((∃ sym, AllChecked m x ptr sym ∧ Complete m x ptr sym list) ∨
        (¬ ∃ sym, AllChecked m x ptr sym) ∧ list = []) := by
  by_cases hhead : isSafe m ptr ∧ isLcSafe m ptr x
  · have heq : handleNotFat m x false ptr =
        getNmListFrom ptr false x (ncmds m ptr) (ptr + headerSize x) m :=
      handleNotFat_eq hhead.1 hhead.2
    rw [heq] at h ⊢
    by_cases hsym : ∃ sym, symtabCommand m x ptr = some sym ∧ sym + symtabSize ≤ mapSize m
    · obtain ⟨sym, hsym, h24⟩ := hsym
      rw [getNmListFrom_reaches hsym h24] at h ⊢
      obtain ⟨list, hl, hout⟩ := listSymtab_atomic h24 h
      refine ⟨list, hl, ?_⟩
      by_cases hall : ∀ j, j < nsyms m sym → EntryChecked m x ptr sym j
      · rw [if_pos hall] at hout
        exact .inl ⟨sym, ⟨hhead, hsym, h24, hall⟩, hout⟩
      · rw [if_neg hall] at hout
        refine .inr ⟨fun ⟨sym', hc⟩ => hall ?_, hout⟩
        obtain rfl : sym' = sym := Option.some.inj (hc.symtab.symm.trans hsym)
        exact hc.listed.2
    · refine ⟨[], getNmListFrom_misses fun sym h1 h2 => hsym ⟨sym, h1, h2⟩, .inr ⟨?_, rfl⟩⟩
      rintro ⟨sym, hc⟩
      exact hsym ⟨sym, hc.symtab, hc.listed.1⟩
  · refine ⟨[], ?_, .inr ⟨fun ⟨sym, hc⟩ => hhead hc.header, rfl⟩⟩
    unfold handleNotFat
    by_cases hs : isSafe m ptr
    · rw [if_pos hs, getLc_none fun hlc => hhead ⟨hs, hlc⟩]
      rfl
    · rw [if_neg hs]
      rfl

/-- `nm` writes the heading and the lines only when it returns 0. -/
theorem nm_silent {name flags : List UInt8} {num : TNu} {o : Outcome}
    (h : nm m name num flags = .ok o) (hret : o.ret = -1) : o.out = [] ∨ o.out = ascii "\n" := by
  unfold nm at h
  split at h
  · obtain ⟨magic, -, h⟩ := bind_eq_ok.mp h
    split at h
    · cases h
      exact .inl rfl
    · obtain ⟨⟨list, m₁⟩, -, h⟩ := bind_eq_ok.mp h
      obtain ⟨sorted, -, h⟩ := bind_eq_ok.mp h
      obtain ⟨res, hres, h⟩ := bind_eq_ok.mp h
      cases h
      have hnone : res.out = [] := by
        unfold printNmList at hres
        split at hres
        · cases hres
          rfl
        · obtain ⟨lines, -, hres⟩ := bind_eq_ok.mp hres
          cases hres
          exact absurd hret (by simp)
      simp only [hnone, List.append_nil, printNewLine]
      split
      · exact .inr rfl
      · exact .inl rfl
  · cases h
    exact .inl rfl

/-- No partial symbol list. On a host-order image on which the run stays in the map, the list is
empty, or it has exactly one record for each of the `nsyms` entries of the first LC_SYMTAB command,
in their order. It is not empty if and only if every check succeeds and there is an entry. And
whenever `nm` returns -1 on a file, it prints no symbol: nothing, or the line between two files. -/
theorem handleNotFat_noPartialList (h : handleNotFat m x false ptr ≠ .fault) :
    (∃ list, handleNotFat m x false ptr = .ok (list, m) ∧
      (list = [] ∨ ∃ sym, symtabCommand m x ptr = some sym ∧ list.length = nsyms m sym ∧
        ∀ i r, list[i]? = some r → BuiltFrom m x ptr sym i r) ∧
      (list ≠ [] ↔ isSafe m ptr ∧ isLcSafe m ptr x ∧ ∃ sym, symtabCommand m x ptr = some sym ∧
        sym + symtabSize ≤ mapSize m ∧ 0 < nsyms m sym ∧
        ∀ i < nsyms m sym, EntryChecked m x ptr sym i)) ∧
    (∀ name num flags o, nm m name num flags = .ok o → o.ret = -1 →
      o.out = [] ∨ o.out = ascii "\n") := by
  refine ⟨?_, fun name num flags o => nm_silent⟩
  obtain ⟨list, hl, ⟨sym, hc, hall⟩ | ⟨hno, rfl⟩⟩ := handleNotFat_complete h
  · refine ⟨list, hl, .inr ⟨sym, hc.symtab, hall.length, hall.entry⟩, ?_⟩
    rw [← List.length_pos_iff, hall.length]
    constructor
    · intro hn
      exact ⟨hc.header.1, hc.header.2, sym, hc.symtab, hc.listed.1, hn, hc.listed.2⟩
    · rintro ⟨-, -, sym', hsym', -, hn, -⟩
      obtain rfl : sym' = sym := Option.some.inj (hsym'.symm.trans hc.symtab)
      exact hn
  · refine ⟨[], hl, .inl rfl, iff_of_false (fun hne => hne rfl) ?_⟩
    rintro ⟨h1, h2, sym, hsym, h24, -, hent⟩
    exact hno ⟨sym, ⟨h1, h2⟩, hsym, h24, hent⟩

theorem handleNotFat_noPartialList_smallFile :
    ∃ list, handleNotFat ((smallFile true).image .little true) true false 0 =
        .ok (list, (smallFile true).image .little true) ∧ list.length = 2 := by
  have hrun : handleNotFat ((smallFile true).image .little true) true false 0 ≠ .fault := by
    rw [handleNotFat_host ((smallFile_wf true).wellFormed (smallFile_encodes .little true))]
    simp
  obtain ⟨list, hl, hnil | ⟨sym, hsym, hlen, -⟩, hne⟩ := (handleNotFat_noPartialList hrun).1
  · exact absurd hnil (hne.mpr (by decide +kernel))
  · refine ⟨list, hl, hlen.trans ?_⟩
    have h2 : (symtabCommand ((smallFile true).image .little true) true 0).map
        (nsyms ((smallFile true).image .little true)) = some 2 := by decide +kernel
    rw [hsym] at h2
    exact Option.some.inj h2

end NmOtool.Nm
