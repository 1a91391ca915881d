import NmOtool.Common.Relocate
import NmOtool.Nm.Atomic
import NmOtool.Nm.OnHeap

/-!
# ft_nm: the record that is lost

`list_symtab` makes the record of an entry before it checks the name, and frees the list when the
check fails, but the record is not in the list yet. On a host-order file a run leaves this one
record on the heap, exactly when the first entry that fails its checks fails at its name.
-/

namespace NmOtool.Nm.OnHeap

open MachO Checked

variable {k : Allocator} {m : Buffer} {h₀ h : Heap TNm} {list : Option Nat} {as loose : List Nat}
  {ptr sym i j lc n : Nat} {x : Bool} {flags name : List UInt8}

/-- Entry `i` is the first that fails its checks, and what fails is the check of its name. -/
structure NameRefused (m : Buffer) (x : Bool) (ptr sym i : Nat) : Prop where
  lt : i < nsyms m sym
  before : ∀ j, j < i → EntryChecked m x ptr sym j
  table : isSafe m (ptr + stroff m sym : Nat)
  entry : isSafe m (nlistAt m x ptr sym i : Nat)
  name : ¬ isSafe m (nameRef m x ptr sym i)

/-- Only the first entry that fails its checks can be the one. -/
theorem NameRefused.eq (h : NameRefused m x ptr sym j)
    (hbefore : ∀ j, j < i → EntryChecked m x ptr sym j) (hi : ¬ EntryChecked m x ptr sym i) :
    j = i := by
  rcases Nat.lt_trichotomy j i with hlt | heq | hgt
  · exact absurd (hbefore j hlt).2.2 h.name
  · exact heq
  · exact absurd (h.before i hgt) hi

/-- The list is freed, and with it all that was made since `h₀` but the loose nodes. -/
theorem freeListReturnNull_ok (ha : h₀.Adds h list as loose) :
    ∃ h', freeListReturnNull h list m = .ok (none, m, h') ∧ h₀.Adds h' none [] loose := by
  obtain ⟨h', hfree, ha'⟩ := ha.freeList
  exact ⟨h', by rw [freeListReturnNull, freeNmList, hfree]; rfl, ha'⟩

/-- The loop, with the list of the entries before `i` in hand: an entry that fails one of its
first two checks ends it before its record is made, one that fails the third after that. -/
theorem listSymtabFrom_lost (hk : k.Answers) (hin : sym + symtabSize ≤ m.size) :
    ∀ fuel i l (h : Heap TNm) list as, h₀.Adds h list as [] → i ≤ nsyms m sym →
      (∀ j, j < i → EntryChecked m x ptr sym j) →
      Nm.listSymtabFrom sym ptr (ptr + stroff m sym) false x fuel i l m ≠ .fault →
      ∃ out as' loose h', listSymtabFrom k sym ptr (ptr + stroff m sym) false x fuel i list m h =
        .ok (out, m, h') ∧ h₀.Adds h' out as' loose ∧
        (loose ≠ [] ↔ ∃ j, NameRefused m x ptr sym j) ∧ loose.length ≤ 1 := by
  intro fuel
  induction fuel with
  | zero => intro i l h list as ha hi hbefore hrun; exact absurd rfl hrun
  | succ fuel ih =>
    intro i l h list as ha hi hbefore hrun
    have hcount : m.field 4 (sym + 12) = .ok (nsyms m sym) := by
      unfold symtabSize at hin
      exact Buffer.field_ok (by omega)
    unfold Nm.listSymtabFrom at hrun
    unfold listSymtabFrom
    rw [hcount, ok_bind] at hrun ⊢
    rcases Nat.lt_or_eq_of_le hi with hlt | rfl
    · rw [if_pos hlt] at hrun ⊢
      by_cases hst : isSafe m (ptr + stroff m sym : Nat)
      · rw [if_pos hst, getNlist_host hin, ok_bind] at hrun ⊢
        by_cases he : isSafe m (nlistAt m x ptr sym i : Nat)
        · rw [if_pos he] at hrun ⊢
          simp only [Bool.false_eq_true, if_false, pure_eq, ok_bind] at hrun ⊢
          rw [getNlist_host hin, ok_bind] at hrun ⊢
          rcases keep_cases (getSymbolLetter_keep m ptr (nlistAt m x ptr sym i) x) with
            hl | ⟨letter, hl⟩
          · rw [Nm.initOneNm, hl] at hrun
            exact absurd rfl hrun
          · have hent := getSymbolLetter_inside hl
            have hname : getSymbolName m (ptr + stroff m sym) (nlistAt m x ptr sym i) =
                .ok (nameRef m x ptr sym i) := getSymbolName_ok (by omega)
            obtain ⟨p, h₁, hinit, ha₁, -, hnext₁, -⟩ := initOneNm_ok hk ha hl
            obtain ⟨h₂, hset, ha₂, -, hnode₂⟩ := ha₁.modify
              (f := fun t => { t with name := (nameRef m x ptr sym i).toNat }) List.mem_cons_self
            rw [Nm.initOneNm, hl] at hrun
            simp only [pure_eq, ok_bind] at hrun
            rw [getNlist_host hin, ok_bind, hname, ok_bind] at hrun
            rw [hinit, ok_bind]
            simp only
            rw [getNlist_host hin, ok_bind, hname, ok_bind, hset, ok_bind]
            by_cases hn : isSafe m (nameRef m x ptr sym i)
            · rw [if_pos hn] at hrun ⊢
              obtain ⟨head, h₃, happend, ha₃, -⟩ := ha₂.append (by rw [hnode₂, hnext₁])
              rw [addList, happend, ok_bind]
              refine ih _ _ _ head _ ha₃ hlt (fun j hj => ?_) hrun
              rcases Nat.lt_or_eq_of_le (Nat.lt_succ_iff.mp hj) with hj | rfl
              · exact hbefore j hj
              · exact ⟨hst, he, hn⟩
            · rw [if_neg hn]
              obtain ⟨h₃, hfree, ha₃⟩ := freeListReturnNull_ok (m := m) ha₂
              exact ⟨none, [], [p], h₃, hfree, ha₃,
                iff_of_true (List.cons_ne_nil p []) ⟨i, hlt, hbefore, hst, he, hn⟩, Nat.le_refl 1⟩
        · rw [if_neg he]
          obtain ⟨h₁, hfree, ha₁⟩ := freeListReturnNull_ok (m := m) ha
          refine ⟨none, [], [], h₁, hfree, ha₁, iff_of_false (fun hne => hne rfl) ?_, Nat.zero_le 1⟩
          rintro ⟨j, hj⟩
          obtain rfl := hj.eq hbefore fun hc => he hc.2.1
          exact he hj.entry
      · rw [if_neg hst]
        obtain ⟨h₁, hfree, ha₁⟩ := freeListReturnNull_ok (m := m) ha
        refine ⟨none, [], [], h₁, hfree, ha₁, iff_of_false (fun hne => hne rfl) ?_, Nat.zero_le 1⟩
        rintro ⟨j, hj⟩
        exact hst hj.table
    · rw [if_neg (Nat.lt_irrefl _)]
      refine ⟨list, as, [], h, rfl, ha, iff_of_false (fun hne => hne rfl) ?_, Nat.zero_le 1⟩
      rintro ⟨j, hj⟩
      exact hj.name (hbefore j hj.lt).2.2

theorem listSymtab_lost (hk : k.Answers) (h24 : sym + symtabSize ≤ mapSize m)
    (hrun : Nm.listSymtab sym ptr false x m ≠ .fault) :
    ∃ list as loose h', listSymtab k sym ptr false x m h = .ok (list, m, h') ∧
      h.Adds h' list as loose ∧ (loose ≠ [] ↔ ∃ j, NameRefused m x ptr sym j) ∧
      loose.length ≤ 1 := by
  have hle := h24.trans (mapSize_le m)
  have hsafe := (isSafe_natCast m _).mpr h24
  have hstroff : m.field 4 (sym + 16) = .ok (stroff m sym) := by
    unfold symtabSize at hle
    exact Buffer.field_ok (by omega)
  unfold Nm.listSymtab at hrun
  unfold listSymtab
  rw [if_pos hsafe] at hrun ⊢
  simp only [Bool.false_eq_true, if_false, pure_eq, ok_bind] at hrun ⊢
  rw [hstroff, ok_bind] at hrun ⊢
  exact listSymtabFrom_lost hk hle _ 0 [] h none [] .refl (Nat.zero_le _)
    (fun j hj => absurd hj (Nat.not_lt_zero j)) hrun

/-! ## The walk to the symbol table -/

theorem getNmListFrom_next (h8 : lc + 8 ≤ mapSize m) :
    getNmListFrom k ptr false x (n + 1) lc m h =
      if cmd m lc = LC_SYMTAB then listSymtab k lc ptr false x m h
      else getNmListFrom k ptr false x n (lc + cmdsize m lc) m h := by
  have hle := h8.trans (mapSize_le m)
  rw [getNmListFrom, if_pos ((isSafe_natCast m _).mpr h8)]
  simp only [Bool.false_eq_true, if_false, pure_eq, ok_bind]
  rw [Buffer.field_ok (by omega), ok_bind, Buffer.field_ok (by omega), ok_bind]
  rfl

theorem getNmListFrom_reaches
    (hsym : (commandsFrom m n lc).find? (fun c => cmd m c == LC_SYMTAB) = some sym)
    (h24 : sym + symtabSize ≤ mapSize m) :
    getNmListFrom k ptr false x n lc m h = listSymtab k sym ptr false x m h := by
  induction n generalizing lc with
  | zero => simp [commandsFrom] at hsym
  | succ n ih =>
    have hle : lc ≤ sym := commandsFrom_ge (List.mem_of_find?_eq_some hsym)
    rw [commandsFrom, List.find?_cons] at hsym
    rw [getNmListFrom_next (by unfold symtabSize at h24; omega)]
    by_cases hc : cmd m lc = LC_SYMTAB
    · have heq : lc = sym := by simpa [hc] using hsym
      rw [if_pos hc, heq]
    · rw [beq_false_of_ne hc] at hsym
      rw [if_neg hc]
      exact ih hsym

theorem getNmListFrom_misses
    (hno : ∀ sym, (commandsFrom m n lc).find? (fun c => cmd m c == LC_SYMTAB) = some sym →
      ¬ sym + symtabSize ≤ mapSize m) :
    getNmListFrom k ptr false x n lc m h = .ok (none, m, h) := by
  induction n generalizing lc with
  | zero => rfl
  | succ n ih =>
    by_cases h8 : lc + 8 ≤ mapSize m
    · rw [getNmListFrom_next h8]
      simp only [commandsFrom, List.find?_cons] at hno
      by_cases hc : cmd m lc = LC_SYMTAB
      · have h24 : ¬ lc + symtabSize ≤ mapSize m := hno lc (by rw [hc]; rfl)
        rw [if_pos hc, listSymtab, if_neg fun h => h24 ((isSafe_natCast m _).mp h)]
        rfl
      · rw [if_neg hc]
        refine ih fun sym hsym => hno sym ?_
        rw [beq_false_of_ne hc]
        exact hsym
    · rw [getNmListFrom, if_neg fun h => h8 ((isSafe_natCast m _).mp h)]
      rfl

/-- The run gets to the symbol table, and refuses a name. -/
def RefusesName (m : Buffer) (x : Bool) (ptr : Nat) : Prop :=
  isSafe m ptr ∧ isLcSafe m ptr x ∧ ∃ sym, symtabCommand m x ptr = some sym ∧
    sym + symtabSize ≤ mapSize m ∧ ∃ i, NameRefused m x ptr sym i

theorem handleNotFat_lost (hk : k.Answers) (hrun : Nm.handleNotFat m x false ptr ≠ .fault) :
    ∃ list as loose h', handleNotFat k m x false ptr h = .ok (list, m, h') ∧
      h.Adds h' list as loose ∧ (loose ≠ [] ↔ RefusesName m x ptr) ∧ loose.length ≤ 1 := by
  unfold handleNotFat
  by_cases hs : isSafe m ptr
  · rw [if_pos hs]
    by_cases hlc : isLcSafe m ptr x
    · have heq : Nm.handleNotFat m x false ptr =
          Nm.getNmListFrom ptr false x (ncmds m ptr) (ptr + headerSize x) m :=
        handleNotFat_eq hs hlc
      rw [heq] at hrun
      rw [getLc_host hlc, ok_bind]
      unfold getNmList
      simp only
      by_cases hsym : ∃ sym, symtabCommand m x ptr = some sym ∧ sym + symtabSize ≤ mapSize m
      · obtain ⟨sym, hsym, h24⟩ := hsym
        rw [Nm.getNmListFrom_reaches hsym h24] at hrun
        rw [show m.le 4 (ptr + 16) = ncmds m ptr from rfl, getNmListFrom_reaches hsym h24]
        obtain ⟨list, as, loose, h', hlist, ha, hlost, hlen⟩ :=
          listSymtab_lost (h := h) hk h24 hrun
        refine ⟨list, as, loose, h', hlist, ha, hlost.trans ?_, hlen⟩
        constructor
        · exact fun hj => ⟨hs, hlc, sym, hsym, h24, hj⟩
        · rintro ⟨-, -, sym', hsym', -, hj⟩
          obtain rfl : sym' = sym := Option.some.inj (hsym'.symm.trans hsym)
          exact hj
      · rw [show m.le 4 (ptr + 16) = ncmds m ptr from rfl,
          getNmListFrom_misses fun sym h1 h2 => hsym ⟨sym, h1, h2⟩]
        refine ⟨none, [], [], h, rfl, .refl, iff_of_false (fun hne => hne rfl) ?_, Nat.zero_le 1⟩
        rintro ⟨-, -, sym, h1, h2, -⟩
        exact hsym ⟨sym, h1, h2⟩
    · rw [getLc_none hlc, ok_bind]
      exact ⟨none, [], [], h, rfl, .refl,
        iff_of_false (fun hne => hne rfl) fun hr => hlc hr.2.1, Nat.zero_le 1⟩
  · rw [if_neg hs]
    exact ⟨none, [], [], h, rfl, .refl, iff_of_false (fun hne => hne rfl) fun hr => hs hr.1,
      Nat.zero_le 1⟩

/-- A run of `nm` on a thin file in the order of the host leaves the heap as it was, but for one
record if the first entry that fails its checks fails at its name. -/
theorem nm_lost (hk : k.Answers) {num : TNu} {o : Outcome} (h : Heap TNm)
    (hthin : notValidHeader (m.le 4 0) = false) (hhost : shouldSwapFile (m.le 4 0) = false)
    (hrun : Nm.nm m name num flags = .ok o) :
    ∃ h' loose, nm k m name num flags h = .ok (o, h') ∧ h.Adds h' none [] loose ∧
      loose.length ≤ 1 ∧
      (loose ≠ [] ↔ 32 ≤ mapSize m ∧ RefusesName m (is64File (m.le 4 0)) 0) := by
  obtain ⟨hvalid, hfat⟩ := thin_magic hthin
  by_cases h32 : isSafe m (32 : Nat)
  · have hsafe := (isSafe_natCast m 32).mp h32
    have hsize := mapSize_le m
    have hrunThin : Nm.handleNm m (isFatFile (m.le 4 0)) (is64File (m.le 4 0))
        (shouldSwapFile (m.le 4 0)) 0 = Nm.handleNotFat m (is64File (m.le 4 0)) false 0 := by
      rw [Nm.handleNm, hfat, hhost]
      rfl
    have hnodesThin : handleNm k m (isFatFile (m.le 4 0)) (is64File (m.le 4 0))
        (shouldSwapFile (m.le 4 0)) 0 h = handleNotFat k m (is64File (m.le 4 0)) false 0 h := by
      rw [handleNm, hfat, hhost]
      rfl
    obtain ⟨⟨l, m₁⟩, hlist⟩ : ∃ r, Nm.handleNotFat m (is64File (m.le 4 0)) false 0 = .ok r := by
      unfold Nm.nm at hrun
      rw [if_pos h32, Buffer.field_ok (by omega), ok_bind, hvalid] at hrun
      obtain ⟨r, hr, -⟩ := bind_eq_ok.mp hrun
      exact ⟨r, hrunThin ▸ hr⟩
    obtain ⟨list, as, loose, h₁, hnodes, ha, rfl, -⟩ :=
      handleNotFat_follows (h := h) hk l m₁ hlist
    obtain ⟨list', as', loose', h₁', hnodes', ha', hlost, hlen⟩ :=
      handleNotFat_lost (h := h) hk (by rw [hlist]; exact fun he => by cases he)
    obtain ⟨rfl, -, rfl⟩ : list = list' ∧ m₁ = m ∧ h₁ = h₁' := by
      simpa using Checked.ok.inj (hnodes.symm.trans hnodes')
    obtain ⟨rfl, -⟩ := ha.unique ha'
    obtain ⟨h', hnm, hadds, -⟩ := nm_of_handleNm h32 hvalid (hnodesThin.trans hnodes) ha'
      (hrunThin.trans hlist) hrun
    exact ⟨h', loose', hnm, hadds, hlen, hlost.trans ⟨fun hr => ⟨hsafe, hr⟩, fun hr => hr.2⟩⟩
  · obtain ⟨hnm, -⟩ := nm_refused (k := k) (h := h) (.inl h32) hrun
    refine ⟨h, [], hnm, .refl, Nat.zero_le 1, iff_of_false (fun hne => hne rfl) ?_⟩
    exact fun hr => h32 ((isSafe_natCast m 32).mpr hr.1)

/-- A 32-bit file with one symbol whose `n_strx`, 16, leads out of the file. -/
def nameOutside : Buffer := .ofBytes 72 <|
  [0xce, 0xfa, 0xed, 0xfe, 7, 0, 0, 0, 3, 0, 0, 0, 2, 0, 0, 0, 1, 0, 0, 0, 24, 0, 0, 0, 0, 0, 0, 0] ++
  [2, 0, 0, 0, 24, 0, 0, 0, 52, 0, 0, 0, 1, 0, 0, 0, 64, 0, 0, 0, 8, 0, 0, 0] ++
  [16, 0, 0, 0, 1, 0, 0, 0, 0, 0, 0, 0] ++ [0, 0x61, 0, 0, 0, 0, 0, 0]

/-- One record is left when this file is refused. -/
theorem nm_lost_nameOutside : ∃ h' p,
    nm .lowest nameOutside (ascii "a") ⟨false, true⟩ [] (.empty ⟨⟨false, 0, 0, 0⟩, none⟩) =
      .ok (⟨-1, [], ascii "a: Is malformed file.\n"⟩, h') ∧ h'.live = {p} := by
  have hrun : Nm.nm nameOutside (ascii "a") ⟨false, true⟩ [] =
      .ok ⟨-1, [], ascii "a: Is malformed file.\n"⟩ := by decide +kernel
  have hrefused : RefusesName nameOutside (is64File (nameOutside.le 4 0)) 0 :=
    ⟨by decide +kernel, by decide +kernel, 28, by decide +kernel, by decide +kernel, 0,
      by decide +kernel, fun j hj => absurd hj (Nat.not_lt_zero j), by decide +kernel,
      by decide +kernel, by decide +kernel⟩
  obtain ⟨h', loose, hnm, hadds, hlen, hlost⟩ :=
    nm_lost Allocator.lowest_answers (.empty ⟨⟨false, 0, 0, 0⟩, none⟩) (by decide +kernel)
      (by decide +kernel) hrun
  have hne := hlost.mpr ⟨by decide +kernel, hrefused⟩
  obtain ⟨p, rfl⟩ : ∃ p, loose = [p] := by
    rw [← List.length_eq_one_iff]
    have := List.length_pos_iff.mpr hne
    omega
  refine ⟨h', p, hnm, ?_⟩
  rw [hadds.live_eq]
  rfl

end NmOtool.Nm.OnHeap
