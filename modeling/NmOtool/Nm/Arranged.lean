import NmOtool.Base.Arrange
import NmOtool.Nm.Filter
import NmOtool.Nm.Widths

/-!
# ft_nm: the arrangement of the symbol table

The listing of a well-formed file is a function of its picture. If the sort settles the symbols
then it is one of the symbols alone: no arrangement of the table makes a difference, and the
listing under -r is the default one backwards. Symbols of different names are always settled; those
of one name by their addresses, as far as `compare_add` tells them apart (`Apart`).
-/

namespace NmOtool.Nm

open MachO Checked

variable {m : Buffer} {x : Bool} {sym : Nat} {flags : List UInt8} {list : List TNm}
  {d d' : Picture} {l : List Shown} {a b : Shown}

/-! ## What the sort settles -/

/-- Every arrangement of a list is sorted to the same listing exactly if that listing is settled. -/
theorem sortNmList_arrangements (h : ∀ r ∈ list, Readable m x r)
    (hp : ftStrchr flags 'p'.toUInt8 = false) :
    (∀ list', list'.Perm list → ∃ out, sortNmList m list' flags = .ok out ∧
      out.map (shown m) = sortShown flags (list.map (shown m))) ↔
    Settled (wrongOrder (ftStrchr flags 'r'.toUInt8)) (sortShown flags (list.map (shown m))) := by
  have hsort : ∀ l, sortShown flags l =
      exchangeSortBy (wrongOrder (ftStrchr flags 'r'.toUInt8)) l := fun l => by
    rw [sortShown, hp, if_neg Bool.false_ne_true]
  have hrun : ∀ list', list'.Perm list → sortNmList m list' flags = .ok (sorted m flags list') :=
    fun list' hl => sortNmList_ok fun r hr => h r (hl.subset hr)
  rw [hsort, ← exchangeSortBy_arrangements]
  constructor
  · intro hall l hl
    obtain ⟨list', hl', rfl⟩ := exists_perm_map hl
    obtain ⟨out, hout, hshown⟩ := hall list' hl'
    rw [hrun list' hl'] at hout
    cases hout
    rw [sorted_shown, hsort] at hshown
    exact hshown
  · intro hall list' hl'
    refine ⟨_, hrun list' hl', ?_⟩
    rw [sorted_shown, hsort]
    exact hall _ (hl'.map _)

theorem sortNmList_arrangements_smallFile :
    let m := (smallFile true).image .little true
    ∀ list', list'.Perm (records m true 0 184) → ∃ out, sortNmList m list' [] = .ok out ∧
      out.map (shown m) = sortShown [] ((records m true 0 184).map (shown m)) := by
  have hwf := (smallFile_wf true).wellFormed (smallFile_encodes .little true)
  have hread := records_readable hwf (listed_of_lt hwf (by decide +kernel))
  exact (sortNmList_arrangements hread rfl).mpr (by decide +kernel)

theorem int32_neg_of_pos {u v : Nat} (h : 0 < int32 ((v : Int) - u)) :
    int32 ((u : Int) - v) < 0 := by
  unfold int32 at h ⊢
  rw [Int.bmod_def] at h ⊢
  split at h <;> split <;> omega

/-- What the default order settles, the reverse order settles the other way round. -/
theorem precedes_reverse (h : Precedes (wrongOrder false) a b) :
    Precedes (wrongOrder true) b a := by
  rcases h with rfl | ⟨h, -⟩
  · exact .inl rfl
  · right
    unfold wrongOrder at h ⊢
    simp only [Bool.false_eq_true, if_false, decide_eq_true_eq] at h
    simp only [if_true, decide_eq_true_eq, decide_eq_false_iff_not]
    have hswap := strcmp_swap b.name a.name
    rcases h with h | ⟨h0, hd⟩
    · exact ⟨.inl (by omega), by omega⟩
    · exact ⟨.inr ⟨by omega, int32_neg_of_pos hd⟩, by omega⟩

/-! ## A list is settled -/

/-- Two symbols of one name are one, or their addresses are told apart. -/
def Apart (l : List Shown) : Prop :=
  ∀ a ∈ l, ∀ b ∈ l, a.name = b.name →
    (a.value = b.value → a = b) ∧ (a.value < b.value →
      0 < (b.value - a.value) % 2 ^ 32 ∧ (b.value - a.value) % 2 ^ 32 < 2 ^ 31)

instance : Decidable (Apart l) := by unfold Apart; infer_instance

def shownKey (s : Shown) : List Nat ×ₗ Nat := toLex (unsignedBytes s.name, s.value)

theorem judges_shown (hnul : ∀ s ∈ l, ∀ c ∈ s.name, c ≠ 0) (h : Apart l) :
    Judges (wrongOrder false) shownKey l := by
  intro a ha b hb hlt
  have hab : strcmp b.name a.name = -strcmp a.name b.name := strcmp_swap _ _
  unfold wrongOrder
  simp only [Bool.false_eq_true, if_false, decide_eq_true_eq, decide_eq_false_iff_not]
  rw [shownKey, shownKey, Prod.Lex.toLex_lt_toLex] at hlt
  rcases hlt with hname | ⟨hname, hvalue⟩
  · have hneg := (strcmp_neg (hnul a ha) (hnul b hb)).mpr hname
    exact ⟨.inl (by omega), by omega⟩
  · simp only at hvalue
    have heq : a.name = b.name := unsignedBytes_inj.mp hname
    have hzero : strcmp a.name b.name = 0 := by rw [heq]; exact strcmp_self _
    obtain ⟨hnot, hpos⟩ := (int32_sub_pos hvalue).mpr ((h a ha b hb heq).2 hvalue)
    exact ⟨.inr ⟨by omega, hpos⟩, by omega⟩

theorem settled_of_apart (hnul : ∀ s ∈ l, ∀ c ∈ s.name, c ≠ 0) (h : Apart l) :
    Settled (wrongOrder false) (exchangeSortBy (wrongOrder false) l) := by
  refine settled_of_judges (judges_shown hnul h) fun a ha b hb hkey => ?_
  obtain ⟨hname, hvalue⟩ : unsignedBytes a.name = unsignedBytes b.name ∧ a.value = b.value := by
    simpa [shownKey] using hkey
  exact (h a ha b hb (unsignedBytes_inj.mp hname)).1 hvalue

/-! ## The run on a picture -/

/-- What the run on an image of the picture returns and writes. -/
def Picture.outcome (d : Picture) (x : Bool) (name : List UInt8) (num : TNu) (flags : List UInt8) :
    Outcome :=
  let line := printNewLine num.multi num.first
  if d.symbols = [] then ⟨-1, line, name ++ ascii ": Is malformed file.\n"⟩
  else ⟨0, line ++ ((if num.multi then ftPrintfS name ++ ascii ":\n" else []) ++
    (d.list flags).flatMap (lineOf x flags)), []⟩

theorem shown_records (h : Depicts m x sym d) (hsz : m.size < 2 ^ 31) :
    (records m x 0 sym).map (shown m) = d.symbols.map d.show := by
  rw [← h.picture, records, picture, List.map_map, List.map_map]
  apply List.map_congr_left
  intro i hi
  exact shown_record h.wf (by omega) (strxFits_of_lt h.wf hsz) (List.mem_range.mp hi)

theorem nm_depicts (h : Depicts m x sym d) (hsz : m.size < 2 ^ 31) (name : List UInt8)
    (num : TNu) : nm m name num flags = .ok (d.outcome x name num flags) := by
  have hl : Listed m x 0 sym := listed_of_lt h.wf hsz
  have hlen : d.symbols.length = nsyms m sym := by rw [← h.picture]; simp [picture]
  by_cases hn : 0 < nsyms m sym
  · have hne : ¬ d.symbols = [] := fun e => by rw [e] at hlen; simp at hlen; omega
    rw [nm_listed h.wf hl hn, Picture.outcome, if_neg hne, listing, selected_shown, sorted_shown,
      shown_records h hsz]
    rfl
  · have hnil : d.symbols = [] := List.eq_nil_of_length_eq_zero (by omega)
    have hrec : records m x 0 sym = [] := by
      rw [records, show nsyms m sym = 0 by omega]
      rfl
    obtain ⟨h1, h2, h3, h4, h5⟩ := WellFormed.dispatch h.wf
    have h32 := h.wf.header
    have hmap := mapSize_eq (m := m) (by omega)
    rw [nm, if_pos ((isSafe_natCast m 32).mpr (by omega)), h1, ok_bind,
      if_neg (Bool.eq_false_iff.mp h2)]
    simp only [h3, h4, h5]
    rw [handleNm, if_neg Bool.false_ne_true, handleNotFat_host h.wf, if_pos hl, hrec, ok_bind]
    simp only
    rw [sortNmList_ok (x := x) (by simp), ok_bind, show sorted m flags [] = [] from
      List.Perm.eq_nil sorted_perm, printNmList, if_pos rfl, pure_eq, ok_bind, Picture.outcome,
      if_pos hnil]
    simp only [List.append_nil]
    rfl

/-! ## Settled pictures -/

/-- The default order settles the symbols. -/
def Picture.Settled (d : Picture) : Prop :=
  NmOtool.Settled (wrongOrder false) (exchangeSortBy (wrongOrder false) (d.symbols.map d.show))

theorem Picture.Settled.sort_reverse (h : d.Settled) :
    exchangeSortBy (wrongOrder true) (d.symbols.map d.show) =
      (exchangeSortBy (wrongOrder false) (d.symbols.map d.show)).reverse :=
  exchangeSortBy_reverse h fun _ _ _ _ hab => precedes_reverse hab

theorem Picture.Settled.sort (h : d.Settled) (reverse : Bool) : NmOtool.Settled
    (wrongOrder reverse) (exchangeSortBy (wrongOrder reverse) (d.symbols.map d.show)) := by
  cases reverse with
  | false => exact h
  | true =>
    rw [h.sort_reverse]
    exact NmOtool.Settled.reverse h fun _ _ _ _ hab => precedes_reverse hab

theorem list_perm : (d.list flags).Perm (selectShown flags (d.symbols.map d.show)) := by
  unfold Picture.list sortShown
  split
  · rfl
  · exact (exchangeSortBy_perm _).filter _

theorem Picture.Settled.settled_list (h : d.Settled) (hp : ftStrchr flags 'p'.toUInt8 = false) :
    NmOtool.Settled (wrongOrder (ftStrchr flags 'r'.toUInt8)) (d.list flags) := by
  rw [Picture.list, sortShown, hp, if_neg Bool.false_ne_true]
  exact List.Pairwise.filter _ (h.sort _)

/-- The list of a settled picture is determined by the symbols that the flags select. -/
theorem list_eq_of_perm (h : d.Settled) (h' : d'.Settled) (hp : ftStrchr flags 'p'.toUInt8 = false)
    (hsame : (selectShown flags (d'.symbols.map d'.show)).Perm
      (selectShown flags (d.symbols.map d.show))) : d'.list flags = d.list flags :=
  (h.settled_list hp).eq_of_perm (h'.settled_list hp) ((list_perm.trans hsame).trans list_perm.symm)

theorem smallFile_settled :
    (picture ((smallFile true).image .little true) true 0 184).Settled :=
  settled_of_apart (by decide +kernel) (by decide +kernel)

/-! ## The order of the lines -/

section
variable {o : UInt8}

theorem ftStrchr_other {c : UInt8} (hc : c ≠ 0) (h : c ≠ o) :
    ftStrchr (flags ++ [o]) c = ftStrchr flags c := by
  rw [ftStrchr_append hc, beq_false_of_ne h, Bool.or_false]

/-- The options that say in which order to list say nothing else. -/
theorem ftStrchr_order (ho : o ∈ ascii "pr") {c : UInt8} (hc : c ∈ ascii "guUj") :
    ftStrchr (flags ++ [o]) c = ftStrchr flags c := by
  have hne : ∀ o ∈ ascii "pr", ∀ c ∈ ascii "guUj", c ≠ 0 ∧ c ≠ o := by decide +kernel
  obtain ⟨h0, h⟩ := hne o ho c hc
  exact ftStrchr_other h0 h

theorem selectShown_order (ho : o ∈ ascii "pr") :
    selectShown (flags ++ [o]) l = selectShown flags l := by
  unfold selectShown canShowList
  simp only [ftStrchr_order ho (show 'u'.toUInt8 ∈ ascii "guUj" by decide),
    ftStrchr_order ho (show 'U'.toUInt8 ∈ ascii "guUj" by decide),
    ftStrchr_order ho (show 'g'.toUInt8 ∈ ascii "guUj" by decide)]

theorem lineOf_order (ho : o ∈ ascii "pr") : lineOf x (flags ++ [o]) = lineOf x flags := by
  funext r
  unfold lineOf
  rw [ftStrchr_order ho (show 'u'.toUInt8 ∈ ascii "guUj" by decide),
    ftStrchr_order ho (show 'j'.toUInt8 ∈ ascii "guUj" by decide)]

end

/-- The outcome that lists the symbols in the order of `l`. -/
def listed (x : Bool) (name : List UInt8) (num : TNu) (flags : List UInt8) (l : List Shown) :
    Outcome :=
  ⟨0, printNewLine num.multi num.first ++ ((if num.multi then ftPrintfS name ++ ascii ":\n" else [])
    ++ l.flatMap (lineOf x flags)), []⟩

theorem nm_listed_order {o : UInt8} (ho : o ∈ ascii "pr") (h : Depicts m x sym d)
    (hsz : m.size < 2 ^ 31) (hne : d.symbols ≠ []) (name : List UInt8) (num : TNu) :
    nm m name num (flags ++ [o]) = .ok (listed x name num flags
      (selectShown flags (sortShown (flags ++ [o]) (d.symbols.map d.show)))) := by
  rw [nm_depicts h hsz, Picture.outcome, if_neg hne, Picture.list, selectShown_order ho,
    lineOf_order ho]
  rfl

/-- Where the sort settles the symbols, -r lists them backwards; -p has the same symbols in the
order of the table. -/
theorem nm_orders (h : Depicts m x sym d) (hsz : m.size < 2 ^ 31) (hset : d.Settled)
    (hne : d.symbols ≠ []) (hp : ftStrchr flags 'p'.toUInt8 = false)
    (hr : ftStrchr flags 'r'.toUInt8 = false) (name : List UInt8) (num : TNu) :
    ∃ l, l.Perm (selectShown flags (d.symbols.map d.show)) ∧
      nm m name num flags = .ok (listed x name num flags l) ∧
      nm m name num (flags ++ ascii "r") = .ok (listed x name num flags l.reverse) ∧
      nm m name num (flags ++ ascii "p") =
        .ok (listed x name num flags (selectShown flags (d.symbols.map d.show))) := by
  have hdefault : sortShown flags (d.symbols.map d.show) =
      exchangeSortBy (wrongOrder false) (d.symbols.map d.show) := by
    rw [sortShown, hp, hr, if_neg Bool.false_ne_true]
  refine ⟨d.list flags, list_perm, ?_, ?_, ?_⟩
  · rw [nm_depicts h hsz, Picture.outcome, if_neg hne]
    rfl
  · have hreverse : sortShown (flags ++ ascii "r") (d.symbols.map d.show) =
        (exchangeSortBy (wrongOrder false) (d.symbols.map d.show)).reverse := by
      rw [sortShown, show ascii "r" = ['r'.toUInt8] from rfl, ftStrchr_other (by decide)
        (by decide), hp, if_neg Bool.false_ne_true, ftStrchr_append (by decide), beq_self_eq_true,
        Bool.or_true, hset.sort_reverse]
    rw [show ascii "r" = ['r'.toUInt8] from rfl] at hreverse ⊢
    rw [nm_listed_order (by decide) h hsz hne, hreverse, Picture.list, hdefault, selectShown,
      selectShown, List.filter_reverse]
  · have htable : sortShown (flags ++ ['p'.toUInt8]) (d.symbols.map d.show) =
        d.symbols.map d.show := by
      rw [sortShown, ftStrchr_append (by decide), beq_self_eq_true, Bool.or_true, if_pos rfl]
    rw [show ascii "p" = ['p'.toUInt8] from rfl, nm_listed_order (by decide) h hsz hne, htable]

theorem nm_orders_smallFile : ∃ l : List Shown,
    nm ((smallFile true).image .little true) (ascii "a.o") ⟨false, true⟩ [] =
      .ok (listed true (ascii "a.o") ⟨false, true⟩ [] l) ∧
    nm ((smallFile true).image .little true) (ascii "a.o") ⟨false, true⟩ (ascii "r") =
      .ok (listed true (ascii "a.o") ⟨false, true⟩ [] l.reverse) := by
  obtain ⟨l, -, hdefault, hreverse, -⟩ := nm_orders smallFile_depicts.2 (by decide +kernel)
    smallFile_settled (by decide +kernel) (show ftStrchr [] 'p'.toUInt8 = false from rfl) rfl
    (ascii "a.o") ⟨false, true⟩
  exact ⟨l, hdefault, hreverse⟩

end NmOtool.Nm
