import NmOtool.Nm.Requires
import NmOtool.Nm.Listing

/-!
# ft_nm: thin files stay inside the map

`NmFits` collects what a run of `nm` on a thin file requires of it, in either byte order. The
sort adds that any two names differ or end in the map, and the printing that the names of the
records it may show end there (`NamesFit`); the rest is `ThinFits`.
-/

namespace NmOtool.Nm

open MachO Checked

variable {m : Buffer} {s x : Bool} {ptr lc sym st i n fuel : Nat}

/-! ## The values of the records -/

/-- A record of a file of `size` bytes whose value lies in it. -/
def Valued (size : Nat) (x : Bool) (r : TNm) : Prop := r.is64 = x ∧ r.add + wordSize x ≤ size

theorem getSymbolLetter_inside {e : Nat} {r : UInt8 × Buffer}
    (h : getSymbolLetter m ptr e s x = .ok r) : e + 8 + wordSize x ≤ m.size :=
  (getSymbolLetter_returns (K := fun _ => True).mp ⟨r, h, trivial⟩).1

theorem listSymtabFrom_valued {list : List TNm} {r : List TNm × Buffer}
    (h : listSymtabFrom sym ptr st s x fuel i list m = .ok r)
    (hl : ∀ t ∈ list, Valued m.size x t) : ∀ t ∈ r.1, Valued r.2.size x t := by
  induction fuel generalizing i list m with
  | zero => cases h
  | succ fuel ih =>
    rcases listSymtabFrom_cases h with ⟨-, rfl⟩ | ⟨-, hnil, -⟩ | ⟨-, letter, m₂, hletter, -, hnext⟩
    · exact hl
    · simp [hnil]
    · apply ih hnext
      intro t ht
      have hsize := (getSymbolLetter_size hletter).trans size_entryImage
      have hin := getSymbolLetter_inside hletter
      rw [List.mem_append, List.mem_singleton] at ht
      rcases ht with ht | rfl
      · exact hsize ▸ hl t ht
      · exact ⟨rfl, by rw [hsize, ← size_entryImage]; exact hin⟩

theorem handleNotFat_valued {r : List TNm × Buffer} (h : handleNotFat m x s ptr = .ok r) :
    ∀ t ∈ r.1, Valued r.2.size x t := by
  by_cases hne : r.1 = []
  · simp [hne]
  · obtain ⟨m₁, sym, -, -, hl⟩ := handleNotFat_listed h hne
    exact listSymtabFrom_valued hl (by simp)

/-! ## The run of `nm` on a thin file -/

/-- The file begins with one of the four magic numbers of a thin file. -/
def IsThin (m : Buffer) : Prop := m.le 4 0 ∈ [MH_MAGIC, MH_CIGAM, MH_MAGIC_64, MH_CIGAM_64]

instance (m : Buffer) : Decidable (IsThin m) := inferInstanceAs (Decidable (_ ∈ _))

/-- The image has the 64-bit layouts. -/
def isWide (m : Buffer) : Bool := is64File (m.le 4 0)

/-- The image is in the other byte order. -/
def isSwapped (m : Buffer) : Bool := shouldSwapFile (m.le 4 0)

theorem IsThin.dispatch (h : IsThin m) :
    notValidFile (m.le 4 0) = false ∧ isFatFile (m.le 4 0) = false := by
  unfold IsThin at h
  generalize m.le 4 0 = magic at h ⊢
  simp only [List.mem_cons, List.not_mem_nil, or_false] at h
  rcases h with rfl | rfl | rfl | rfl <;> decide

/-- What `nm` makes of the list of a thin file. -/
def report (name : List UInt8) (num : TNu) (flags : List UInt8) (r : List TNm × Buffer) :
    Checked Outcome := do
  let list ← sortNmList r.2 r.1 flags
  let res ← printNmList r.2 list name num.multi flags
  pure { res with out := printNewLine num.multi num.first ++ res.out }

theorem nm_thin {name : List UInt8} {num : TNu} {flags : List UInt8} (hthin : IsThin m)
    (h32 : 32 ≤ mapSize m) :
    nm m name num flags =
      (handleNotFat m (isWide m) (isSwapped m) 0 >>= report name num flags) := by
  obtain ⟨h1, h2⟩ := hthin.dispatch
  have hle := mapSize_le m
  rw [nm, if_pos ((isSafe_natCast m 32).mpr h32), Buffer.field_ok (by omega), ok_bind,
    if_neg (by rw [h1]; decide)]
  simp only [h2]
  rw [handleNm, if_neg Bool.false_ne_true]
  rfl

theorem nm_short {name : List UInt8} {num : TNu} {flags : List UInt8} (h32 : ¬ 32 ≤ mapSize m) :
    nm m name num flags = .ok (putErrorWithReturn name ": is not an object file.\n") := by
  rw [nm, if_neg fun h => h32 ((isSafe_natCast m 32).mp h)]
  rfl

/-! ## The names -/

/-- No two of the names run out of the map when they are compared, and those of the records that
are not hidden end in it. -/
def NamesFit (names : List (Nat × Bool)) (m : Buffer) : Prop :=
  (names.Pairwise fun p q => ¬ RunsOut m p.1 q.1) ∧ ∀ p ∈ names, p.2 = false → m.Terminated p.1

theorem namesApart_map {list : List TNm} :
    (list.map TNm.use).Pairwise (fun p q => ¬ RunsOut m p.1 q.1) ↔ NamesApart m list :=
  List.pairwise_map

/-- With no flags every record is shown that is not hidden; with flags, only such. -/
theorem canShowList_hidden {t : UInt8} {flags : List UInt8} (h : canShowList t flags = true) :
    t ≠ '-'.toUInt8 := by
  rintro rfl
  cases h

theorem canShowList_nil {t : UInt8} (h : t ≠ '-'.toUInt8) : canShowList t [] = true := by
  unfold canShowList
  simp only
  rw [if_neg (by simpa using h)]
  rfl

section
variable {list : List TNm} (hv : ∀ t ∈ list, Valued m.size x t)
include hv

theorem sortNmList_apart (flags : List UInt8) (h : NamesApart m list) :
    ∃ out, sortNmList m list flags = .ok out ∧ out.Perm list := by
  have hadd : ∀ a ∈ list, ∀ b ∈ list, AddressesRead m a b := by
    intro a ha b hb _
    obtain ⟨h64, hin⟩ := hv a ha
    rw [h64]
    exact ⟨hin, (hv b hb).2⟩
  unfold sortNmList
  split
  · exact ⟨list, rfl, .refl _⟩
  · split
    · exact ⟨_, sortListByName_apart h hadd, exchangeSortBy_perm list⟩
    · exact ⟨list, rfl, .refl _⟩

/-- No report of the list leaves the map, whatever the flags, exactly if its names fit. -/
theorem reports_iff :
    (∀ name num flags, report name num flags (list, m) ≠ .fault) ↔
      NamesFit (list.map TNm.use) m := by
  constructor
  · intro hsafe
    obtain ⟨o, ho, -⟩ := returns_true.mpr (hsafe [] ⟨false, true⟩ [])
    obtain ⟨out, hsort, ho⟩ := bind_eq_ok.mp ho
    have hapart : NamesApart m list := by
      by_cases hnil : list = []
      · rw [hnil]
        exact .nil
      · change (if list ≠ [] then sortListByName m list [] else pure list) = _ at hsort
        rw [if_pos hnil] at hsort
        exact namesApart_of_sort hsort
    obtain ⟨out', hsort', hperm⟩ := sortNmList_apart hv [] hapart
    obtain rfl := Checked.ok.inj (hsort.symm.trans hsort')
    refine ⟨namesApart_map.mpr hapart, fun p hp hshown => ?_⟩
    obtain ⟨t, ht, rfl⟩ := List.mem_map.mp hp
    obtain ⟨res, hres, -⟩ := bind_eq_ok.mp ho
    rw [printNmList, if_neg fun hnil => by simp [hnil] at hperm; simp [hperm] at ht] at hres
    obtain ⟨lines, hlines, -⟩ := bind_eq_ok.mp hres
    exact terminated_of_printRecords hlines t (hperm.symm.subset ht)
      (canShowList_nil (of_decide_eq_false hshown))
  · rintro ⟨hpair, hend⟩ name num flags
    obtain ⟨out, hsort, hperm⟩ := sortNmList_apart hv flags (namesApart_map.mp hpair)
    have hread : ∀ t ∈ out, canShowList t.type flags = true → Readable m x t := by
      intro t ht hshow
      have hmem := hperm.subset ht
      obtain ⟨h64, hvalue⟩ := hv t hmem
      exact ⟨h64, hend _ (List.mem_map_of_mem hmem) (decide_eq_false (canShowList_hidden hshow)),
        hvalue⟩
    rw [report, hsort, ok_bind, printNmList]
    split
    · simp
    · rw [printRecords_ok hread]
      simp

end

/-- What the run of `nm` requires of a thin file for its names to satisfy `K`. -/
def NmFits (m : Buffer) (K : List (Nat × Bool) → Buffer → Prop) : Prop :=
  32 ≤ mapSize m → ThinFits m (isSwapped m) (isWide m) 0 K

/-- No run on a thin file leaves the map, whatever the flags, exactly if all its accesses fit. -/
theorem nm_inBounds (hthin : IsThin m) :
    (∀ name num flags, nm m name num flags ≠ .fault) ↔ NmFits m NamesFit := by
  by_cases h32 : 32 ≤ mapSize m
  · have hrun : (∀ name num flags, nm m name num flags ≠ .fault) ↔
        (handleNotFat m (isWide m) (isSwapped m) 0).Returns fun r =>
          ∀ name num flags, report name num flags r ≠ .fault := by
      simp only [nm_thin hthin h32]
      constructor
      · intro hsafe
        obtain ⟨r, hr, -⟩ : (handleNotFat m (isWide m) (isSwapped m) 0).Returns fun _ => True := by
          refine returns_true.mpr fun hf => hsafe [] ⟨false, true⟩ [] ?_
          rw [hf]
          rfl
        rw [hr] at hsafe ⊢
        exact ⟨r, rfl, hsafe⟩
      · rintro ⟨r, hr, hsafe⟩ name num flags
        rw [hr]
        exact hsafe name num flags
    rw [hrun, NmFits, forall_prop_of_true h32, ← handleNotFat_returns]
    exact returns_congr fun r hr => reports_iff (handleNotFat_valued hr)
  · refine iff_of_true (fun name num flags => ?_) fun h => absurd h h32
    rw [nm_short h32]
    simp

theorem nm_inBounds_smallFile :
    nm ((smallFile true).image .little true) (ascii "a.o") ⟨false, true⟩ [] ≠ .fault := by
  have hwf := (smallFile_wf true).wellFormed (smallFile_encodes .little true)
  have hl := listed_of_lt hwf (by decide +kernel)
  have hs : isSwapped ((smallFile true).image .little true) = false := by decide +kernel
  have hx : isWide ((smallFile true).image .little true) = true := by decide +kernel
  refine (nm_inBounds (by decide +kernel)).mpr (fun _ => handleNotFat_returns.mp ?_) _ _ _
  rw [hs, hx, handleNotFat_host hwf, if_pos hl]
  have hread := records_readable hwf hl
  refine ⟨_, rfl, namesApart_map.mpr ?_, fun p hp _ => ?_⟩
  · exact List.pairwise_of_forall_mem_list fun a ha b hb =>
      not_runsOut (hread a ha).name (hread b hb).name
  · obtain ⟨r, hr, rfl⟩ := List.mem_map.mp hp
    exact (hread r hr).name

/-- A 32-bit file whose symbol table begins where the file ends. -/
def tableAtEnd : Buffer := .ofBytes 52 <|
  [0xce, 0xfa, 0xed, 0xfe, 7, 0, 0, 0, 3, 0, 0, 0, 2, 0, 0, 0, 1, 0, 0, 0, 24, 0, 0, 0, 0, 0, 0, 0] ++
  [2, 0, 0, 0, 24, 0, 0, 0, 52, 0, 0, 0, 1, 0, 0, 0, 52, 0, 0, 0, 0, 0, 0, 0]

/-- `is_safe` lets the end of the file pass, and the entry there is read. -/
theorem tableAtEnd_overrun :
    ¬ ∀ m, IsThin m → 32 ≤ m.size → ∀ name num flags, nm m name num flags ≠ .fault := by
  intro h
  exact h tableAtEnd (by decide +kernel) (by decide +kernel) [] ⟨false, true⟩ [] (by decide +kernel)

end NmOtool.Nm
