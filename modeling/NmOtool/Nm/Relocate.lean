import NmOtool.Common.Relocate
import NmOtool.Nm.Listing
import NmOtool.Nm.Requires
import NmOtool.Nm.Select

/-!
# ft_nm: a slice and the file cut out of it

`handle_not_fat` on an image behind any `d` bytes, against the image alone: the records are the
same, `d` bytes further on, and the image is rewritten in the same places. There is one way to see
the bytes in front: `n_strx` goes through an `int`, so a name may lie before the image. In the file
alone such a name fails its check, and there is no list.
-/

namespace NmOtool.Nm

open MachO Checked

variable {m f : Buffer} {d p lc n i st sym count e : Nat} {s x : Bool}

/-! ## The letter of a symbol -/

/-- An address that is found, and the image that is left, behind the first `d` bytes of `m`. -/
def movedAddress (m : Buffer) (d : Nat) (r : Option Nat × Buffer) : Option Nat × Buffer :=
  (r.1.map (d + ·), m.graft d r.2)

theorem getSectionFrom_graft : ∀ n lc count (f : Buffer), d + f.size < 2 ^ 32 →
    getSectionFrom s x i n (d + lc) count (m.graft d f) =
      map (movedAddress m d) (getSectionFrom s x i n lc count f) := by
  intro n
  induction n with
  | zero => intro lc count f _; rfl
  | succ n ih =>
    intro lc count f h
    unfold getSectionFrom getAdd
    simp only [Nat.add_assoc]
    rw [map_ite]
    refine if_congr (isSafe_graft_nat h) ?_ rfl
    rw [Buffer.field_graft, map_then]
    refine then_congr fun cmd _ => ?_
    rw [map_ite]
    refine if_congr Iff.rfl ?_ ?_
    · rw [map_ite]
      refine if_congr (isSegmantSafe_graft h) ?_ rfl
      simp only [ite_bind]
      refine map_step (swapIf_graft swapSegmentCommand_graft) fun f₁ h₁ => ?_
      have hs₁ : d + f₁.size < 2 ^ 32 := by rwa [swapIf_size swapSegmentCommand_size h₁]
      rw [Buffer.field_graft, map_then]
      refine then_congr fun add _ => ?_
      rw [map_ite]
      refine if_congr Iff.rfl rfl ?_
      rw [Buffer.field_graft, map_then]
      exact then_congr fun cmdsize _ => ih (lc + cmdsize) _ f₁ hs₁
    · rw [Buffer.field_graft, map_then]
      exact then_congr fun cmdsize _ => ih (lc + cmdsize) _ f h

theorem getSection_graft (h : d + f.size < 2 ^ 32) :
    getSection (m.graft d f) (d + p) s x i = map (movedAddress m d) (getSection f p s x i) := by
  unfold getSection
  refine map_step (getLc_graft h) fun r hr => ?_
  obtain ⟨lcInfo, f₁⟩ := r
  have hs₁ : d + f₁.size < 2 ^ 32 := by rwa [getLc_size hr]
  cases lcInfo with
  | none => rfl
  | some lcInfo =>
    simp only
    rw [Nat.add_assoc]
    exact getSectionFrom_graft _ _ _ f₁ hs₁

theorem sectionLetter_graft : sectionLetter (m.graft d f) (d + p) = sectionLetter f p := by
  unfold sectionLetter
  rw [isNamed_graft (by decide) (by decide), isNamed_graft (by decide) (by decide),
    isNamed_graft (by decide) (by decide)]

/-- A letter, and the image that is left. -/
def movedLetter (m : Buffer) (d : Nat) (r : UInt8 × Buffer) : UInt8 × Buffer :=
  (r.1, m.graft d r.2)

theorem symbol_graft (h : d + f.size < 2 ^ 32) :
    symbol (m.graft d f) (d + p) (d + e) s x = map (movedLetter m d) (symbol f p e s x) := by
  unfold symbol
  rw [Nat.add_assoc, Buffer.load_graft, map_then]
  refine then_congr fun index _ => ?_
  refine map_step (getSection_graft h) fun r hr => ?_
  obtain ⟨sec, f₁⟩ := r
  cases sec with
  | none => rfl
  | some sec =>
    simp only [movedAddress, Option.map_some, ite_bind]
    refine map_step (swapIf_graft swapSection_graft) fun f₂ _ => ?_
    rw [sectionLetter_graft, map_then]
    rfl

theorem getSymbolLetter_graft (h : d + f.size < 2 ^ 32) :
    getSymbolLetter (m.graft d f) (d + p) (d + e) s x =
      map (movedLetter m d) (getSymbolLetter f p e s x) := by
  unfold getSymbolLetter
  simp only [Nat.add_assoc]
  rw [Buffer.load_graft, map_then]
  refine then_congr fun nType _ => ?_
  rw [Buffer.field_graft, map_then]
  refine then_congr fun nDesc _ => ?_
  rw [Buffer.field_graft, map_then]
  refine then_congr fun nValue _ => ?_
  simp only [ite_bind]
  refine map_step (w := movedLetter m d) ?_ fun r _ => ?_
  · rw [map_ite, symbol_graft h]
    rfl
  · simp only [movedLetter]
    rw [Buffer.load_graft, map_then]
    refine then_congr fun nType _ => ?_
    rw [map_ite]
    rfl

/-! ## The list -/

/-- The record of the same symbol behind `d` bytes. -/
def TNm.behind (d : Nat) (r : TNm) : TNm := { r with add := d + r.add, name := d + r.name }

theorem TNm.behind_injective : Function.Injective (TNm.behind d) := by
  rintro ⟨is64, type, add, name⟩ ⟨is64', type', add', name'⟩ h
  simp only [TNm.behind, TNm.mk.injEq] at h ⊢
  exact ⟨h.1, h.2.1, by omega, by omega⟩

/-- The list that is returned, and the image that is left. -/
def movedList (m : Buffer) (d : Nat) (r : List TNm × Buffer) : List TNm × Buffer :=
  (r.1.map (TNm.behind d), m.graft d r.2)

theorem getNlist_graft : getNlist (m.graft d f) (d + p) i x (d + sym) =
    map (d + ·) (getNlist f p i x sym) := by
  unfold getNlist
  simp only [Nat.add_assoc]
  rw [Buffer.field_graft, map_then]
  rfl

theorem initOneNm_graft (h : d + f.size < 2 ^ 32) :
    initOneNm (m.graft d f) (d + p) (d + e) s x =
      map (fun r => ({ r.1 with add := d + r.1.add }, m.graft d r.2)) (initOneNm f p e s x) := by
  unfold initOneNm
  simp only [Nat.add_assoc]
  exact map_step (getSymbolLetter_graft h) fun r _ => rfl

theorem getSymbolName_graft : getSymbolName (m.graft d f) (d + st) (d + e) =
    map ((d : Int) + ·) (getSymbolName f st e) := by
  unfold getSymbolName
  rw [Buffer.field_graft, map_then]
  refine then_congr fun strx _ => ?_
  rw [Int.natCast_add, Int.add_assoc]
  rfl

/-- A run behind the bytes, `y`, against the run on the file alone, `z`: they do the same, or a
name before the image has ended the second, and is in the list of the first if it has one. -/
def ListedAs (m : Buffer) (d : Nat) (y z : Checked (List TNm × Buffer)) : Prop :=
  y = map (movedList m d) z ∨
    (∃ f', z = .ok ([], f')) ∧ ∀ r, y = .ok r → r.1 ≠ [] → ∃ t ∈ r.1, t.name < d

theorem ListedAs.bind {α β : Type} {w : α → β} {y : Checked β} {z : Checked α}
    {k' : β → Checked (List TNm × Buffer)} {k : α → Checked (List TNm × Buffer)}
    (hy : y = map w z) (hk : ∀ a, z = .ok a → ListedAs m d (k' (w a)) (k a)) :
    ListedAs m d (y >>= k') (z >>= k) := by
  subst hy
  cases z with
  | ok a => exact hk a rfl
  | fault => exact .inl rfl

theorem ListedAs.ite {c c' : Prop} [Decidable c] [Decidable c'] (hc : c' ↔ c)
    {y y' z z' : Checked (List TNm × Buffer)} (h : ListedAs m d y z) (h' : ListedAs m d y' z') :
    ListedAs m d (if c' then y else y') (if c then z else z') := by
  by_cases hcase : c
  · rwa [if_pos hcase, if_pos (hc.mpr hcase)]
  · rwa [if_neg hcase, if_neg fun e => hcase (hc.mp e)]

/-- A record once appended stays in the list, unless the whole list is dropped. -/
theorem listSymtabFrom_keeps : ∀ fuel i (list : List TNm) (m : Buffer) {r : List TNm × Buffer},
    listSymtabFrom sym p st s x fuel i list m = .ok r → r.1 = [] ∨ list ⊆ r.1 := by
  intro fuel
  induction fuel with
  | zero =>
    intro i list m r h
    cases h
  | succ fuel ih =>
    intro i list m r h
    rcases listSymtabFrom_cases h with ⟨-, rfl⟩ | ⟨-, hnil, -⟩ | ⟨-, letter, m₂, -, -, h⟩
    · exact .inr (List.Subset.refl _)
    · exact .inl hnil
    · refine (ih _ _ _ h).imp id fun hsub => ?_
      exact List.Subset.trans (List.subset_append_left _ _) hsub

theorem map_addList {list : List TNm} {r : TNm} :
    addList (list.map (TNm.behind d)) (r.behind d) = (addList list r).map (TNm.behind d) := by
  rw [addList_eq, addList_eq, List.map_append]
  rfl

theorem listSymtabFrom_graft : ∀ fuel i (list : List TNm) (f : Buffer), d + f.size < 2 ^ 32 →
    ListedAs m d
      (listSymtabFrom (d + sym) (d + p) (d + st) s x fuel i (list.map (TNm.behind d)) (m.graft d f))
      (listSymtabFrom sym p st s x fuel i list f) := by
  intro fuel
  induction fuel with
  | zero => intro i list f _; exact .inl rfl
  | succ fuel ih =>
    intro i list f h
    unfold listSymtabFrom
    rw [Nat.add_assoc, Buffer.field_graft]
    refine ListedAs.bind (w := id) (by cases f.field 4 (sym + 12) <;> rfl) fun nsyms _ => ?_
    refine .ite Iff.rfl ?_ (.inl rfl)
    refine .ite (isSafe_graft_nat h) ?_ (.inl rfl)
    refine .bind getNlist_graft fun nlist _ => ?_
    refine .ite (isSafe_graft_nat h) ?_ (.inl rfl)
    simp only [ite_bind]
    refine .bind (swapIf_graft swapNlist_graft) fun f₁ h₁ => ?_
    have hs₁ : f₁.size = f.size := swapIf_size swapNlist_size h₁
    refine .bind getNlist_graft fun nlist _ => ?_
    refine .bind (initOneNm_graft (hs₁ ▸ h)) fun r hr => ?_
    obtain ⟨add, f₂⟩ := r
    have hs₂ : d + f₂.size < 2 ^ 32 := by
      unfold initOneNm at hr
      obtain ⟨r, hletter, hr⟩ := bind_eq_ok.mp hr
      cases hr
      rwa [getSymbolLetter_size hletter, hs₁]
    refine .bind getNlist_graft fun nlist _ => ?_
    refine .bind getSymbolName_graft fun name _ => ?_
    rcases Int.lt_or_le name 0 with hneg | hpos
    · -- the name lies before the image: in the file alone the check fails
      have hunsafe : ¬ isSafe f₂ name := fun hsafe => absurd hsafe.1 (Int.not_le.mpr hneg)
      rw [if_neg hunsafe]
      split
      · next hsafe =>
        refine .inr ⟨⟨_, rfl⟩, fun r hrun hne => ?_⟩
        have hsub := (listSymtabFrom_keeps _ _ _ _ hrun).resolve_left hne
        rw [addList_eq] at hsub
        refine ⟨_, hsub (List.mem_append_right _ (List.mem_singleton_self _)), ?_⟩
        have hnonneg : (0 : Int) ≤ d + name := hsafe.1
        simp only
        omega
      · exact .inl rfl
    · refine .ite (isSafe_graft hs₂ hpos) ?_ (.inl rfl)
      have hname : ((d : Int) + name).toNat = d + name.toNat := by omega
      rw [hname]
      have hnext := ih (i + 1) (addList list { add with name := name.toNat }) f₂ hs₂
      rwa [← map_addList] at hnext

theorem listSymtab_graft (h : d + f.size < 2 ^ 32) :
    ListedAs m d (listSymtab (d + lc) (d + p) s x (m.graft d f)) (listSymtab lc p s x f) := by
  unfold listSymtab
  simp only [Nat.add_assoc]
  refine .ite (isSafe_graft_nat h) ?_ (.inl rfl)
  simp only [ite_bind]
  refine .bind (swapIf_graft swapSymtab_graft) fun f₁ h₁ => ?_
  have hs₁ : d + f₁.size < 2 ^ 32 := by rwa [swapIf_size swapNb32_size h₁]
  rw [Buffer.field_graft]
  refine ListedAs.bind (w := id) (by cases f₁.field 4 (lc + 16) <;> rfl) fun stroff _ => ?_
  exact listSymtabFrom_graft _ _ [] f₁ hs₁

theorem getNmListFrom_graft : ∀ n lc (f : Buffer), d + f.size < 2 ^ 32 →
    ListedAs m d (getNmListFrom (d + p) s x n (d + lc) (m.graft d f))
      (getNmListFrom p s x n lc f) := by
  intro n
  induction n with
  | zero => intro lc f _; exact .inl rfl
  | succ n ih =>
    intro lc f h
    unfold getNmListFrom
    simp only [Nat.add_assoc]
    refine .ite (isSafe_graft_nat h) ?_ (.inl rfl)
    simp only [ite_bind]
    refine .bind (swapIf_graft swapLoadcommand_graft) fun f₁ h₁ => ?_
    have hs₁ : d + f₁.size < 2 ^ 32 := by rwa [swapIf_size swapNb32_size h₁]
    rw [Buffer.field_graft]
    refine ListedAs.bind (w := id) (by cases f₁.field 4 lc <;> rfl) fun cmd _ => ?_
    refine .ite Iff.rfl (listSymtab_graft hs₁) ?_
    rw [Buffer.field_graft]
    refine ListedAs.bind (w := id) (by cases f₁.field 4 (lc + 4) <;> rfl) fun cmdsize _ => ?_
    exact ih (lc + cmdsize) f₁ hs₁

theorem handleNotFat_graft (h : d + f.size < 2 ^ 32) :
    ListedAs m d (handleNotFat (m.graft d f) x s (d + p)) (handleNotFat f x s p) := by
  unfold handleNotFat
  refine .ite (isSafe_graft_nat h) ?_ (.inl rfl)
  refine .bind (getLc_graft h) fun r hr => ?_
  obtain ⟨lcInfo, f₁⟩ := r
  have hs₁ : d + f₁.size < 2 ^ 32 := by rwa [getLc_size hr]
  cases lcInfo with
  | none => exact .inl rfl
  | some lcInfo =>
    simp only
    unfold getNmList
    rw [Nat.add_assoc]
    exact getNmListFrom_graft _ _ f₁ hs₁

/-- A list of the file alone is the list behind the bytes. -/
theorem ListedAs.listed {y z : Checked (List TNm × Buffer)} {r : List TNm × Buffer}
    (h : ListedAs m d y z) (hz : z = .ok r) (hne : r.1 ≠ []) : y = .ok (movedList m d r) := by
  rcases h with rfl | ⟨⟨f', hnil⟩, -⟩
  · rw [hz]
    rfl
  · rw [hnil] at hz
    cases hz
    exact absurd rfl hne

/-- A list behind the bytes with every name behind them is one of the file alone. -/
theorem ListedAs.alone {y z : Checked (List TNm × Buffer)} {r : List TNm × Buffer}
    (h : ListedAs m d y z) (hy : y = .ok (movedList m d r)) (hne : r.1 ≠ []) : z = .ok r := by
  rcases h with rfl | ⟨-, hbefore⟩
  · obtain ⟨⟨list, f'⟩, hz, hmoved⟩ := map_eq_ok.mp hy
    obtain ⟨h1, h2⟩ := Prod.mk.inj hmoved
    obtain rfl : list = r.1 := TNm.behind_injective.list_map h1
    obtain rfl : f' = r.2 := Buffer.graft_inj h2
    exact hz
  · obtain ⟨t, ht, hlt⟩ := hbefore _ hy (by simpa [movedList] using hne)
    obtain ⟨t, -, rfl⟩ := List.mem_map.mp ht
    simp only [TNm.behind] at hlt
    omega

theorem listedAs_cut (hd : d ≤ m.size) (h : m.size < 2 ^ 32) :
    ListedAs m d (handleNotFat m x s d) (handleNotFat (m.cut d) x s 0) := by
  have hsize : d + (m.cut d).size < 2 ^ 32 := by
    rw [Buffer.size_cut]
    omega
  have hrun := handleNotFat_graft (m := m) (x := x) (s := s) (p := 0) hsize
  rwa [Buffer.graft_cut hd] at hrun

/-- A list of a slice, all of whose names lie in the slice, is the list of the file that is cut out
at its start, `d` bytes further on; and every list of that file is one of the slice. Either run
rewrites the image as the other does. -/
theorem handleNotFat_cut (hd : d ≤ m.size) (h : m.size < 2 ^ 32) {list : List TNm}
    (hne : list ≠ []) (f' : Buffer) :
    handleNotFat (m.cut d) x s 0 = .ok (list, f') ↔
      handleNotFat m x s d = .ok (list.map (TNm.behind d), m.graft d f') :=
  ⟨fun hlist => (listedAs_cut hd h).listed hlist hne,
    fun hlist => (listedAs_cut hd h).alone (r := (list, f')) hlist hne⟩

/-- A fat file of one slice: the small file, at 48. -/
def smallSlice : Buffer :=
  (Buffer.ofBytes 48 ([0xbe, 0xba, 0xfe, 0xca, 1, 0, 0, 0] ++
    [7, 0, 0, 1, 3, 0, 0, 0, 48])).graft 48 ((smallFile true).image .little true)

theorem handleNotFat_cut_smallSlice :
    handleNotFat smallSlice true false 48 =
      .ok ((records (smallSlice.cut 48) true 0 ((smallFile true).symtabAt true)).map (TNm.behind 48),
        smallSlice.graft 48 (smallSlice.cut 48)) := by
  have hcut : smallSlice.cut 48 = (smallFile true).image .little true := Buffer.cut_graft
  refine (handleNotFat_cut (m := smallSlice) (d := 48) (by decide +kernel) (by decide +kernel)
    (by decide +kernel) _).mp ?_
  have hwf := (smallFile_wf true).wellFormed (smallFile_encodes .little true)
  rw [hcut, handleNotFat_host hwf, if_pos (listed_of_lt hwf (by decide +kernel))]

/-! ## Sorting and printing -/

variable {flags name : List UInt8} {list : List TNm} {a b : TNm}

theorem compareAdd_graft :
    compareAdd (m.graft d f) (a.behind d) (b.behind d) = compareAdd f a b := by
  unfold compareAdd TNm.behind
  simp only [Buffer.field_graft]

theorem compareExchange_graft {r t : TNm} (h : compareExchange f a b = .ok (r, t)) :
    compareExchange (m.graft d f) (a.behind d) (b.behind d) = .ok (r.behind d, t.behind d) := by
  unfold compareExchange at h ⊢
  obtain ⟨c, hc, h⟩ := bind_eq_ok.mp h
  rw [TNm.behind, TNm.behind, ftStrcmp_graft hc, ok_bind, ← TNm.behind, ← TNm.behind,
    compareAdd_graft]
  split at h
  · next hpos =>
    cases h
    rw [if_pos hpos]
    rfl
  · next hpos =>
    rw [if_neg hpos]
    split at h
    · next hzero =>
      obtain ⟨d', hd, h⟩ := bind_eq_ok.mp h
      rw [if_pos hzero, hd, ok_bind]
      split at h <;> cases h <;> simp [*]
    · next hzero =>
      cases h
      rw [if_neg hzero]
      rfl

theorem compareExchangeReverse_graft {r t : TNm}
    (h : compareExchangeReverse f a b = .ok (r, t)) :
    compareExchangeReverse (m.graft d f) (a.behind d) (b.behind d) =
      .ok (r.behind d, t.behind d) := by
  unfold compareExchangeReverse at h ⊢
  obtain ⟨c, hc, h⟩ := bind_eq_ok.mp h
  rw [TNm.behind, TNm.behind, ftStrcmp_graft hc, ok_bind, ← TNm.behind, ← TNm.behind,
    compareAdd_graft]
  split at h
  · next hneg =>
    cases h
    rw [if_pos hneg]
    rfl
  · next hneg =>
    rw [if_neg hneg]
    split at h
    · next hzero =>
      obtain ⟨d', hd, h⟩ := bind_eq_ok.mp h
      rw [if_pos hzero, hd, ok_bind]
      split at h <;> cases h <;> simp [*]
    · next hzero =>
      cases h
      rw [if_neg hzero]
      rfl

theorem sortNmList_graft {out : List TNm} (h : sortNmList f list flags = .ok out) :
    sortNmList (m.graft d f) (list.map (TNm.behind d)) flags = .ok (out.map (TNm.behind d)) := by
  unfold sortNmList at h ⊢
  split at h
  · next hp =>
    cases h
    rw [if_pos hp]
    rfl
  · next hp =>
    rw [if_neg hp]
    split at h
    · next hne =>
      rw [if_pos (by simpa using hne)]
      unfold sortListByName at h ⊢
      split at h
      · next hr =>
        rw [if_pos hr]
        exact exchangeSort_image (fun _ _ _ _ hab => compareExchangeReverse_graft hab) h
      · next hr =>
        rw [if_neg hr]
        exact exchangeSort_image (fun _ _ _ _ hab => compareExchange_graft hab) h
    · next hnil =>
      cases h
      rw [if_neg (by simpa using hnil)]
      rfl

theorem printOne_graft {line : List UInt8} (h : printOne f flags a = .ok line) :
    printOne (m.graft d f) flags (a.behind d) = .ok line := by
  unfold printOne at h ⊢
  simp only [TNm.behind, hexdumpAddress_graft]
  split at h
  · next hfields =>
    rw [if_pos hfields]
    obtain ⟨address, haddress, h⟩ := bind_eq_ok.mp h
    rw [pure_eq, ok_bind] at h
    obtain ⟨name, hname, h⟩ := bind_eq_ok.mp h
    rw [haddress, ok_bind, pure_eq, ok_bind, ftStr_graft hname, ok_bind, h]
  · next hfields =>
    rw [if_neg hfields]
    rw [pure_eq, ok_bind] at h
    obtain ⟨name, hname, h⟩ := bind_eq_ok.mp h
    rw [pure_eq, ok_bind, ftStr_graft hname, ok_bind, h]

theorem printRecords_graft {out : List UInt8} (h : printRecords f flags list = .ok out) :
    printRecords (m.graft d f) flags (list.map (TNm.behind d)) = .ok out := by
  induction list generalizing out with
  | nil => exact h
  | cons r next ih =>
    unfold printRecords at h
    simp only [ite_bind] at h
    obtain ⟨line, hline, h⟩ := bind_eq_ok.mp h
    obtain ⟨rest, hrest, h⟩ := bind_eq_ok.mp h
    have hline' : (if canShowList (r.behind d).type flags then
        printOne (m.graft d f) flags (r.behind d) else pure []) = .ok line := by
      change (if canShowList r.type flags then _ else _) = _
      split at hline
      · next hshow => rw [if_pos hshow, printOne_graft hline]
      · next hshow => rw [if_neg hshow, hline]
    rw [List.map_cons, printRecords]
    simp only [ite_bind]
    rw [hline', ok_bind, ih hrest, ok_bind, h]

theorem printNmList_graft {mu : Bool} {res : Outcome}
    (h : printNmList f list name mu flags = .ok res) :
    printNmList (m.graft d f) (list.map (TNm.behind d)) name mu flags = .ok res := by
  unfold printNmList at h ⊢
  split at h
  · next hnil =>
    cases h
    rw [if_pos (by simpa using hnil)]
    rfl
  · next hne =>
    obtain ⟨lines, hlines, h⟩ := bind_eq_ok.mp h
    rw [if_neg (by simpa using hne), printRecords_graft hlines, ok_bind, h]

/-! ## Fat files -/

/-- Entry `k` is the first of the table for the host. -/
structure FirstForHost (m : Buffer) (x s : Bool) (k : Nat) : Prop where
  lt : k < nfatArchs m s
  eligible : Eligible m x s k
  first : ∀ j, j < k → ¬ Eligible m x s j

variable {k : Nat} {r : List TNm × Buffer}

/-- The loop comes to the slice of the first entry for the host, and ends with its list. -/
theorem handleFatFrom_first (hk : FirstForHost m x s k) (hsafe : ∀ j, j ≤ k → EntrySafe m x s j)
    (hp : Parsed m x s m k) (hne : r.1 ≠ [])
    (hr : parseEntry handleNotFat m x s m k = .ok r) : ∀ n i, i + n = nfatArchs m s → i ≤ k →
    handleFatFrom handleNotFat 0 (fatArchSize x) n i (fatOf m x s) m = .ok r := by
  intro n
  induction n with
  | zero =>
    intro i hi hik
    have := hk.lt
    omega
  | succ n ih =>
    intro i hi hik
    rw [handleFatFrom, arrayAt, handleEachArchWith_eq .refl (by have := hk.lt; omega) (hsafe i hik)]
    rcases Nat.lt_or_eq_of_le hik with hlt | rfl
    · rw [if_neg fun h : Parsed m x s m i => hk.first i hlt h.2.1, ok_bind]
      simp only [ne_eq, not_true_eq_false, if_false]
      exact ih (i + 1) (by omega) hlt
    · rw [if_pos hp, hr, ok_bind, ok_bind]
      simp [hne]

theorem handleFat_first (hsz : m.size < 2 ^ 32) (h8 : 8 ≤ m.size)
    (htable : archAt x (nfatArchs m s) ≤ m.size) (hk : FirstForHost m x s k)
    (hmagic : archOffset m x s k + 4 ≤ m.size)
    (hthin : notValidHeader (m.le 4 (archOffset m x s k)) = false) (hne : r.1 ≠ [])
    (hr : parseEntry handleNotFat m x s m k = .ok r) : handleFat m x s 0 = .ok r := by
  have hmap := mapSize_eq hsz
  have hentry : ∀ j, j < nfatArchs m s → archAt x j + 8 + wordSize x ≤ m.size := by
    intro j hj
    have h1 := archAt_succ_le (x := x) hj
    have h2 := wordSize_le_fatArch x
    omega
  have hsafe : ∀ j, j ≤ k → EntrySafe m x s j := by
    intro j hj _
    have hlt := hentry j (Nat.lt_of_le_of_lt hj hk.lt)
    refine ⟨by omega, fun he => ⟨hlt, ?_⟩⟩
    rcases Nat.lt_or_eq_of_le hj with hlt | rfl
    · exact absurd he (hk.first j hlt)
    · exact hmagic
  have hpre : PrescanSafe m x s := by
    intro j hj _
    have := hentry j hj
    omega
  have hin := hentry k hk.lt
  have hp : Parsed m x s m k := ⟨by omega, hk.eligible, hthin⟩
  rw [handleFat, handleFatWith, if_pos ((isSafe_natCast m _).mpr (by unfold fatHeaderSize; omega)),
    nfatArch_ok h8, ok_bind, initTFat_ok h8 hpre, ok_bind]
  exact handleFatFrom_first hk hsafe hp hne hr _ 0 (by omega) (Nat.zero_le k)

theorem nm_thin_listed {num : TNu} {o : Outcome} (hthin : notValidHeader (f.le 4 0) = false)
    (h : nm f name num flags = .ok o) (hret : o.ret = 0) :
    32 ≤ mapSize f ∧ ∃ list f' sorted, list ≠ [] ∧
      handleNotFat f (is64File (f.le 4 0)) (shouldSwapFile (f.le 4 0)) 0 = .ok (list, f') ∧
      sortNmList f' list flags = .ok sorted ∧ ∃ res,
        printNmList f' sorted name num.multi flags = .ok res ∧
        o = { res with out := printNewLine num.multi num.first ++ res.out } := by
  obtain ⟨hvalid, hfat⟩ := thin_magic hthin
  unfold nm at h
  split at h
  · next hsafe =>
    have h32 := (isSafe_natCast f 32).mp hsafe
    have hsize := mapSize_le f
    rw [Buffer.field_ok (by omega), ok_bind, if_neg (Bool.eq_false_iff.mp hvalid)] at h
    simp only [handleNm] at h
    rw [if_neg (Bool.eq_false_iff.mp hfat)] at h
    obtain ⟨⟨list, f'⟩, hlist, h⟩ := bind_eq_ok.mp h
    obtain ⟨sorted, hsorted, h⟩ := bind_eq_ok.mp h
    obtain ⟨res, hres, h⟩ := bind_eq_ok.mp h
    cases h
    refine ⟨h32, list, f', sorted, ?_, hlist, hsorted, res, hres, rfl⟩
    rintro rfl
    -- without a list the file is reported as malformed
    have hnil : sortNmList f' [] flags = .ok [] := by
      unfold sortNmList
      split <;> rfl
    obtain rfl := Checked.ok.inj (hnil.symm.trans hsorted)
    cases hres
    exact absurd hret (show ¬ (-1 : Int) = 0 by decide)
  · cases h
    exact absurd hret (show ¬ (-1 : Int) = 0 by decide)

/-- A fat file is listed as the thin file that its first slice for the host is cut out to: where
`ft_nm` lists that file, it prints the same for the fat one. -/
theorem nm_fat_cut {num : TNu} {o : Outcome} (hfat : isFatFile (m.le 4 0) = true)
    (hx : is64File (m.le 4 0) = x) (hs : shouldSwapFile (m.le 4 0) = s) (hsz : m.size < 2 ^ 32)
    (htable : archAt x (nfatArchs m s) ≤ m.size) (hk : FirstForHost m x s k)
    (hthin : notValidHeader (m.le 4 (archOffset m x s k)) = false)
    (h : nm (m.cut (archOffset m x s k)) name num flags = .ok o) (hret : o.ret = 0) :
    nm m name num flags = .ok o := by
  have hmagic : (m.cut (archOffset m x s k)).le 4 0 = m.le 4 (archOffset m x s k) :=
    Buffer.le_congr fun i _ => by rw [Nat.zero_add]; rfl
  obtain ⟨h32, list, f', sorted, hne, hlist, hsorted, res, hres, rfl⟩ :=
    nm_thin_listed (hmagic ▸ hthin) h hret
  have hcut : mapSize (m.cut (archOffset m x s k)) = m.size - archOffset m x s k :=
    mapSize_eq (by rw [Buffer.size_cut]; omega)
  have hmap := mapSize_eq hsz
  rw [hmagic] at hlist
  have hslice := (listedAs_cut (by omega) hsz).listed hlist hne
  have hrun := handleFat_first hsz (by omega) htable hk (by omega) hthin
    (by simpa [movedList] using hne) hslice
  rw [nm, if_pos ((isSafe_natCast m 32).mpr (by omega)), Buffer.field_ok (by omega), ok_bind,
    if_neg (Bool.eq_false_iff.mp (fat_magic hfat))]
  simp only [handleNm]
  rw [if_pos hfat, hx, hs, hrun, ok_bind]
  simp only [movedList]
  rw [sortNmList_graft hsorted, ok_bind, printNmList_graft hres]
  rfl

theorem nm_fat_cut_smallSlice :
    nm smallSlice (ascii "a") ⟨false, true⟩ [] =
      nm (smallSlice.cut 48) (ascii "a") ⟨false, true⟩ [] := by
  have hcut : smallSlice.cut 48 = (smallFile true).image .little true := Buffer.cut_graft
  have hwf := (smallFile_wf true).wellFormed (smallFile_encodes .little true)
  obtain ⟨lines, hthin⟩ : ∃ o, nm (smallSlice.cut 48) (ascii "a") ⟨false, true⟩ [] = .ok o ∧
      o.ret = 0 := by
    rw [hcut]
    exact ⟨_, nm_listed hwf (listed_of_lt hwf (by decide +kernel)) (by decide +kernel), rfl⟩
  have hoffset : archOffset smallSlice false false 0 = 48 := by decide +kernel
  refine (nm_fat_cut (k := 0) (by decide +kernel) (by decide +kernel) (by decide +kernel)
    (by decide +kernel) (by decide +kernel) ⟨by decide +kernel, by decide +kernel,
    fun j hj => absurd hj (Nat.not_lt_zero j)⟩ (by decide +kernel) (hoffset ▸ hthin.1)
    hthin.2).trans hthin.1.symm

end NmOtool.Nm
