import Mathlib.Logic.Relation
import NmOtool.Nm.Fat
import NmOtool.Nm.Local
import NmOtool.MachO.View

/-!
# ft_nm: the fat dispatcher

The accesses of `handle_fat`, `init_t_fat` and `handle_each_arch`. `handleEachArchWith_inside` says
what one entry does in the image that it finds: the parse of an earlier slice may have rewritten the
table. The dispatcher stays in the map exactly where the entries that its two loops come to do.
-/

namespace NmOtool.Nm

open MachO Checked

variable {m m' : Buffer} {x s : Bool} {i k n array ptr : Nat} {parse : Parser} {fat : TFat}

/-! ## Reading an entry -/

theorem fatWord_32 {v : Nat} (hv : v < 256 ^ 4) :
    (if s then (swapUint32 (.ofNat 32 v)).toNat else v) = fatWord s 4 v := by
  rw [toNat_swapUint32, BitVec.toNat_ofNat, Nat.mod_eq_of_lt (by simpa using hv)]
  rfl

theorem fatWord_64 {v : Nat} (hv : v < 256 ^ 8) :
    (if s then (swapUint64 (.ofNat 64 v)).toNat else v) = fatWord s 8 v := by
  rw [toNat_swapUint64, BitVec.toNat_ofNat, Nat.mod_eq_of_lt (by simpa using hv)]
  rfl

/-- The value of `is_hostarch` for a CPU type. -/
def archCode (type : Nat) : Nat :=
  if type = CPU_TYPE_X86_64 then MY_CPU_X86_64
  else if type = CPU_TYPE_I386 then MY_CPU_I386
  else 0

theorem isHostarch_ok {p : Nat} (h : p + 4 ≤ m.size) :
    isHostarch m p s = .ok (archCode (fatWord s 4 (m.le 4 p))) := by
  rw [isHostarch, Buffer.field_ok h, ok_bind, fatWord_32 m.le_lt, archCode]
  simp only [pure_eq]
  split_ifs <;> rfl

theorem isHostarch_fault {p : Nat} (h : m.size < p + 4) : isHostarch m p s = .fault := by
  rw [isHostarch, Buffer.field_fault h, fault_bind]

theorem returns_isHostarch {p : Nat} {K : Nat → Prop} : (isHostarch m p s).Returns K ↔
    p + 4 ≤ m.size ∧ K (archCode (fatWord s 4 (m.le 4 p))) := by
  rcases Nat.lt_or_ge m.size (p + 4) with h | h
  · rw [isHostarch_fault h]
    exact iff_of_false returns_fault fun h' => by omega
  · rw [isHostarch_ok h, and_iff_right h]
    exact returns_ok

theorem archCode_eq_x86 {type : Nat} :
    archCode type = MY_CPU_X86_64 ↔ type = CPU_TYPE_X86_64 := by
  unfold archCode
  by_cases h : type = CPU_TYPE_X86_64
  · simp [h]
  · rw [if_neg h]
    simp only [h, iff_false]
    split_ifs <;> decide

theorem archCode_eq_i386 {type : Nat} :
    archCode type = MY_CPU_I386 ↔ type = CPU_TYPE_I386 := by
  unfold archCode
  by_cases h : type = CPU_TYPE_X86_64
  · rw [if_pos h, h]
    decide
  · rw [if_neg h]
    by_cases h' : type = CPU_TYPE_I386
    · simp [h']
    · rw [if_neg h']
      simp only [h', iff_false]
      decide

theorem archCode_eq_zero {type : Nat} :
    archCode type = 0 ↔ type ≠ CPU_TYPE_X86_64 ∧ type ≠ CPU_TYPE_I386 := by
  unfold archCode
  by_cases h : type = CPU_TYPE_X86_64
  · rw [if_pos h, h]
    decide
  · rw [if_neg h]
    by_cases h' : type = CPU_TYPE_I386
    · rw [if_pos h', h']
      decide
    · simp [h, h']

theorem returns_getOffsizeArch {p : Nat} {K : Nat → Prop} : (getOffsizeArch m p s x).Returns K ↔
    p + 8 + wordSize x ≤ m.size ∧ K (fatWord s (wordSize x) (m.le (wordSize x) (p + 8))) := by
  unfold getOffsizeArch
  cases x with
  | true =>
    rw [if_pos rfl, returns_bind, Buffer.returns_field]
    exact and_congr_right fun _ => by rw [fatWord_64 m.le_lt]; exact returns_ok
  | false =>
    rw [if_neg Bool.false_ne_true, returns_bind, Buffer.returns_field]
    exact and_congr_right fun _ => by rw [fatWord_32 m.le_lt]; exact returns_ok

theorem getOffsizeArch_ok (h : array + 8 + wordSize x ≤ m.size) :
    getOffsizeArch m array s x = .ok (fatWord s (wordSize x) (m.le (wordSize x) (array + 8))) := by
  obtain ⟨o, ho, rfl⟩ := returns_getOffsizeArch
    (K := (· = fatWord s (wordSize x) (m.le (wordSize x) (array + 8)))).mpr ⟨h, rfl⟩
  exact ho

theorem getOffsizeArch_fault (h : m.size < array + 8 + wordSize x) :
    getOffsizeArch m array s x = .fault := by
  by_contra hne
  have hret : (getOffsizeArch m array s x).Returns fun _ => True := returns_true.mpr hne
  exact absurd (returns_getOffsizeArch.mp hret).1 (by omega)

/-! ## The entry at an address -/

/-- The CPU type of the entry at `array`. -/
def entryType (m : Buffer) (array : Nat) (fat : TFat) : Nat :=
  fatWord fat.shouldSwap 4 (m.le 4 array)

/-- The slice that the entry at `array` leads to. -/
def entrySlice (m : Buffer) (array ptr : Nat) (fat : TFat) : Nat :=
  ptr + fatWord fat.shouldSwap (wordSize fat.is64) (m.le (wordSize fat.is64) (array + 8))

/-- The entry at `array` is for the host, as far as `fat` tells. -/
def HostEntry (m : Buffer) (array : Nat) (fat : TFat) : Prop :=
  entryType m array fat = CPU_TYPE_X86_64 ∨
    entryType m array fat = CPU_TYPE_I386 ∧ fat.found64 = false

instance (m : Buffer) (array : Nat) (fat : TFat) : Decidable (HostEntry m array fat) :=
  inferInstanceAs (Decidable (_ ∨ _ ∧ _))

/-- `handle_each_arch` parses the slice: the entry is for the host, and its slice begins with a
thin magic number. -/
def SliceParsed (m : Buffer) (array ptr : Nat) (fat : TFat) : Prop :=
  isSafe m array ∧ HostEntry m array fat ∧
    notValidHeader (m.le 4 (entrySlice m array ptr fat)) = false

instance (m : Buffer) (array ptr : Nat) (fat : TFat) : Decidable (SliceParsed m array ptr fat) :=
  inferInstanceAs (Decidable (_ ∧ _ ∧ _))

/-- The two tests that `handle_each_arch` makes on the value of `is_hostarch`. -/
theorem hostEntry_iff : HostEntry m array fat ↔
    ¬ archCode (entryType m array fat) = 0 ∧
      ¬ (fat.found64 = true ∧ archCode (entryType m array fat) = MY_CPU_I386) := by
  rw [archCode_eq_zero, archCode_eq_i386, HostEntry]
  by_cases h64 : entryType m array fat = CPU_TYPE_X86_64
  · have hne : ¬ CPU_TYPE_X86_64 = CPU_TYPE_I386 := by decide
    simp [h64, hne]
  · have hcases : ∀ found : Bool, found = false ↔ ¬ found = true := by decide
    rw [hcases]
    tauto

/-- `t_fat` behind the entry at `array`. -/
def raised (m : Buffer) (array : Nat) (fat : TFat) : TFat :=
  if entryType m array fat = CPU_TYPE_X86_64 then { fat with found64 := true } else fat

/-- What `handle_each_arch` reads of the entry at `array` lies in the map: nothing when the entry
starts behind `g_map_size`, its CPU type otherwise, and the offset and the magic number it leads to
when the entry is for the host. -/
def EntryInside (m : Buffer) (array ptr : Nat) (fat : TFat) : Prop :=
  isSafe m array → array + 4 ≤ m.size ∧
    (HostEntry m array fat →
      array + 8 + wordSize fat.is64 ≤ m.size ∧ entrySlice m array ptr fat + 4 ≤ m.size)

instance (m : Buffer) (array ptr : Nat) (fat : TFat) : Decidable (EntryInside m array ptr fat) :=
  inferInstanceAs (Decidable (_ → _))

/-- The call of the parser for the slice at `p`. -/
def parseSlice (parse : Parser) (m : Buffer) (p : Nat) : Checked (List TNm × Buffer) :=
  parse m (is64File (m.le 4 p)) (shouldSwapFile (m.le 4 p)) p

theorem handleEachArchWith_inside (h : EntryInside m array ptr fat) :
    handleEachArchWith parse m array ptr fat =
      if SliceParsed m array ptr fat then
        parseSlice parse m (entrySlice m array ptr fat) >>= fun r =>
          .ok (r.1, r.2, raised m array fat)
      else .ok ([], m, fat) := by
  unfold handleEachArchWith
  by_cases hs : isSafe m array
  · obtain ⟨h4, hhost⟩ := h hs
    have hcode : isHostarch m array fat.shouldSwap = .ok (archCode (entryType m array fat)) :=
      isHostarch_ok h4
    rw [if_pos hs, hcode, ok_bind]
    by_cases he : HostEntry m array fat
    · obtain ⟨h8, hoff⟩ := hhost he
      obtain ⟨hne, hni⟩ := hostEntry_iff.mp he
      rw [if_neg hne, if_neg hni, getOffsizeArch_ok h8, ok_bind]
      change (m.field 4 (entrySlice m array ptr fat) >>= _) = _
      rw [Buffer.field_ok hoff, ok_bind]
      by_cases hv : notValidHeader (m.le 4 (entrySlice m array ptr fat)) = true
      · have hno : ¬ SliceParsed m array ptr fat := fun hp => Bool.noConfusion (hv.symm.trans hp.2.2)
        rw [if_pos hv, if_neg hno]
        rfl
      · have hp : SliceParsed m array ptr fat := ⟨hs, he, by simpa using hv⟩
        rw [if_neg hv, if_pos hp]
        simp only [archCode_eq_x86]
        rfl
    · rw [if_neg fun hp : SliceParsed m array ptr fat => he hp.2.1]
      rw [hostEntry_iff, not_and_or, not_not, not_not] at he
      by_cases h0 : archCode (entryType m array fat) = 0
      · rw [if_pos h0]
        rfl
      · rw [if_neg h0, if_pos (he.resolve_left h0)]
        rfl
  · rw [if_neg hs, if_neg fun hp : SliceParsed m array ptr fat => hs hp.1]
    rfl

theorem handleEachArchWith_outside (h : ¬ EntryInside m array ptr fat) :
    handleEachArchWith parse m array ptr fat = .fault := by
  obtain ⟨hs, h⟩ := Classical.not_imp.mp h
  rw [handleEachArchWith, if_pos hs]
  by_cases h4 : array + 4 ≤ m.size
  · obtain ⟨he, hoff⟩ := Classical.not_imp.mp fun hhost => h ⟨h4, hhost⟩
    obtain ⟨hne, hni⟩ := hostEntry_iff.mp he
    have hcode : isHostarch m array fat.shouldSwap = .ok (archCode (entryType m array fat)) :=
      isHostarch_ok h4
    rw [hcode, ok_bind, if_neg hne, if_neg hni]
    by_cases h8 : array + 8 + wordSize fat.is64 ≤ m.size
    · rw [getOffsizeArch_ok h8, ok_bind]
      change (m.field 4 (entrySlice m array ptr fat) >>= _) = _
      rw [Buffer.field_fault (Nat.lt_of_not_le fun h => hoff ⟨h8, h⟩), fault_bind]
    · rw [getOffsizeArch_fault (Nat.lt_of_not_le h8), fault_bind]
  · rw [isHostarch_fault (by omega), fault_bind]

/-! ## An entry of the table -/

/-- What `handle_each_arch` reads of entry `k` lies in the map, as the table of `m` has it. -/
def EntrySafe (m : Buffer) (x s : Bool) (k : Nat) : Prop :=
  archAt x k ≤ mapSize m → archAt x k + 4 ≤ m.size ∧
    (Eligible m x s k →
      archAt x k + 8 + wordSize x ≤ m.size ∧ archOffset m x s k + 4 ≤ m.size)

instance (m : Buffer) (x s : Bool) (k : Nat) : Decidable (EntrySafe m x s k) :=
  inferInstanceAs (Decidable (_ → _))

/-- The slice of entry `k` is parsed: the entry is for the host and, in the image `m'`, its slice
begins with a thin magic number. -/
def Parsed (m : Buffer) (x s : Bool) (m' : Buffer) (k : Nat) : Prop :=
  archAt x k ≤ mapSize m ∧ Eligible m x s k ∧
    notValidHeader (m'.le 4 (archOffset m x s k)) = false

instance (m : Buffer) (x s : Bool) (m' : Buffer) (k : Nat) : Decidable (Parsed m x s m' k) :=
  inferInstanceAs (Decidable (_ ∧ _))

/-- The call of the parser for entry `k`. -/
def parseEntry (parse : Parser) (m : Buffer) (x s : Bool) (m' : Buffer) (k : Nat) :
    Checked (List TNm × Buffer) :=
  parse m' (is64File (m'.le 4 (archOffset m x s k))) (shouldSwapFile (m'.le 4 (archOffset m x s k)))
    (archOffset m x s k)

/-- The record `t_fat` after `init_t_fat`; nothing changes it later. -/
def fatOf (m : Buffer) (x s : Bool) : TFat := ⟨s, x, decide (HasX86 m x s)⟩

/-- `m'` keeps the table of `m`. -/
abbrev SameTable (m : Buffer) (x s : Bool) (m' : Buffer) : Prop :=
  Buffer.AgreeOn (fun q => q < archAt x (nfatArchs m s)) m m'

theorem SameTable.archType (h : SameTable m x s m') (hk : k < nfatArchs m s) :
    MachO.archType m' x s k = MachO.archType m x s k := by
  have h1 := archAt_succ_le (x := x) hk
  have h2 := wordSize_le_fatArch x
  rw [MachO.archType, MachO.archType, Buffer.AgreeOn.le h fun j hj => by omega]

theorem SameTable.archOffset (h : SameTable m x s m') (hk : k < nfatArchs m s) :
    MachO.archOffset m' x s k = MachO.archOffset m x s k := by
  have h1 := archAt_succ_le (x := x) hk
  have h2 := wordSize_le_fatArch x
  rw [MachO.archOffset, MachO.archOffset, Buffer.AgreeOn.le h fun j hj => by omega]

/-- `t_fat` knows which entries of the table are for the host. -/
theorem hostEntry_iff_eligible (h : SameTable m x s m') (hk : k < nfatArchs m s) :
    HostEntry m' (archAt x k) (fatOf m x s) ↔ Eligible m x s k := by
  have htype : entryType m' (archAt x k) (fatOf m x s) = archType m x s k := h.archType hk
  have hfound : (fatOf m x s).found64 = false ↔ ¬ HasX86 m x s := decide_eq_false_iff_not
  rw [HostEntry, htype, hfound, Eligible]

theorem entrySlice_eq (h : SameTable m x s m') (hk : k < nfatArchs m s) :
    entrySlice m' (archAt x k) 0 (fatOf m x s) = archOffset m x s k :=
  (Nat.zero_add _).trans (h.archOffset hk)

/-- An x86_64 entry raises a flag that `init_t_fat` has raised already. -/
theorem raised_eq (h : SameTable m x s m') (hk : k < nfatArchs m s) :
    raised m' (archAt x k) (fatOf m x s) = fatOf m x s := by
  have htype : entryType m' (archAt x k) (fatOf m x s) = archType m x s k := h.archType hk
  rw [raised, htype]
  split_ifs with hx
  · have hfound : HasX86 m x s := ⟨k, hk, hx⟩
    rw [fatOf, decide_eq_true hfound]
  · rfl

theorem isSafe_archAt (h : m'.size = m.size) : isSafe m' (archAt x k) ↔ archAt x k ≤ mapSize m := by
  rw [isSafe_natCast, mapSize, mapSize, h]

theorem entryInside_iff (h : SameTable m x s m') (hk : k < nfatArchs m s) :
    EntryInside m' (archAt x k) 0 (fatOf m x s) ↔ EntrySafe m x s k := by
  rw [EntryInside, isSafe_archAt h.size, hostEntry_iff_eligible h hk, entrySlice_eq h hk, h.size]
  rfl

theorem sliceParsed_iff (h : SameTable m x s m') (hk : k < nfatArchs m s) :
    SliceParsed m' (archAt x k) 0 (fatOf m x s) ↔ Parsed m x s m' k := by
  rw [SliceParsed, isSafe_archAt h.size, hostEntry_iff_eligible h hk, entrySlice_eq h hk]
  rfl

theorem handleEachArchWith_eq (h : SameTable m x s m') (hk : k < nfatArchs m s)
    (hsafe : EntrySafe m x s k) :
    handleEachArchWith parse m' (archAt x k) 0 (fatOf m x s) =
      if Parsed m x s m' k then
        parseEntry parse m x s m' k >>= fun r => .ok (r.1, r.2, fatOf m x s)
      else .ok ([], m', fatOf m x s) := by
  rw [handleEachArchWith_inside ((entryInside_iff h hk).mpr hsafe), raised_eq h hk,
    entrySlice_eq h hk]
  exact if_congr (sliceParsed_iff h hk) rfl rfl

theorem handleEachArchWith_fault (hk : k < nfatArchs m s) (hsafe : ¬ EntrySafe m x s k) :
    handleEachArchWith parse m (archAt x k) 0 (fatOf m x s) = .fault :=
  handleEachArchWith_outside (mt (entryInside_iff .refl hk).mp hsafe)

/-! ## The two loops -/

theorem nfatArch_ok (h : 8 ≤ m.size) : nfatArch m s 0 = .ok (nfatArchs m s) := by
  rw [nfatArch, Buffer.field_ok (by omega), ok_bind, fatWord_32 m.le_lt]
  rfl

/-- What `init_t_fat` reads lies in the map: the CPU types up to the first x86_64. -/
def PrescanSafe (m : Buffer) (x s : Bool) : Prop :=
  ∀ k, k < nfatArchs m s → (∀ j, j < k → archType m x s j ≠ CPU_TYPE_X86_64) →
    archAt x k + 4 ≤ m.size

theorem arrayAt : 0 + i * fatArchSize x + fatHeaderSize = archAt x i := by unfold archAt; omega

theorem initTFatFrom_ok :
    ∀ n i, (∀ k, i ≤ k → k < i + n → (∀ j, i ≤ j → j < k → archType m x s j ≠ CPU_TYPE_X86_64) →
        archAt x k + 4 ≤ m.size) →
      initTFatFrom m 0 (fatArchSize x) s n i =
        .ok (decide (∃ k, k < i + n ∧ (i ≤ k ∧ archType m x s k = CPU_TYPE_X86_64))) := by
  intro n
  induction n with
  | zero =>
    intro i _
    rw [initTFatFrom, decide_eq_false (fun ⟨k, h1, h2, _⟩ => by omega)]
    rfl
  | succ n ih =>
    intro i h
    rw [initTFatFrom, arrayAt, isHostarch_ok (h i (by omega) (by omega) (by omega)), ok_bind,
      show fatWord s 4 (m.le 4 (archAt x i)) = archType m x s i from rfl]
    by_cases hx : archType m x s i = CPU_TYPE_X86_64
    · rw [if_pos (archCode_eq_x86.mpr hx), decide_eq_true ⟨i, by omega, Nat.le_refl _, hx⟩]
      rfl
    · rw [if_neg fun e => hx (archCode_eq_x86.mp e), ih (i + 1)]
      · refine congrArg ok (decide_eq_decide.mpr ⟨fun ⟨k, h1, h2, h3⟩ => ⟨k, by omega, by omega, h3⟩,
          fun ⟨k, h1, h2, h3⟩ => ⟨k, by omega, ?_, h3⟩⟩)
        have : k ≠ i := fun e => hx (e ▸ h3)
        omega
      · intro k h1 h2 h3
        apply h k (by omega) (by omega)
        intro j hj1 hj2
        rcases Nat.lt_or_eq_of_le hj1 with hj | rfl
        · exact h3 j hj hj2
        · exact hx

theorem initTFatFrom_prescan :
    ∀ n i, initTFatFrom m 0 (fatArchSize x) s n i ≠ .fault →
      ∀ k, i ≤ k → k < i + n → (∀ j, i ≤ j → j < k → archType m x s j ≠ CPU_TYPE_X86_64) →
        archAt x k + 4 ≤ m.size := by
  intro n
  induction n with
  | zero => intro i _ k h1 h2; omega
  | succ n ih =>
    intro i h k h1 h2 h3
    rw [initTFatFrom, arrayAt] at h
    by_cases h4 : archAt x i + 4 ≤ m.size
    · rcases Nat.lt_or_eq_of_le h1 with hlt | rfl
      · have hx := h3 i (Nat.le_refl _) hlt
        rw [isHostarch_ok h4, ok_bind, show fatWord s 4 (m.le 4 (archAt x i)) =
          archType m x s i from rfl, if_neg fun e => hx (archCode_eq_x86.mp e)] at h
        exact ih (i + 1) h k hlt (by omega) fun j hj1 hj2 => h3 j (by omega) hj2
      · exact h4
    · rw [isHostarch_fault (by omega), fault_bind] at h
      exact absurd rfl h

theorem initTFat_ok (h8 : 8 ≤ m.size) (h : PrescanSafe m x s) :
    initTFat m x s 0 = .ok (fatOf m x s) := by
  rw [initTFat, nfatArch_ok h8, ok_bind, initTFatFrom_ok _ _ fun k _ h2 h3 =>
    h k (by omega) fun j hj => h3 j (Nat.zero_le _) hj, ok_bind, fatOf]
  congr 3
  simp only [Nat.zero_le, true_and, Nat.zero_add]
  rfl

theorem prescanSafe_of_ok (h8 : 8 ≤ m.size) (h : initTFat m x s 0 ≠ .fault) :
    PrescanSafe m x s := by
  rw [initTFat, nfatArch_ok h8, ok_bind] at h
  intro k hk hj
  refine initTFatFrom_prescan (nfatArchs m s) 0 (fun e => h (by rw [e, fault_bind])) k
    (Nat.zero_le _) (by omega) fun j _ hjk => hj j hjk

/-! ## The entries that the loop comes to -/

/-- A parser whose fault ends the run with a list: no read of the dispatcher follows. -/
def ending (parse : Parser) : Parser := fun m is64 shouldSwap ptr =>
  .ok ((parse m is64 shouldSwap ptr).getD ([⟨is64, 0, 0, 0⟩], m))

/-- The loop of `handle_fat` in front of entry `i`: `t_fat` and the image. -/
structure AtEntry where
  i : Nat
  fat : TFat
  image : Buffer

/-- The loop goes on to the next entry, past a slice that is not parsed or that has no list. -/
inductive NextEntry (parse : Parser) (x : Bool) : AtEntry → AtEntry → Prop where
  | skip {t : AtEntry} : ¬ SliceParsed t.image (archAt x t.i) 0 t.fat →
      NextEntry parse x t ⟨t.i + 1, t.fat, t.image⟩
  | parse {t : AtEntry} {m' : Buffer} : SliceParsed t.image (archAt x t.i) 0 t.fat →
      parseSlice parse t.image (entrySlice t.image (archAt x t.i) 0 t.fat) = .ok ([], m') →
      NextEntry parse x t ⟨t.i + 1, raised t.image (archAt x t.i) t.fat, m'⟩

/-- The loop comes to the entry. -/
abbrev Comes (parse : Parser) (x : Bool) : AtEntry → AtEntry → Prop :=
  Relation.ReflTransGen (NextEntry parse x)

variable {t u : AtEntry}

theorem NextEntry.i_eq (h : NextEntry parse x t u) : u.i = t.i + 1 := by
  cases h <;> rfl

theorem Comes.le (h : Comes parse x t u) : t.i ≤ u.i := by
  induction h with
  | refl => exact Nat.le_refl _
  | tail _ hstep ih => exact ih.trans (hstep.i_eq ▸ Nat.le_succ _)

/-- The loop from an entry on faults in no read of its own if and only if each entry that it comes to
lies in the map. -/
theorem handleFatFrom_ending :
    handleFatFrom (ending parse) 0 (fatArchSize x) n i fat m ≠ .fault ↔
      ∀ t, Comes parse x ⟨i, fat, m⟩ t → t.i < i + n →
        EntryInside t.image (archAt x t.i) 0 t.fat := by
  induction n generalizing i fat m with
  | zero =>
    refine iff_of_true nofun fun t ht hlt => ?_
    have hle : i ≤ t.i := ht.le
    exact absurd hlt (Nat.not_lt.mpr hle)
  | succ n ih =>
    rw [handleFatFrom, arrayAt]
    by_cases hin : EntryInside m (archAt x i) 0 fat
    · rw [handleEachArchWith_inside hin]
      -- what holds of the first entry and of all behind it
      have hsplit : ∀ {P : AtEntry → Prop}, P ⟨i, fat, m⟩ →
          ((∀ t, Comes parse x ⟨i, fat, m⟩ t → P t) ↔
            ∀ u, NextEntry parse x ⟨i, fat, m⟩ u → ∀ t, Comes parse x u t → P t) := by
        intro P h0
        refine ⟨fun h u hu t ht => h t (.head hu ht), fun h t ht => ?_⟩
        rcases ht.cases_head with rfl | ⟨u, hu, ht⟩
        · exact h0
        · exact h u hu t ht
      rw [hsplit fun _ => hin]
      by_cases hp : SliceParsed m (archAt x i) 0 fat
      · rw [if_pos hp, parseSlice, ending]
        cases hparse : parseSlice parse m (entrySlice m (archAt x i) 0 fat) with
        | fault =>
          rw [parseSlice] at hparse
          rw [hparse]
          refine iff_of_true nofun fun u hu => ?_
          cases hu with
          | skip hno => exact absurd hp hno
          | parse _ hok => exact nomatch hparse.symm.trans hok
        | ok r =>
          obtain ⟨l, m'⟩ := r
          have hparse' := hparse
          rw [parseSlice] at hparse'
          rw [hparse']
          simp only [ok_bind, getD]
          by_cases hl : l = []
          · subst hl
            rw [if_neg (not_not_intro rfl), ih, Nat.add_right_comm]
            constructor
            · intro h u hu
              cases hu with
              | skip hno => exact absurd hp hno
              | parse _ hok =>
                cases hparse.symm.trans hok
                exact h
            · exact fun h => h _ (.parse hp hparse)
          · rw [if_pos hl]
            refine iff_of_true nofun fun u hu => ?_
            cases hu with
            | skip hno => exact absurd hp hno
            | parse _ hok =>
              cases hparse.symm.trans hok
              exact absurd rfl hl
      · rw [if_neg hp, ok_bind]
        simp only
        rw [if_neg (not_not_intro rfl), ih, Nat.add_right_comm]
        constructor
        · intro h u hu
          cases hu with
          | skip _ => exact h
          | parse hyes _ => exact absurd hyes hp
        · exact fun h => h _ (.skip hp)
    · rw [handleEachArchWith_outside hin, fault_bind]
      exact iff_of_false (not_not_intro rfl) fun h =>
        hin (h _ .refl (Nat.lt_add_of_pos_right (Nat.succ_pos n)))

/-! ## The dispatcher stays in the map -/

/-- The dispatcher stays in the map, up to each call of `handle_not_fat` and from its return on, if and
only if the file is too short for `g_map_size` to admit its header, or what the search for x86_64
reads lies in the map and so does what is read of each entry that the loop comes to, in the image and
with the `t_fat` that it comes to it with. -/
theorem handleFat_inBounds (hn : 32 ≤ m.size) :
    handleFatWith (ending handleNotFat) m x s 0 ≠ .fault ↔
      (mapSize m < fatHeaderSize ∨ PrescanSafe m x s ∧
        ∀ t, Comes handleNotFat x ⟨0, fatOf m x s, m⟩ t → t.i < nfatArchs m s →
          EntryInside t.image (archAt x t.i) 0 t.fat) := by
  have h8 : 8 ≤ m.size := by omega
  by_cases hsize : mapSize m < fatHeaderSize
  · rw [handleFatWith, if_neg fun e => by rw [isSafe_natCast] at e; omega]
    exact iff_of_true nofun (.inl hsize)
  · rw [handleFatWith, if_pos ((isSafe_natCast m _).mpr (by omega)), nfatArch_ok h8, ok_bind,
      or_iff_right hsize]
    by_cases hpre : PrescanSafe m x s
    · rw [initTFat_ok h8 hpre, ok_bind, and_iff_right hpre, handleFatFrom_ending, Nat.zero_add]
    · have hfault : initTFat m x s 0 = .fault := by
        by_contra hne
        exact hpre (prescanSafe_of_ok h8 hne)
      rw [hfault, fault_bind]
      exact iff_of_false (not_not_intro rfl) fun h => hpre h.1

/-- A file of 32 bytes: FAT_MAGIC, a count of one, zeros. -/
def oneEntry : Buffer := .ofBytes 32 [0xbe, 0xba, 0xfe, 0xca, 1]

theorem handleFat_inBounds_oneEntry :
    handleFatWith (ending handleNotFat) oneEntry false false 0 ≠ .fault := by
  have hone : nfatArchs oneEntry false = 1 := by decide
  refine (handleFat_inBounds (by decide)).mpr (.inr ⟨fun k hk _ => ?_, fun t ht hlt => ?_⟩)
  · rw [hone] at hk
    obtain rfl : k = 0 := Nat.lt_one_iff.mp hk
    decide
  · rcases ht.cases_head with rfl | ⟨u, hu, ht⟩
    · decide
    · have hle := Comes.le ht
      rw [hu.i_eq] at hle
      omega

/-- A file of 32 bytes: FAT_MAGIC, a count of three, zeros. -/
def shortTable : Buffer := .ofBytes 32 [0xbe, 0xba, 0xfe, 0xca, 3]

/-- The scan for x86_64 runs over the end of the file: entry 2 would start at 48. -/
theorem shortTable_overrun :
    32 ≤ shortTable.size ∧ isFatFile (shortTable.le 4 0) = true ∧
      is64File (shortTable.le 4 0) = false ∧ shouldSwapFile (shortTable.le 4 0) = false ∧
      handleFatWith (ending handleNotFat) shortTable false false 0 = .fault :=
  ⟨by decide, by decide, by decide, by decide, rfl⟩

end NmOtool.Nm
