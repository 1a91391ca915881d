import NmOtool.Nm.Dispatch

/-!
# ft_nm: which slice of a fat file is listed

A fat file is described by the list of its entries' CPU types and offsets; `FatTable` says that
the table of an image encodes it, in one of the four forms. `firstListed` states the intent of
`handle_fat`: the slices of the candidates, tried in table order, until one has a symbol. The
dispatcher does exactly this as long as `g_map_size` reaches the entry that decides.
-/

namespace NmOtool.Nm

open MachO Checked

/-- An entry of a fat table: CPU type and offset. -/
abbrev Entry := Nat × Nat

variable {m m' : Buffer} {x s x' s' : Bool} {i k n : Nat} {entries : List Entry}

/-! ## Tables -/

/-- The byte order of a table, on a little-endian host. -/
def tableOrder (s : Bool) : ByteOrder := if s then .big else .little

def fatMagic (x s : Bool) : Nat :=
  match x, s with
  | false, false => FAT_MAGIC
  | false, true => FAT_CIGAM
  | true, false => FAT_MAGIC_64
  | true, true => FAT_CIGAM_64

/-- The image begins with a table of `entries`, of the width `x` and the byte order `s`; the table
and the slice headers lie in the file, and every slice is in host order. -/
structure FatTable (m : Buffer) (x s : Bool) (entries : List Entry) : Prop where
  magic : m.le 4 0 = fatMagic x s
  count : entries.length < 2 ^ 32 ∧ m.Holds 4 ((tableOrder s).encode 4 entries.length)
  inside : archAt x entries.length ≤ m.size
  cputype : ∀ k (h : k < entries.length), entries[k].1 < 2 ^ 32 ∧
    m.Holds (archAt x k) ((tableOrder s).encode 4 entries[k].1)
  offset : ∀ k (h : k < entries.length), entries[k].2 < 256 ^ wordSize x ∧
    m.Holds (archAt x k + 8) ((tableOrder s).encode (wordSize x) entries[k].2)
  slice : ∀ e ∈ entries, e.2 + headerSize false ≤ m.size
  host : ∀ e ∈ entries, m.le 4 e.2 ≠ MH_CIGAM ∧ m.le 4 e.2 ≠ MH_CIGAM_64

theorem fatWord_of_holds {p w v : Nat} (h : m.Holds p ((tableOrder s).encode w v))
    (hv : v < 256 ^ w) : fatWord s w (m.le w p) = v := by
  cases s with
  | false => exact h.le hv
  | true =>
    change byteSwap w (m.le w p) = v
    rw [h.le hv]
    exact byteSwap_byteSwap hv

theorem FatTable.nfat (h : FatTable m x s entries) : nfatArchs m s = entries.length :=
  fatWord_of_holds h.count.2 (by have := h.count.1; omega)

theorem FatTable.archType (h : FatTable m x s entries) (hk : k < entries.length) :
    MachO.archType m x s k = entries[k].1 :=
  fatWord_of_holds (h.cputype k hk).2 (by have := (h.cputype k hk).1; omega)

theorem FatTable.archOffset (h : FatTable m x s entries) (hk : k < entries.length) :
    MachO.archOffset m x s k = entries[k].2 :=
  fatWord_of_holds (h.offset k hk).2 (h.offset k hk).1

/-! ## Candidates -/

/-- The entry is for the host: x86_64, or i386 when no entry of the table is x86_64. -/
def HostArch (entries : List Entry) (e : Entry) : Prop :=
  e.1 = CPU_TYPE_X86_64 ∨ e.1 = CPU_TYPE_I386 ∧ ∀ e' ∈ entries, e'.1 ≠ CPU_TYPE_X86_64

instance (entries : List Entry) (e : Entry) : Decidable (HostArch entries e) :=
  inferInstanceAs (Decidable (_ ∨ _))

/-- The entry is for the host, and its slice begins with a thin magic number. -/
def Candidate (m : Buffer) (entries : List Entry) (e : Entry) : Prop :=
  HostArch entries e ∧ notValidHeader (m.le 4 e.2) = false

instance (m : Buffer) (entries : List Entry) (e : Entry) : Decidable (Candidate m entries e) :=
  inferInstanceAs (Decidable (_ ∧ _))

/-- `handle_not_fat` on a slice in host order. -/
def listSlice (m : Buffer) (offset : Nat) : Checked (List TNm × Buffer) :=
  handleNotFat m (is64File (m.le 4 offset)) false offset

/-- The list of the first candidate among `rest` whose slice has one, and `NULL` without any. -/
def firstListed (m : Buffer) (entries : List Entry) : List Entry → Checked (List TNm × Buffer)
  | [] => .ok ([], m)
  | e :: rest =>
    if Candidate m entries e then do
      let (list, _) ← listSlice m e.2
      if list ≠ [] then pure (list, m) else firstListed m entries rest
    else firstListed m entries rest

/-- Entry `k` decides: it is the first candidate whose slice does not come back empty. -/
def Decides (m : Buffer) (entries : List Entry) (k : Nat) : Prop :=
  ∃ h : k < entries.length, Candidate m entries entries[k] ∧
    listSlice m entries[k].2 ≠ .ok ([], m) ∧
    ∀ j (hj : j < k), Candidate m entries entries[j] → listSlice m entries[j].2 = .ok ([], m)

theorem listSlice_keep (m : Buffer) (offset : Nat) :
    listSlice m offset = keep m (listSlice m offset) :=
  handleNotFat_keep

/-! ## The dispatcher on a table -/

theorem FatTable.hasX86 (h : FatTable m x s entries) :
    HasX86 m x s ↔ ∃ e ∈ entries, e.1 = CPU_TYPE_X86_64 := by
  unfold HasX86
  rw [h.nfat]
  constructor
  · rintro ⟨k, hk, ht⟩
    rw [h.archType hk] at ht
    exact ⟨_, List.getElem_mem hk, ht⟩
  · rintro ⟨e, he, ht⟩
    obtain ⟨k, hk, rfl⟩ := List.getElem_of_mem he
    exact ⟨k, hk, (h.archType hk).trans ht⟩

theorem FatTable.eligible (h : FatTable m x s entries) (hk : k < entries.length) :
    Eligible m x s k ↔ HostArch entries entries[k] := by
  unfold Eligible HostArch
  rw [h.archType hk, h.hasX86]
  push Not
  rfl

theorem FatTable.entrySafe (h : FatTable m x s entries) (hk : k < entries.length) :
    EntrySafe m x s k := by
  intro _
  have h1 := archAt_succ_le (x := x) hk
  have h2 := wordSize_le_fatArch x
  have h3 := h.inside
  have h4 := h.slice _ (List.getElem_mem hk)
  refine ⟨by omega, fun _ => ⟨by omega, ?_⟩⟩
  rw [h.archOffset hk]
  have : headerSize false = 28 := rfl
  omega

theorem FatTable.prescanSafe (h : FatTable m x s entries) : PrescanSafe m x s := by
  intro k hk _
  rw [h.nfat] at hk
  have h1 := archAt_succ_le (x := x) hk
  have h2 := wordSize_le_fatArch x
  have h3 := h.inside
  omega

theorem shouldSwapFile_host {magic : Nat} (h : notValidHeader magic = false)
    (h1 : magic ≠ MH_CIGAM) (h2 : magic ≠ MH_CIGAM_64) : shouldSwapFile magic = false := by
  simp only [notValidHeader, Bool.and_eq_false_iff, bne_eq_false_iff_eq, h1, h2, false_or,
    or_false] at h
  rcases h with rfl | rfl <;> decide

/-- One round of the loop of `handle_fat`. -/
theorem FatTable.step (h : FatTable m x s entries) (hk : k < entries.length) :
    handleEachArchWith handleNotFat m (archAt x k) 0 (fatOf m x s) =
      if archAt x k ≤ mapSize m ∧ Candidate m entries entries[k] then
        listSlice m entries[k].2 >>= fun r => .ok (r.1, r.2, fatOf m x s)
      else .ok ([], m, fatOf m x s) := by
  rw [handleEachArchWith_eq .refl (by rwa [h.nfat]) (h.entrySafe hk)]
  have hiff : Parsed m x s m k ↔ archAt x k ≤ mapSize m ∧ Candidate m entries entries[k] := by
    unfold Parsed Candidate
    rw [h.eligible hk, h.archOffset hk]
  by_cases hp : Parsed m x s m k
  · obtain ⟨hs, hc⟩ := hiff.mp hp
    have hh := h.host _ (List.getElem_mem hk)
    rw [if_pos hp, if_pos ⟨hs, hc⟩, parseEntry, h.archOffset hk,
      shouldSwapFile_host hc.2 hh.1 hh.2]
    rfl
  · rw [if_neg hp, if_neg fun e => hp (hiff.mpr e)]

/-- The loop of `handle_fat` from entry `i`. -/
abbrev fatLoop (m : Buffer) (x s : Bool) (n i : Nat) : Checked (List TNm × Buffer) :=
  handleFatFrom handleNotFat 0 (fatArchSize x) n i (fatOf m x s) m

theorem FatTable.loop_succ (h : FatTable m x s entries) (hi : i < entries.length) :
    fatLoop m x s (n + 1) i =
      if archAt x i ≤ mapSize m ∧ Candidate m entries entries[i] then do
        let (list, _) ← listSlice m entries[i].2
        if list ≠ [] then pure (list, m) else fatLoop m x s n (i + 1)
      else fatLoop m x s n (i + 1) := by
  rw [fatLoop, handleFatFrom, arrayAt, h.step hi]
  by_cases hc : archAt x i ≤ mapSize m ∧ Candidate m entries entries[i]
  · rw [if_pos hc, if_pos hc]
    rcases keep_cases (listSlice_keep m entries[i].2) with hl | ⟨list, hl⟩
    · rw [hl]; rfl
    · rw [hl, ok_bind, ok_bind, ok_bind]
  · rw [if_neg hc, if_neg hc, ok_bind]
    simp

/-- Behind `g_map_size` every entry is skipped. -/
theorem FatTable.loop_behind (h : FatTable m x s entries) :
    ∀ n i, i + n = entries.length → mapSize m < archAt x i → fatLoop m x s n i = .ok ([], m) := by
  intro n
  induction n with
  | zero => intro i _ _; rfl
  | succ n ih =>
    intro i hn hi
    rw [h.loop_succ (by omega), if_neg fun e => absurd e.1 (by omega)]
    apply ih (i + 1) (by omega)
    have : archAt x i + fatArchSize x ≤ archAt x (i + 1) := archAt_succ_le (Nat.lt_succ_self i)
    omega

theorem FatTable.handleFat_eq (h : FatTable m x s entries) :
    handleFat m x s 0 =
      if fatHeaderSize ≤ mapSize m then fatLoop m x s entries.length 0 else .ok ([], m) := by
  have h8 : 8 ≤ m.size := by
    have := h.inside
    unfold archAt fatHeaderSize at this
    omega
  unfold handleFat handleFatWith
  by_cases hs : fatHeaderSize ≤ mapSize m
  · rw [if_pos ((isSafe_natCast m _).mpr (by omega)), if_pos hs, nfatArch_ok h8, ok_bind,
      initTFat_ok h8 h.prescanSafe, ok_bind, h.nfat]
  · rw [if_neg fun e => hs (by rw [isSafe_natCast] at e; omega), if_neg hs]
    rfl

/-! ## The dispatcher and its intent -/

/-- The slice of a candidate has a list, or leads the parser out of the map. -/
theorem firstListed_decided {e : Entry} {rest : List Entry} (hc : Candidate m entries e)
    (hl : listSlice m e.2 ≠ .ok ([], m)) :
    firstListed m entries (e :: rest) = listSlice m e.2 := by
  rw [firstListed, if_pos hc]
  rcases keep_cases (listSlice_keep m e.2) with h | ⟨list, h⟩
  · rw [h]; rfl
  · rw [h, ok_bind]
    have : list ≠ [] := fun e => hl (by rw [h, e])
    simp [this]

theorem firstListed_skip {e : Entry} {rest : List Entry}
    (hl : Candidate m entries e → listSlice m e.2 = .ok ([], m)) :
    firstListed m entries (e :: rest) = firstListed m entries rest := by
  rw [firstListed]
  by_cases hc : Candidate m entries e
  · rw [if_pos hc, hl hc, ok_bind]
    simp
  · rw [if_neg hc]

theorem FatTable.loop_skip (h : FatTable m x s entries) (hi : i < entries.length)
    (hl : Candidate m entries entries[i] → listSlice m entries[i].2 = .ok ([], m)) :
    fatLoop m x s (n + 1) i = fatLoop m x s n (i + 1) := by
  rw [h.loop_succ hi]
  by_cases hc : archAt x i ≤ mapSize m ∧ Candidate m entries entries[i]
  · rw [if_pos hc, hl hc.2, ok_bind]
    simp
  · rw [if_neg hc]

theorem FatTable.loop_decided (h : FatTable m x s entries) (hi : i < entries.length)
    (hg : archAt x i ≤ mapSize m) (hc : Candidate m entries entries[i])
    (hl : listSlice m entries[i].2 ≠ .ok ([], m)) :
    fatLoop m x s (n + 1) i = listSlice m entries[i].2 := by
  rw [h.loop_succ hi, if_pos ⟨hg, hc⟩]
  rcases keep_cases (listSlice_keep m entries[i].2) with hk | ⟨list, hk⟩
  · rw [hk]; rfl
  · rw [hk, ok_bind]
    have : list ≠ [] := fun e => hl (by rw [hk, e])
    simp [this]

/-- The loop and its intent part company exactly when the deciding entry starts behind
`g_map_size`. -/
theorem FatTable.loop_iff (h : FatTable m x s entries) :
    ∀ n i, i + n = entries.length →
      (∀ j (hj : j < entries.length), j < i → Candidate m entries entries[j] →
        listSlice m entries[j].2 = .ok ([], m)) →
      (fatLoop m x s n i = firstListed m entries (entries.drop i) ↔
        ∀ k, Decides m entries k → archAt x k ≤ mapSize m) := by
  intro n
  induction n with
  | zero =>
    intro i hn hpre
    rw [List.drop_eq_nil_of_le (by omega)]
    refine ⟨fun _ k ⟨hk, hc, hl, _⟩ => absurd (hpre k hk (by omega) hc) hl, fun _ => rfl⟩
  | succ n ih =>
    intro i hn hpre
    have hi : i < entries.length := by omega
    rw [List.drop_eq_getElem_cons hi]
    by_cases hd : Candidate m entries entries[i] → listSlice m entries[i].2 = .ok ([], m)
    · rw [h.loop_skip hi hd, firstListed_skip hd]
      apply ih (i + 1) (by omega)
      intro j hj hji
      rcases Nat.lt_or_eq_of_le (Nat.lt_succ_iff.mp hji) with hlt | rfl
      · exact hpre j hj hlt
      · exact hd
    · obtain ⟨hc, hl⟩ := Classical.not_imp.mp hd
      rw [firstListed_decided hc hl]
      have hdec : Decides m entries i :=
        ⟨hi, hc, hl, fun j hj => hpre j (by omega) hj⟩
      by_cases hg : archAt x i ≤ mapSize m
      · rw [h.loop_decided hi hg hc hl]
        refine ⟨fun _ k ⟨hk, hkc, hkl, hkj⟩ => ?_, fun _ => rfl⟩
        rcases Nat.lt_trichotomy k i with hlt | rfl | hgt
        · exact absurd (hpre k hk hlt hkc) hkl
        · exact hg
        · exact absurd (hkj i hgt hc) hl
      · have hskip : fatLoop m x s (n + 1) i = .ok ([], m) :=
          h.loop_behind (n + 1) i (by omega) (by omega)
        rw [hskip]
        exact ⟨fun e => absurd e.symm hl, fun e => absurd (e i hdec) hg⟩

/-- `handle_fat` does what it intends if and only if the deciding entry, if there is one, starts
within `g_map_size`. -/
theorem FatTable.handleFat_iff (h : FatTable m x s entries) :
    handleFat m x s 0 = firstListed m entries entries ↔
      ∀ k, Decides m entries k → archAt x k ≤ mapSize m := by
  have hloop := h.loop_iff entries.length 0 (by omega) fun j _ hj => absurd hj (by omega)
  rw [List.drop_zero] at hloop
  rw [h.handleFat_eq, ← hloop]
  by_cases hs : fatHeaderSize ≤ mapSize m
  · rw [if_pos hs]
  · rw [if_neg hs, h.loop_behind _ 0 (by omega) (by unfold archAt; omega)]

/-- A listed slice belongs to a candidate. -/
theorem FatTable.loop_listed (h : FatTable m x s entries) {list : List TNm} {m₁ : Buffer}
    (hne : list ≠ []) :
    ∀ n i, i + n = entries.length → fatLoop m x s n i = .ok (list, m₁) →
      ∃ e ∈ entries, Candidate m entries e ∧ listSlice m e.2 = .ok (list, m₁) := by
  intro n
  induction n with
  | zero =>
    intro i _ hr
    cases hr
    exact absurd rfl hne
  | succ n ih =>
    intro i hn hr
    have hi : i < entries.length := by omega
    by_cases hd : Candidate m entries entries[i] → listSlice m entries[i].2 = .ok ([], m)
    · rw [h.loop_skip hi hd] at hr
      exact ih (i + 1) (by omega) hr
    · obtain ⟨hc, hl⟩ := Classical.not_imp.mp hd
      by_cases hg : archAt x i ≤ mapSize m
      · rw [h.loop_decided hi hg hc hl] at hr
        exact ⟨_, List.getElem_mem hi, hc, hr⟩
      · rw [h.loop_behind (n + 1) i (by omega) (by omega)] at hr
        cases hr
        exact absurd rfl hne

theorem FatTable.handleFat_listed (h : FatTable m x s entries) {list : List TNm} {m₁ : Buffer}
    (hne : list ≠ []) (hr : handleFat m x s 0 = .ok (list, m₁)) :
    ∃ e ∈ entries, Candidate m entries e ∧ listSlice m e.2 = .ok (list, m₁) := by
  rw [h.handleFat_eq] at hr
  split at hr
  · exact h.loop_listed hne _ 0 (by omega) hr
  · cases hr
    exact absurd rfl hne

/-! ## One table in four forms -/

/-- `m'` has the slices of `m`: the same bytes from the first slice on. -/
abbrev SameSlices (entries : List Entry) (m m' : Buffer) : Prop :=
  Buffer.AgreeOn (fun q => ∃ e ∈ entries, e.2 ≤ q) m m'

theorem SameSlices.magic (h : SameSlices entries m m') {e : Entry} (he : e ∈ entries) :
    m'.le 4 e.2 = m.le 4 e.2 :=
  Buffer.AgreeOn.le h fun _ _ => ⟨e, he, Nat.le_add_right _ _⟩

theorem SameSlices.listSlice (h : SameSlices entries m m') {e : Entry} (he : e ∈ entries) :
    Nm.listSlice m' e.2 = keep m' (Nm.listSlice m e.2) := by
  rw [Nm.listSlice, Nm.listSlice, h.magic he]
  exact handleNotFat_local (h.mono fun q hq => ⟨e, he, hq⟩)

theorem SameSlices.firstListed (h : SameSlices entries m m') :
    ∀ rest : List Entry, (∀ e ∈ rest, e ∈ entries) →
      Nm.firstListed m' entries rest = keep m' (Nm.firstListed m entries rest) := by
  intro rest
  induction rest with
  | nil => intro _; rfl
  | cons e rest ih =>
    intro hsub
    have he := hsub e List.mem_cons_self
    have hrest := ih fun e he => hsub e (List.mem_cons_of_mem _ he)
    have hc : Candidate m' entries e ↔ Candidate m entries e := by
      unfold Candidate
      rw [h.magic he]
    rw [Nm.firstListed, Nm.firstListed]
    by_cases hcand : Candidate m entries e
    · rw [if_pos hcand, if_pos (hc.mpr hcand), h.listSlice he]
      rcases keep_cases (listSlice_keep m e.2) with hl | ⟨list, hl⟩
      · rw [hl]; rfl
      · rw [hl, keep_ok, ok_bind, ok_bind]
        by_cases hne : list = []
        · simpa [hne] using hrest
        · simp [hne]
    · rw [if_neg hcand, if_neg fun e => hcand (hc.mp e)]
      exact hrest

/-- Slice selection. `handle_fat` returns what it intends exactly when the deciding entry starts
within `g_map_size`, in particular in every file below 4 GiB. When the table has an x86_64 entry,
only the slice of such an entry is listed. And two encodings of one table with the same slices
give the same list whenever both return what they intend. -/
theorem handleFat_selects (h : FatTable m x s entries) :
    (handleFat m x s 0 = firstListed m entries entries ↔
      ∀ k, Decides m entries k → archAt x k ≤ mapSize m) ∧
    (m.size < 2 ^ 32 → handleFat m x s 0 = firstListed m entries entries) ∧
    (∀ list m₁, list ≠ [] → handleFat m x s 0 = .ok (list, m₁) →
      (∃ e ∈ entries, e.1 = CPU_TYPE_X86_64) →
      ∃ e ∈ entries, e.1 = CPU_TYPE_X86_64 ∧ listSlice m e.2 = .ok (list, m₁)) ∧
    (∀ m' x' s', FatTable m' x' s' entries → SameSlices entries m m' →
      handleFat m x s 0 = firstListed m entries entries →
      handleFat m' x' s' 0 = firstListed m' entries entries →
      handleFat m' x' s' 0 = keep m' (handleFat m x s 0)) := by
  refine ⟨h.handleFat_iff, fun hsz => ?_, fun list m₁ hne hr ⟨e', he', hx⟩ => ?_,
    fun m' x' s' _ hs h1 h2 => ?_⟩
  · apply h.handleFat_iff.mpr
    rintro k ⟨hk, _⟩
    have h1 := archAt_succ_le (x := x) hk
    have h2 := h.inside
    rw [mapSize_eq hsz]
    omega
  · obtain ⟨e, he, ⟨harch, _⟩, hl⟩ := h.handleFat_listed hne hr
    rcases harch with hx86 | ⟨_, hno⟩
    · exact ⟨e, he, hx86, hl⟩
    · exact absurd hx (hno e' he')
  · rw [h1, h2]
    exact hs.firstListed entries fun _ he => he

/-- A file of 4 GiB and 100 bytes with a table of six entries. The slice of the last, at 12, lies
among the entries before it: a header, an LC_SYMTAB at 40, an entry at 64, a name at 76. -/
def longFile : Buffer := .ofBytes (2 ^ 32 + 100) (
  [0xbe, 0xba, 0xfe, 0xca, 6, 0, 0, 0, 0, 0, 0, 0] ++
  [0xce, 0xfa, 0xed, 0xfe] ++ List.replicate 12 0 ++ [1, 0, 0, 0] ++ List.replicate 8 0 ++
  [2, 0, 0, 0, 24, 0, 0, 0, 52, 0, 0, 0, 1, 0, 0, 0, 64, 0, 0, 0, 2, 0, 0, 0] ++
  [0, 0, 0, 0, 1, 0, 0, 0, 0, 0, 0, 0, 0x61, 0, 0, 0] ++ List.replicate 28 0 ++
  [7, 0, 0, 1, 0, 0, 0, 0, 12, 0, 0, 0])

def longFileEntries : List Entry := [(0, 0), (1, 0), (52, 64), (1, 0x61), (0, 0), (0x01000007, 12)]

theorem longFile_table : FatTable longFile false false longFileEntries where
  magic := by decide +kernel
  count := by decide +kernel
  inside := by decide +kernel
  cputype := by decide +kernel
  offset := by decide +kernel
  slice := by decide +kernel
  host := by decide +kernel

/-- The entry behind `g_map_size` is skipped, though its slice has a symbol. -/
theorem longFile_skipped :
    ¬ ∀ m x s entries, FatTable m x s entries →
      handleFat m x s 0 = firstListed m entries entries := by
  intro h
  have hlen := congrArg (fun r => match r with
    | .ok (list, _) => list.length
    | .fault => 0) (h _ _ _ _ longFile_table)
  exact absurd hlen (by decide +kernel)

theorem handleFat_selects_longFile :
    (handleFat longFile false false 0 = firstListed longFile longFileEntries longFileEntries ↔
      ∀ k, Decides longFile longFileEntries k → archAt false k ≤ mapSize longFile) :=
  (handleFat_selects longFile_table).1

end NmOtool.Nm
