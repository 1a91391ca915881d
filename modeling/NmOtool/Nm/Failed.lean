import NmOtool.Nm.Dispatch
import NmOtool.Nm.Requires

/-!
# ft_nm: slices that fail

`handle_each_arch` on a slice in the other byte order rewrites the slice in place, and when the
parse fails then what has been rewritten stays so. The image is as it was if the slice is not
parsed, is in host order, or has a header and commands that read the same backwards, among which
there is no LC_SYMTAB (`SliceQuiet`). While all slices that fail are of this kind, `handle_fat` does
what it would do if it tried each entry on the original image.
-/

namespace NmOtool.Nm

open MachO Checked

variable {m m' : Buffer} {s x : Bool} {array ptr lc sym st i n b fuel : Nat} {fat fat' : TFat}
  {list : List TNm} {parse : Parser}

/-! ## Quiet slices -/

/-- Every command that the walk swaps reads the same backwards. -/
def WalkQuiet (m : Buffer) : Nat → Nat → Prop
  | 0, _ => True
  | n + 1, lc => isSafe m (lc + 8 : Nat) → CommandMirrored m lc ∧ WalkQuiet m n (lc + cmdsize m lc)

instance decidableWalkQuiet (m : Buffer) : ∀ n lc, Decidable (WalkQuiet m n lc)
  | 0, _ => inferInstanceAs (Decidable True)
  | n + 1, lc =>
    have := decidableWalkQuiet m n (lc + cmdsize m lc)
    inferInstanceAs (Decidable (_ → _ ∧ _))

/-- The header of the slice at `p` fails its check, or it and the commands read the same
backwards. -/
def RunQuiet (m : Buffer) (x : Bool) (p : Nat) : Prop :=
  isLcSafe m p x → HeaderMirrored m p ∧ WalkQuiet m (ncmds m p) (p + headerSize x)

instance (m : Buffer) (x : Bool) (p : Nat) : Decidable (RunQuiet m x p) :=
  inferInstanceAs (Decidable (_ → _ ∧ _))

/-- The number of LC_SYMTAB does not read the same backwards. -/
theorem cmd_ne_symtab (h : CommandMirrored m lc) : cmd m lc ≠ LC_SYMTAB := by
  intro hc
  have hswap : byteSwap 4 (m.le 4 lc) = m.le 4 lc := by
    rw [← Buffer.le_reverse_self, Buffer.reverse_of_mirrored h.1]
  rw [show m.le 4 lc = LC_SYMTAB from hc] at hswap
  exact absurd hswap (by decide)

theorem getNmListFrom_quiet (h : WalkQuiet m n lc) :
    getNmListFrom ptr s x n lc m = .ok ([], m) := by
  induction n generalizing lc with
  | zero => rfl
  | succ n ih =>
    by_cases hs : isSafe m (lc + 8 : Nat)
    · obtain ⟨hmir, hnext⟩ := h hs
      rw [getNmListFrom_succ ((isSafe_natCast m _).mp hs), commandImage_mirrored hmir,
        if_neg (cmd_ne_symtab hmir)]
      exact ih hnext
    · rw [getNmListFrom, if_neg hs]
      rfl

/-- A quiet slice has no list, and is as it was. -/
theorem handleNotFat_quiet (h : RunQuiet m x ptr) : handleNotFat m x s ptr = .ok ([], m) := by
  unfold handleNotFat
  by_cases hs : isSafe m ptr
  · rw [if_pos hs]
    by_cases hlc : isLcSafe m ptr x
    · obtain ⟨hhead, hwalk⟩ := h hlc
      rw [getLc_ok hlc, ok_bind, headerImage_mirrored hhead]
      exact getNmListFrom_quiet hwalk
    · rw [getLc_none hlc]
      rfl
  · rw [if_neg hs]
    rfl

/-! ## What the other slices rewrite -/

/-- No entry that the loop of `list_symtab` swaps starts in front of `b`. -/
def TableBehind (b sym ptr : Nat) (s x : Bool) : Nat → Nat → Buffer → Prop
  | 0, _, _ => True
  | fuel + 1, i, m =>
    i < nsyms m sym → b ≤ nlistAt m x ptr sym i ∧
      let m₁ := entryImage s x m (nlistAt m x ptr sym i)
      ∀ letter m₂, getSymbolLetter m₁ ptr (nlistAt m₁ x ptr sym i) s x = .ok (letter, m₂) →
        TableBehind b sym ptr s x fuel (i + 1) m₂

def EntriesBehind (b : Nat) (m : Buffer) (s x : Bool) (ptr : Nat) : Prop :=
  ∀ m₁ sym, symtabReached m s x ptr = some (m₁, sym) →
    TableBehind b sym ptr s x (2 ^ 32) 0 (symtabImage s m₁ sym)

theorem listSymtabFrom_behind {r : List TNm × Buffer} (hb : b ≤ ptr + headerSize x)
    (ht : TableBehind b sym ptr s x fuel i m)
    (h : listSymtabFrom sym ptr st s x fuel i list m = .ok r) : AgreeBelow b m r.2 := by
  induction fuel generalizing i list m with
  | zero => cases h
  | succ fuel ih =>
    have himage : b ≤ nlistAt m x ptr sym i →
        AgreeBelow b m (entryImage s x m (nlistAt m x ptr sym i)) := fun hle =>
      agreeOn_entryImage.mono fun q hq => by omega
    rcases listSymtabFrom_cases h with
      ⟨-, rfl⟩ | ⟨hi, -, hr | ⟨letter, hletter⟩⟩ | ⟨hi, letter, m₂, hletter, -, hnext⟩
    · exact .refl
    · exact hr ▸ .refl
    · exact (himage (ht hi).1).trans (getSymbolLetter_behind hb hletter)
    · obtain ⟨hle, hrest⟩ := ht hi
      exact ((himage hle).trans (getSymbolLetter_behind hb hletter)).trans
        (ih (hrest letter m₂ hletter) hnext)

theorem listSymtab_behind {r : List TNm × Buffer} (hb : b ≤ ptr + headerSize x) (hsym : b ≤ sym)
    (ht : TableBehind b sym ptr s x (2 ^ 32) 0 (symtabImage s m sym))
    (h : listSymtab sym ptr s x m = .ok r) : AgreeBelow b m r.2 := by
  by_cases h24 : sym + symtabSize ≤ mapSize m
  · rw [listSymtab_eq h24] at h
    have himage : AgreeBelow b m (symtabImage s m sym) :=
      agreeOn_symtabImage.mono fun q hq => by omega
    exact himage.trans (listSymtabFrom_behind hb ht h)
  · rw [listSymtab, if_neg fun h => h24 ((isSafe_natCast m _).mp h)] at h
    cases h
    exact .refl

theorem getNmListFrom_behind {r : List TNm × Buffer} (hb : b ≤ ptr + headerSize x) (hlc : b ≤ lc)
    (ht : ∀ m₁ sym, symtabReachedFrom s n lc m = some (m₁, sym) →
      TableBehind b sym ptr s x (2 ^ 32) 0 (symtabImage s m₁ sym))
    (h : getNmListFrom ptr s x n lc m = .ok r) : AgreeBelow b m r.2 := by
  induction n generalizing lc m with
  | zero =>
    cases h
    exact .refl
  | succ n ih =>
    unfold symtabReachedFrom at ht
    by_cases hs : isSafe m (lc + 8 : Nat)
    · have himage : AgreeBelow b m (commandImage s m lc) :=
        agreeOn_commandImage.mono fun q hq => by omega
      rw [getNmListFrom_succ ((isSafe_natCast m _).mp hs)] at h
      rw [if_pos hs] at ht
      simp only at ht
      by_cases hc : cmd (commandImage s m lc) lc = LC_SYMTAB
      · rw [if_pos hc] at h ht
        exact himage.trans (listSymtab_behind hb hlc (ht _ _ rfl) h)
      · rw [if_neg hc] at h ht
        exact himage.trans (ih (by omega) ht h)
    · rw [getNmListFrom, if_neg hs] at h
      cases h
      exact .refl

/-- A run on a slice with a header rewrites its number of commands, unless an entry lies there. -/
theorem headerMirrored_of_keep {r : List TNm × Buffer} (hlc : isLcSafe m ptr x)
    (ht : EntriesBehind (ptr + 20) m true x ptr) (h : handleNotFat m x true ptr = .ok r)
    (hkeep : r.2 = m) : HeaderMirrored m ptr := by
  have hs : isSafe m ptr := (isSafe_natCast m _).mpr (by
    have := (isLcSafe_iff m ptr x).mp hlc
    split at this <;> omega)
  rw [handleNotFat_eq hs hlc] at h
  have h28 := le_headerSize x
  have hframe := getNmListFrom_behind (by omega) (by omega) ht h
  have hbytes : (headerImage true m ptr).bytes (ptr + 16) 4 = m.bytes (ptr + 16) 4 :=
    Buffer.bytes_congr fun k hk => hkeep ▸ (hframe.byte (ptr + 16 + k) (by omega)).symm
  exact Buffer.bytes_reverse_self.symm.trans hbytes

/-! ## One entry of the table -/

/-- What a call that does not fault can do: nothing, or a parse of the slice. -/
theorem handleEachArchWith_cases
    (h : handleEachArchWith parse m array ptr fat = .ok (list, m', fat')) :
    (¬ SliceParsed m array ptr fat ∧ list = [] ∧ m' = m) ∨
      (SliceParsed m array ptr fat ∧
        let p := entrySlice m array ptr fat
        parse m (is64File (m.le 4 p)) (shouldSwapFile (m.le 4 p)) p = .ok (list, m')) := by
  unfold handleEachArchWith at h
  rcases ite_eq_iff.mp h with ⟨hs, h⟩ | ⟨hs, h⟩
  · obtain ⟨a, ha, h⟩ := bind_eq_ok.mp h
    obtain ⟨-, rfl⟩ := returns_isHostarch.mp ⟨a, ha, rfl⟩
    rcases ite_eq_iff.mp h with ⟨h0, h⟩ | ⟨h0, h⟩
    · cases h
      exact .inl ⟨fun hp => (hostEntry_iff.mp hp.2.1).1 h0, rfl, rfl⟩
    rcases ite_eq_iff.mp h with ⟨hno, h⟩ | ⟨hno, h⟩
    · cases h
      exact .inl ⟨fun hp => (hostEntry_iff.mp hp.2.1).2 hno, rfl, rfl⟩
    obtain ⟨o, ho, h⟩ := bind_eq_ok.mp h
    obtain ⟨-, rfl⟩ := returns_getOffsizeArch.mp ⟨o, ho, rfl⟩
    obtain ⟨magic, hmagic, h⟩ := bind_eq_ok.mp h
    obtain ⟨-, rfl⟩ := Buffer.returns_field.mp ⟨magic, hmagic, rfl⟩
    rcases ite_eq_iff.mp h with ⟨hv, h⟩ | ⟨hv, h⟩
    · cases h
      exact .inl ⟨fun hp => absurd (hp.2.2.symm.trans hv) (by decide), rfl, rfl⟩
    · obtain ⟨⟨list, m'⟩, hparse, h⟩ := bind_eq_ok.mp h
      cases h
      exact .inr ⟨⟨hs, hostEntry_iff.mpr ⟨h0, hno⟩, Bool.eq_false_iff.mpr hv⟩, hparse⟩
  · cases h
    exact .inl ⟨fun hp => hs hp.1, rfl, rfl⟩

/-! ## What a failed call leaves behind -/

/-- The slice of the entry at `array` is not parsed, is in host order, or is quiet. -/
def EntryQuiet (m : Buffer) (array ptr : Nat) (fat : TFat) : Prop :=
  SliceParsed m array ptr fat →
    let p := entrySlice m array ptr fat
    shouldSwapFile (m.le 4 p) = true → RunQuiet m (is64File (m.le 4 p)) p

instance (m : Buffer) (array ptr : Nat) (fat : TFat) : Decidable (EntryQuiet m array ptr fat) :=
  inferInstanceAs (Decidable (_ → _ → _))

/-- The slice of the entry at `array`, if it is parsed, has a number of commands that is 0 unless
it differs from its own byte swap, and no symbol in front of its load commands. -/
def EntryPlain (m : Buffer) (array ptr : Nat) (fat : TFat) : Prop :=
  SliceParsed m array ptr fat →
    let p := entrySlice m array ptr fat
    (HeaderMirrored m p → ncmds m p = 0) ∧
      EntriesBehind (p + 20) m true (is64File (m.le 4 p)) p

/-- A run in host order leaves the image as it is. -/
theorem handleNotFat_kept {r : List TNm × Buffer} (h : handleNotFat m x false ptr = .ok r) :
    r.2 = m := by
  have hkeep : handleNotFat m x false ptr = keep m (handleNotFat m x false ptr) := handleNotFat_keep
  rw [h] at hkeep
  exact congrArg Prod.snd (Checked.ok.inj hkeep)

theorem handleEachArch_quiet (hq : EntryQuiet m array ptr fat)
    (h : handleEachArch m array ptr fat = .ok ([], m', fat')) : m' = m := by
  rcases handleEachArchWith_cases h with ⟨-, -, hm⟩ | ⟨hp, hparse⟩
  · exact hm
  · simp only at hparse
    cases hs : shouldSwapFile (m.le 4 (entrySlice m array ptr fat)) with
    | false =>
      rw [hs] at hparse
      exact handleNotFat_kept hparse
    | true =>
      rw [handleNotFat_quiet (hq hp hs)] at hparse
      exact (congrArg Prod.snd (Checked.ok.inj hparse)).symm

theorem entryQuiet_of_keep (hpl : EntryPlain m array ptr fat)
    (h : handleEachArch m array ptr fat = .ok ([], m, fat')) : EntryQuiet m array ptr fat := by
  intro hp p hs hlc
  rcases handleEachArchWith_cases h with ⟨hnot, -, -⟩ | ⟨-, hparse⟩
  · exact absurd hp hnot
  · obtain ⟨hcount, hbehind⟩ := hpl hp
    change handleNotFat m (is64File (m.le 4 p)) (shouldSwapFile (m.le 4 p)) p = _ at hparse
    rw [hs] at hparse
    have hhead := headerMirrored_of_keep hlc hbehind hparse rfl
    exact ⟨hhead, by rw [hcount hhead]; trivial⟩

/-! ## The first list -/

/-- The entries from `i` on, each tried on `m` itself, until one has a list. -/
def firstTried (m : Buffer) (x s : Bool) : Nat → Nat → Checked (List TNm)
  | 0, _ => pure []
  | n + 1, i => do
    let (list, _, _) ← handleEachArch m (archAt x i) 0 (fatOf m x s)
    if list ≠ [] then pure list else firstTried m x s n (i + 1)

/-- The entry `k` fails on `m` itself. -/
def Fails (m : Buffer) (x s : Bool) (k : Nat) : Prop :=
  ∃ m' fat', handleEachArch m (archAt x k) 0 (fatOf m x s) = .ok ([], m', fat')

theorem handleFatFrom_firstTried
    (hq : ∀ k, k < nfatArchs m s → Fails m x s k → EntryQuiet m (archAt x k) 0 (fatOf m x s))
    (hn : i + n = nfatArchs m s)
    (h : handleFatFrom handleNotFat 0 (fatArchSize x) n i (fatOf m x s) m = .ok (list, m')) :
    firstTried m x s n i = .ok list ∧ (list = [] → m' = m) := by
  induction n generalizing i with
  | zero =>
    cases h
    exact ⟨rfl, fun _ => rfl⟩
  | succ n ih =>
    rw [handleFatFrom, arrayAt] at h
    obtain ⟨⟨l, m₁, fat₁⟩, hcall, h⟩ := bind_eq_ok.mp h
    have hsafe : EntrySafe m x s i := by
      by_contra hsafe
      rw [handleEachArchWith_fault (by omega) hsafe] at hcall
      cases hcall
    have hfat : fat₁ = fatOf m x s := by
      have heq : handleEachArchWith handleNotFat m (archAt x i) 0 (fatOf m x s) = _ :=
        handleEachArchWith_eq (.refl : SameTable m x s m) (by omega) hsafe
      rw [hcall] at heq
      split at heq
      · obtain ⟨r, -, heq⟩ := bind_eq_ok.mp heq.symm
        cases heq
        rfl
      · cases heq
        rfl
    rw [firstTried, handleEachArch, hcall, ok_bind]
    simp only at h ⊢
    by_cases hl : l = []
    · subst hl
      have hm : m₁ = m := handleEachArch_quiet (hq i (by omega) ⟨m₁, fat₁, hcall⟩) hcall
      rw [if_neg (by simp)] at h ⊢
      rw [hm, hfat] at h
      exact ih (by omega) h
    · rw [if_pos hl] at h ⊢
      cases h
      exact ⟨rfl, fun h => absurd h hl⟩

theorem firstTried_none (hg : mapSize m < fatHeaderSize) : firstTried m x s n i = .ok [] := by
  induction n generalizing i with
  | zero => rfl
  | succ n ih =>
    have hnot : ¬ isSafe m (archAt x i) := by
      rw [isSafe_natCast]
      unfold archAt
      omega
    rw [firstTried, handleEachArch, handleEachArchWith, if_neg hnot]
    exact ih

theorem handleFat_firstTried
    (hq : ∀ k, k < nfatArchs m s → Fails m x s k → EntryQuiet m (archAt x k) 0 (fatOf m x s))
    (h : handleFat m x s 0 = .ok (list, m')) :
    firstTried m x s (nfatArchs m s) 0 = .ok list ∧ (list = [] → m' = m) := by
  rw [handleFat, handleFatWith] at h
  rcases ite_eq_iff.mp h with ⟨-, h⟩ | ⟨hs, h⟩
  · obtain ⟨nb, hnb, h⟩ := bind_eq_ok.mp h
    obtain ⟨fat, hfat, h⟩ := bind_eq_ok.mp h
    have h8 : 8 ≤ m.size := by
      obtain ⟨v, hv, -⟩ := bind_eq_ok.mp hnb
      exact (Buffer.returns_field.mp ⟨v, hv, rfl⟩).1
    rw [nfatArch_ok h8] at hnb
    obtain rfl := Checked.ok.inj hnb
    have hpre : PrescanSafe m x s := prescanSafe_of_ok h8 (by rw [hfat]; simp)
    rw [initTFat_ok h8 hpre] at hfat
    obtain rfl := Checked.ok.inj hfat
    exact handleFatFrom_firstTried hq (Nat.zero_add _) h
  · cases h
    refine ⟨firstTried_none ?_, fun _ => rfl⟩
    rw [isSafe_natCast] at hs
    omega

/-- A call that fails leaves the image as it was if its slice is quiet, and only then if the slice
is plain. If all slices that fail on the original image are quiet, `handle_fat` has the list of the
first entry that has one there. -/
theorem handleEachArch_failed (m : Buffer) :
    (∀ array ptr fat m' fat', handleEachArch m array ptr fat = .ok ([], m', fat') →
      (EntryQuiet m array ptr fat → m' = m) ∧
        (EntryPlain m array ptr fat → m' = m → EntryQuiet m array ptr fat)) ∧
    ∀ x s list m', handleFat m x s 0 = .ok (list, m') →
      (∀ k, k < nfatArchs m s → Fails m x s k → EntryQuiet m (archAt x k) 0 (fatOf m x s)) →
        firstTried m x s (nfatArchs m s) 0 = .ok list ∧ (list = [] → m' = m) := by
  refine ⟨fun array ptr fat m' fat' h => ⟨fun hq => ?_, fun hpl hm => ?_⟩, ?_⟩
  · exact handleEachArch_quiet hq h
  · exact entryQuiet_of_keep hpl (hm ▸ h)
  · exact fun x s list m' h hq => handleFat_firstTried hq h

/-- A fat file of 60 bytes: one x86_64 entry, and at 28 the header of a big-endian 64-bit slice
with `count` load commands, none of which is there. -/
def truncatedSlice (count : UInt8) : Buffer := .ofBytes 60 <|
  [0xbe, 0xba, 0xfe, 0xca, 1, 0, 0, 0, 7, 0, 0, 1, 0, 0, 0, 0, 28] ++ List.replicate 11 0 ++
    [0xfe, 0xed, 0xfa, 0xcf] ++ List.replicate 12 0 ++ [0, 0, 0, count]

theorem handleEachArch_failed_truncatedSlice : ∃ list m',
    handleFat (truncatedSlice 0) false false 0 = .ok (list, m') ∧
      firstTried (truncatedSlice 0) false false (nfatArchs (truncatedSlice 0) false) 0 = .ok list ∧
      (list = [] → m' = truncatedSlice 0) := by
  have hq : ∀ k, k < nfatArchs (truncatedSlice 0) false →
      EntryQuiet (truncatedSlice 0) (archAt false k) 0 (fatOf (truncatedSlice 0) false false) := by
    decide +kernel
  have hrun : answer (handleFat (truncatedSlice 0) false false 0) = some [] := by decide +kernel
  obtain ⟨m', h⟩ := answer_eq_some.mp hrun
  exact ⟨[], m', h, (handleEachArch_failed _).2 _ _ _ _ h fun k hk _ => hq k hk⟩

/-- The number of load commands stays swapped. -/
theorem truncatedSlice_rewritten : ¬ ∀ m x s k m' fat', k < nfatArchs m s →
    handleEachArch m (archAt x k) 0 (fatOf m x s) = .ok ([], m', fat') → m' = m := by
  intro h
  have hrun : (do
      let (list, m, _) ← handleEachArch (truncatedSlice 1) (archAt false 0) 0
        (fatOf (truncatedSlice 1) false false)
      let b ← m.load 44
      pure (list, b)) = Checked.ok ([], 1) := by decide +kernel
  obtain ⟨⟨list, m', fat'⟩, hcall, hrun⟩ := bind_eq_ok.mp hrun
  obtain ⟨b, hb, hrun⟩ := bind_eq_ok.mp hrun
  cases hrun
  obtain rfl : m' = truncatedSlice 1 := h _ _ _ _ _ _ (by decide +kernel) hcall
  exact absurd hb (by decide +kernel)

end NmOtool.Nm
