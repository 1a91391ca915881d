import NmOtool.Common.Swapped
import NmOtool.Nm.Mixed
import NmOtool.Nm.Requires
import NmOtool.Nm.Listing

/-!
# ft_nm: byte-swapped thin images

A run with `should_swap = 1` on the big-endian encoding of a description. The header, the commands
up to the LC_SYMTAB and its four words come out right (`AtTable`), the entries `Mixed`. A symbol in
a section is looked up by the high byte of its `n_desc`.
-/

namespace NmOtool.Nm

open MachO Checked

variable {m m₀ m₁ : Buffer} {x : Bool} {e i k n sym : Nat} {s : Symbol} {d : ObjectFile}

/-! ## The walk to the symbol table -/

/-- The walk over the commands `cs` from `p`: each comes out right, and nothing else changes. -/
theorem getNmListFrom_swapped {cs : List Command} {p : Nat}
    (hcs : ∀ c ∈ cs, c.Wf x ∧ c.cmd x ≠ LC_SYMTAB) (hm : m.Holds p (encodeArea .big x cs)) :
    ∃ m₁, m.AgreeOn (fun q => q < p ∨ p + areaSize x cs ≤ q) m₁ ∧
      (∀ pc ∈ place x p cs, cmd m₁ pc.1 = pc.2.cmd x ∧ cmdsize m₁ pc.1 = pc.2.size x) ∧
      (p + areaSize x cs + 8 ≤ mapSize m →
        getNmListFrom 0 true x (cs.length + (n + 1)) p m =
          getNmListFrom 0 true x (n + 1) (p + areaSize x cs) m₁) ∧
      (¬ p + areaSize x cs + 8 ≤ mapSize m →
        ∃ m₂, getNmListFrom 0 true x (cs.length + (n + 1)) p m = .ok ([], m₂)) := by
  induction cs generalizing p m with
  | nil =>
    refine ⟨m, .refl, by simp [place], fun _ => by simp [areaSize], fun h => ⟨m, ?_⟩⟩
    rw [List.length_nil, Nat.zero_add, getNmListFrom, if_neg fun hs => h ?_]
    · rfl
    · simpa [areaSize] using (isSafe_natCast m _).mp hs
  | cons c cs ih =>
    obtain ⟨hc, hne⟩ := hcs c List.mem_cons_self
    rw [encodeArea, List.flatMap_cons, Buffer.holds_append, Command.length_encode hc] at hm
    obtain ⟨hhead, htail⟩ := hm
    have h8 := Command.size_ge x c
    have hin := hhead.1
    rw [Command.length_encode hc] at hin
    obtain ⟨hcmd, hsize⟩ := read_commandImage hc hhead
    have hagree : m.AgreeOn (fun q => q < p ∨ p + 8 ≤ q) (commandImage true m p) :=
      agreeOn_commandImage
    obtain ⟨m₁, h1, h2, h3, h4⟩ := ih (fun c hc => hcs c (List.mem_cons_of_mem _ hc))
      (hagree.holds (fun k _ => .inr (by omega)) htail)
    have harea : p + areaSize x (c :: cs) = p + c.size x + areaSize x cs := by
      simp [areaSize, Nat.add_assoc]
    rw [mapSize_commandImage] at h3 h4
    have hstep : p + 8 ≤ mapSize m → getNmListFrom 0 true x ((c :: cs).length + (n + 1)) p m =
        getNmListFrom 0 true x (cs.length + (n + 1)) (p + c.size x) (commandImage true m p) := by
      intro hp
      rw [List.length_cons, Nat.succ_add, getNmListFrom_succ hp, hcmd, if_neg hne, hsize]
    refine ⟨m₁, (hagree.mono fun q hq => by omega).trans (h1.mono fun q hq => by omega), ?_, ?_, ?_⟩
    · intro pc hpc
      rcases List.mem_cons.mp hpc with rfl | hpc
      · have e1 : cmd m₁ p = cmd (commandImage true m p) p :=
          h1.le fun k hk => .inl (by omega)
        have e2 : cmdsize m₁ p = cmdsize (commandImage true m p) p :=
          h1.le fun k hk => .inl (by omega)
        exact ⟨e1.trans hcmd, e2.trans hsize⟩
      · exact h2 pc hpc
    all_goals intro hend
    · rw [harea] at hend ⊢
      rw [hstep (by omega)]
      exact h3 hend
    · rw [harea] at hend
      by_cases hp : p + 8 ≤ mapSize m
      · rw [hstep hp]
        exact h4 hend
      · refine ⟨m, ?_⟩
        rw [List.length_cons, Nat.succ_add, getNmListFrom,
          if_neg fun hs => hp ((isSafe_natCast m _).mp hs)]
        rfl

/-- The image `m₀` that the loop over the symbol table starts from: what the walk read came out
right, and nothing behind the load commands has changed. -/
structure AtTable (d : ObjectFile) (x : Bool) (m m₀ : Buffer) : Prop where
  ncmds : ncmds m₀ 0 = d.toDescription.commands.length
  command : ∀ pc ∈ place x (headerSize x) d.before,
    cmd m₀ pc.1 = pc.2.cmd x ∧ cmdsize m₀ pc.1 = pc.2.size x
  symoff : symoff m₀ (d.symtabAt x) = d.symoff
  nsyms : nsyms m₀ (d.symtabAt x) = d.symbols.length
  stroff : stroff m₀ (d.symtabAt x) = d.stroff
  rest : m.AgreeOn (fun q => d.areaEnd x ≤ q) m₀

theorem read_symtabImage {p : Nat} :
    symoff (symtabImage true m p) p = byteSwap 4 (symoff m p) ∧
      nsyms (symtabImage true m p) p = byteSwap 4 (nsyms m p) ∧
      stroff (symtabImage true m p) p = byteSwap 4 (stroff m p) := by
  unfold symtabImage symoff nsyms stroff
  rw [if_pos rfl]
  refine ⟨?_, ?_, ?_⟩
  · rw [Buffer.le_reverse_out (by omega), Buffer.le_reverse_out (by omega),
      Buffer.le_reverse_out (by omega), Buffer.le_reverse_self]
  · rw [Buffer.le_reverse_out (by omega), Buffer.le_reverse_out (by omega),
      Buffer.le_reverse_self, Buffer.le_reverse_out (by omega)]
  · rw [Buffer.le_reverse_out (by omega), Buffer.le_reverse_self, Buffer.le_reverse_out (by omega),
      Buffer.le_reverse_out (by omega)]

/-- The image behind the swaps of the LC_SYMTAB, which a walk has reached in the image `m`. -/
def tableImage (x : Bool) (d : ObjectFile) (m : Buffer) : Buffer :=
  symtabImage true (commandImage true m (d.symtabAt x)) (d.symtabAt x)

theorem agreeOn_tableImage :
    m.AgreeOn (fun q => q < d.symtabAt x ∨ d.symtabAt x + symtabSize ≤ q) (tableImage x d m) :=
  (agreeOn_commandImage.mono fun q hq => by unfold symtabSize at hq; omega).trans
    (agreeOn_symtabImage.mono fun q hq => by unfold symtabSize at hq; omega)

/-- The LC_SYMTAB comes out right of an image that has not changed from it on. -/
theorem read_tableImage (hd : d.Wf x) (he : d.Encodes .big x m)
    (hm : m.AgreeOn (fun q => d.symtabAt x ≤ q) m₁) :
    cmd (commandImage true m₁ (d.symtabAt x)) (d.symtabAt x) = LC_SYMTAB ∧
      symoff (tableImage x d m₁) (d.symtabAt x) = d.symoff ∧
      nsyms (tableImage x d m₁) (d.symtabAt x) = d.symbols.length ∧
      stroff (tableImage x d m₁) (d.symtabAt x) = d.stroff := by
  have hst := hd.area.commands d.symtab (by simp [ObjectFile.toDescription])
  obtain ⟨hcmd, -⟩ := read_commandImage hst
    (hm.holds (fun k _ => Nat.le_add_right _ _) (hd.symtab he))
  have hword : ∀ k v, 8 ≤ k → m.le 4 (d.symtabAt x + k) = byteSwap 4 v → v < 256 ^ 4 →
      byteSwap 4 ((commandImage true m₁ (d.symtabAt x)).le 4 (d.symtabAt x + k)) = v := by
    intro k v hk hv hlt
    rw [agreeOn_commandImage.le fun j _ => .inr (by omega), hm.le fun j _ => by omega, hv,
      byteSwap_byteSwap hlt]
  obtain ⟨hs1, hs2, hs3, -⟩ := hd.read_symtab he
  obtain ⟨hr1, hr2, hr3⟩ :=
    read_symtabImage (m := commandImage true m₁ (d.symtabAt x)) (p := d.symtabAt x)
  refine ⟨hcmd, ?_, ?_, ?_⟩
  · exact hr1.trans (hword 8 _ (by omega) hs1 hd.symoff)
  · exact hr2.trans (hword 12 _ (by omega) hs2 hd.nsyms)
  · exact hr3.trans (hword 16 _ (by omega) hs3 hd.stroff)

theorem atTable_of_walk (hd : d.Wf x) (he : d.Encodes .big x m)
    (hagree : (headerImage true m 0).AgreeOn (fun q => q < headerSize x ∨ d.symtabAt x ≤ q) m₁)
    (hm : m.AgreeOn (fun q => d.symtabAt x ≤ q) m₁)
    (hwalk : ∀ pc ∈ place x (headerSize x) d.before,
      cmd m₁ pc.1 = pc.2.cmd x ∧ cmdsize m₁ pc.1 = pc.2.size x) :
    AtTable d x m (tableImage x d m₁) := by
  have hhs := le_headerSize x
  have hsymle : headerSize x ≤ d.symtabAt x := Nat.le_add_right _ _
  have hend := ObjectFile.symtabAt_le x d
  obtain ⟨-, hsymoff, hnsyms, hstroff⟩ := read_tableImage hd he hm
  refine ⟨?_, ?_, hsymoff, hnsyms, hstroff, ?_⟩
  · rw [← read_headerImage hd.area he.area]
    exact (agreeOn_tableImage.le fun k _ => .inl (by omega)).trans
      (hagree.le fun k _ => .inl (by omega))
  · intro pc hpc
    have hle := place_le (p := headerSize x) hpc
    have h8 := Command.size_ge x pc.2
    rw [← ObjectFile.symtabAt] at hle
    obtain ⟨e1, e2⟩ := hwalk pc hpc
    refine ⟨Eq.trans ?_ e1, Eq.trans ?_ e2⟩
    · exact agreeOn_tableImage.le fun k _ => .inl (by omega)
    · exact agreeOn_tableImage.le fun k _ => .inl (by omega)
  · refine (hm.mono fun q hq => ?_).trans (agreeOn_tableImage.mono fun q hq => .inr ?_)
    · omega
    · unfold symtabSize
      omega

/-- The swapped run comes to the symbol table, or a check of the walk ends it. -/
theorem handleNotFat_atTable (hd : d.Wf x) (he : d.Encodes .big x m) :
    ∃ m₀, AtTable d x m m₀ ∧
      (d.symtabAt x + symtabSize ≤ mapSize m → handleNotFat m x true 0 =
        listSymtabFrom (d.symtabAt x) 0 d.stroff true x (2 ^ 32) 0 [] m₀) ∧
      (¬ d.symtabAt x + symtabSize ≤ mapSize m →
        ∃ m₁, handleNotFat m x true 0 = .ok ([], m₁)) := by
  have hhs := le_headerSize x
  have hsymle : headerSize x ≤ d.symtabAt x := Nat.le_add_right _ _
  have hn := read_headerImage hd.area he.area
  have hhead : m.AgreeOn (fun q => q < 16 ∨ 20 ≤ q) (headerImage true m 0) := by
    simpa using agreeOn_headerImage (s := true) (m := m) (p := 0)
  have hlen : d.toDescription.commands.length = d.before.length + (d.after.length + 1) := by
    simp [ObjectFile.toDescription]
  -- the commands before the LC_SYMTAB
  obtain ⟨m₁, hagree, hread, hreach, hshort⟩ := getNmListFrom_swapped (n := d.after.length)
    (fun c hc => ⟨hd.area.commands c (List.mem_append_left _ hc), hd.before c hc⟩)
    (hhead.holds (fun k _ => .inr (by omega)) (hd.holds_before he))
  rw [← ObjectFile.symtabAt] at hagree hreach hshort
  rw [mapSize_headerImage] at hreach hshort
  have hmap : mapSize m₁ = mapSize m := by rw [mapSize, hagree.size, size_headerImage, mapSize]
  have hm : m.AgreeOn (fun q => d.symtabAt x ≤ q) m₁ :=
    (hhead.mono fun q hq => .inr (by omega)).trans (hagree.mono fun q hq => .inr hq)
  obtain ⟨hcmd, -, -, hstroff⟩ := read_tableImage hd he hm
  refine ⟨tableImage x d m₁, atTable_of_walk hd he hagree hm hread, fun hle => ?_, fun hno => ?_⟩
  · have hle' : d.symtabAt x + 24 ≤ mapSize m := hle
    have hlc : isLcSafe m 0 x := (isLcSafe_iff m 0 x).mpr (by split <;> omega)
    rw [handleNotFat_eq ((isSafe_natCast m 0).mpr (Nat.zero_le _)) hlc, hn, hlen, Nat.zero_add,
      hreach (by omega), getNmListFrom_succ (by rw [hmap]; omega), if_pos hcmd,
      listSymtab_eq (by rw [mapSize_commandImage, hmap]; exact hle), ← tableImage, hstroff,
      Nat.zero_add]
  · by_cases hlc : isLcSafe m 0 x
    · rw [handleNotFat_eq ((isSafe_natCast m 0).mpr (Nat.zero_le _)) hlc, hn, hlen, Nat.zero_add]
      by_cases h8 : d.symtabAt x + 8 ≤ mapSize m
      · rw [hreach h8, getNmListFrom_succ (by rw [hmap]; exact h8), if_pos hcmd, listSymtab, if_neg]
        · exact ⟨_, rfl⟩
        · rw [isSafe_natCast, mapSize_commandImage, hmap]
          exact hno
      · exact hshort h8
    · rw [handleNotFat, if_pos ((isSafe_natCast m 0).mpr (Nat.zero_le _)), getLc_none hlc]
      exact ⟨m, rfl⟩

/-! ## The loop over the symbol table -/

/-- The address of entry `i`. -/
def entryAt (x : Bool) (d : ObjectFile) (i : Nat) : Nat := d.symoff + i * nlistSize x

/-- The loop has swapped the first `i` entries, and nothing else since it started from `m₀`. -/
structure Processed (d : ObjectFile) (x : Bool) (m₀ : Buffer) (i : Nat) (m₁ : Buffer) : Prop where
  rest : m₀.AgreeOn (fun q => q < d.symoff ∨ entryAt x d i ≤ q) m₁
  done : ∀ j (h : j < d.symbols.length), j < i → Mixed m₁ x (entryAt x d j) d.symbols[j]

theorem entryAt_succ (x : Bool) (d : ObjectFile) (i : Nat) :
    entryAt x d (i + 1) = entryAt x d i + nlistSize x := by
  rw [entryAt, entryAt, Nat.add_mul, Nat.one_mul, Nat.add_assoc]

theorem entryAt_mono {j : Nat} (h : j ≤ i) : entryAt x d j ≤ entryAt x d i :=
  Nat.add_le_add_left (Nat.mul_le_mul_right _ h) _

section
variable (hd : d.Wf x) (he : d.Encodes .big x m) (hat : AtTable d x m m₀)
include hd he hat

theorem Processed.holds (hp : Processed d x m₀ i m₁) (hi : i < d.symbols.length) :
    m₁.Holds (entryAt x d i) (d.symbols[i].encode .big x) := by
  have hle := hd.entries
  have h0 : d.symoff ≤ entryAt x d i := Nat.le_add_right _ _
  apply hp.rest.holds (fun k _ => .inr (by omega))
  apply hat.rest.holds (fun k _ => by omega)
  exact holds_symbol he.entries hi

theorem Processed.step (hp : Processed d x m₀ i m₁) (hi : i < d.symbols.length) :
    Processed d x m₀ (i + 1) (entryImage true x m₁ (entryAt x d i)) := by
  have hs := hd.symbols _ (List.getElem_mem hi)
  have hlt := hd.strsize
  have hstrx := hs.strx
  have h0 : d.symoff ≤ entryAt x d i := Nat.le_add_right _ _
  have hagree : m₁.AgreeOn _ (entryImage true x m₁ (entryAt x d i)) := agreeOn_entryImage
  refine ⟨?_, fun j hj hji => ?_⟩
  · rw [entryAt_succ]
    exact (hp.rest.mono fun q hq => by omega).trans (hagree.mono fun q hq => by omega)
  · rcases Nat.lt_succ_iff_lt_or_eq.mp hji with hlt | rfl
    · have hle : entryAt x d (j + 1) ≤ entryAt x d i := entryAt_mono hlt
      rw [entryAt_succ] at hle
      exact (hp.done j hj hlt).congr hagree fun q _ hq => .inl (by omega)
    · exact mixed_of_holds (hp.holds hd he hat hi) (by omega) hs.desc

/-- What the loop reads of the LC_SYMTAB command, in every round. -/
theorem Processed.table (hp : Processed d x m₀ i m₁) :
    MachO.nsyms m₁ (d.symtabAt x) = d.symbols.length ∧
      (∀ j, nlistAt m₁ x 0 (d.symtabAt x) j = entryAt x d j) ∧
      d.symtabAt x + symtabSize ≤ m₁.size ∧ m₁.size = m.size := by
  have hend := ObjectFile.symtabAt_le x d
  have hle := hd.entries
  have harea := he.area.1
  rw [Description.length_encode hd.area] at harea
  have hsize : m₁.size = m.size := hp.rest.size.trans hat.rest.size
  have hread : ∀ k, k ≤ 20 → m₁.le 4 (d.symtabAt x + k) = m₀.le 4 (d.symtabAt x + k) :=
    fun k hk => hp.rest.le fun j _ => .inl (by omega)
  refine ⟨(hread 12 (by omega)).trans hat.nsyms, fun j => ?_, ?_, hsize⟩
  · rw [nlistAt, show MachO.symoff m₁ (d.symtabAt x) = d.symoff from
      (hread 8 (by omega)).trans hat.symoff, Nat.zero_add, entryAt]
  · unfold ObjectFile.areaEnd at hend
    unfold symtabSize
    omega

theorem Processed.entry_inside (hp : Processed d x m₀ i m₁) (hi : i < d.symbols.length) :
    entryAt x d i + nlistSize x ≤ m₁.size := by
  have := (hp.holds hd he hat hi).1
  rwa [Symbol.length_encode] at this

end

/-- The record that the swapped run makes of the symbol `s`, entry `i`. -/
def mixedRecord (x : Bool) (d : ObjectFile) (i : Nat) (s : Symbol) : TNm where
  is64 := x
  type := classify s.type (s.sect &&& 0x40 != 0) (mixedValue x s) 's'.toUInt8
  add := entryAt x d i + 8
  name := ((d.stroff : Int) + int32 s.strx).toNat

/-- The checks of the loop before it swaps entry `i`. -/
def Reached (m : Buffer) (x : Bool) (d : ObjectFile) (i : Nat) : Prop :=
  isSafe m (d.stroff : Nat) ∧ isSafe m (entryAt x d i : Nat)

/-- All its checks, where the entry is the symbol `s`. -/
def Passes (m : Buffer) (x : Bool) (d : ObjectFile) (i : Nat) (s : Symbol) : Prop :=
  Reached m x d i ∧ isSafe m ((d.stroff : Int) + int32 s.strx)

/-- A check ends the loop at entry `k`, and no symbol up to there is looked up in a section. -/
def StopsAt (m : Buffer) (x : Bool) (d : ObjectFile) (k : Nat) : Prop :=
  ∃ h : k < d.symbols.length, (∀ j (_ : j < k), ¬ InSection d.symbols[j].type) ∧
    (¬ Reached m x d k ∨ ¬ InSection d.symbols[k].type ∧ ¬ Passes m x d k d.symbols[k])

theorem passes_of_not_stopsAt (hno : ¬ StopsAt m x d k) (hk : k < d.symbols.length)
    (hin : ∀ j (_ : j < k + 1), ¬ InSection d.symbols[j].type) :
    Passes m x d k d.symbols[k] := by
  by_contra hfail
  exact hno ⟨hk, fun j hj => hin j (by omega), .inr ⟨hin k (Nat.lt_succ_self k), hfail⟩⟩

theorem rounds_left (h : k < 2 ^ 32) : ∃ fuel, 2 ^ 32 = fuel + 1 + k :=
  ⟨2 ^ 32 - 1 - k, by omega⟩

section
variable (hd : d.Wf x) (he : d.Encodes .big x m) (hat : AtTable d x m m₀)
include hd he hat

/-- One round on a symbol that is not in a section. -/
theorem listSymtabFrom_plain (hp : Processed d x m₀ i m₁) (hi : i < d.symbols.length)
    (hin : ¬ InSection d.symbols[i].type) {fuel : Nat} {list : List TNm} :
    (Passes m x d i d.symbols[i] →
      listSymtabFrom (d.symtabAt x) 0 d.stroff true x (fuel + 1) i list m₁ =
        listSymtabFrom (d.symtabAt x) 0 d.stroff true x fuel (i + 1)
          (list ++ [mixedRecord x d i d.symbols[i]]) (entryImage true x m₁ (entryAt x d i))) ∧
    (¬ Passes m x d i d.symbols[i] →
      ∃ m₂, listSymtabFrom (d.symtabAt x) 0 d.stroff true x (fuel + 1) i list m₁ =
        .ok ([], m₂)) := by
  obtain ⟨hn, hat₁, hin₁, hsize⟩ := hp.table hd he hat
  have hp' := hp.step hd he hat hi
  obtain ⟨-, hat₂, -, -⟩ := hp'.table hd he hat
  have hmix := hp'.done i hi (Nat.lt_succ_self i)
  have hent := hp.entry_inside hd he hat hi
  rw [nlistSize_eq] at hent
  have hswap : (if true then swapNlist m₁ (nlistAt m₁ x 0 (d.symtabAt x) i) x else pure m₁) =
      .ok (entryImage true x m₁ (entryAt x d i)) := by
    rw [hat₁]
    exact swapNlist_ok (by omega)
  have hletter : getSymbolLetter (entryImage true x m₁ (entryAt x d i)) 0
      (nlistAt (entryImage true x m₁ (entryAt x d i)) x 0 (d.symtabAt x) i) true x =
      .ok ((mixedRecord x d i d.symbols[i]).type, entryImage true x m₁ (entryAt x d i)) := by
    rw [hat₂, getSymbolLetter_plain (by rw [size_entryImage, nlistSize_eq]; omega)
      (hmix.type.symm ▸ hin), letterAt, hmix.type, hmix.weak, hmix.value]
    rfl
  rw [listSymtabFrom_round hin₁ (hn ▸ hi) hswap size_entryImage hletter size_entryImage
    (by rw [hat₂]; omega), hat₁, hat₂, hmix.strx]
  simp only [Passes, Reached, ← isSafe_congr hsize]
  constructor
  · rintro ⟨⟨h1, h2⟩, h3⟩
    rw [if_pos h1, if_pos h2, if_pos h3]
    rfl
  · intro hno
    split_ifs with h1 h2 h3
    · exact absurd ⟨⟨h1, h2⟩, h3⟩ hno
    all_goals exact ⟨_, rfl⟩

/-- The first `k` rounds, on symbols that pass and are in no section. -/
theorem listSymtabFrom_prefix (hk : k ≤ d.symbols.length)
    (hok : ∀ j (h : j < d.symbols.length), j < k →
      Passes m x d j d.symbols[j] ∧ ¬ InSection d.symbols[j].type) :
    ∃ m₁, Processed d x m₀ k m₁ ∧ ∀ fuel,
      listSymtabFrom (d.symtabAt x) 0 d.stroff true x (fuel + k) 0 [] m₀ =
        listSymtabFrom (d.symtabAt x) 0 d.stroff true x fuel k
          ((d.symbols.take k).mapIdx (mixedRecord x d)) m₁ := by
  induction k with
  | zero => exact ⟨m₀, ⟨.refl, fun j _ h => absurd h (Nat.not_lt_zero j)⟩, fun _ => rfl⟩
  | succ k ih =>
    obtain ⟨m₁, hp, hrun⟩ := ih (Nat.le_of_succ_le hk) fun j h hj => hok j h (Nat.lt_succ_of_lt hj)
    obtain ⟨hpass, hin⟩ := hok k hk (Nat.lt_succ_self k)
    refine ⟨_, hp.step hd he hat hk, fun fuel => ?_⟩
    rw [← Nat.add_assoc, Nat.add_right_comm, hrun,
      (listSymtabFrom_plain hd he hat hp hk hin).1 hpass, List.take_succ_eq_append_getElem hk,
      List.mapIdx_concat, List.length_take_of_le (Nat.le_of_succ_le hk)]

/-- The whole loop, when no symbol is in a section and none fails a check. -/
theorem listSymtabFrom_all (hin : ∀ s ∈ d.symbols, ¬ InSection s.type)
    (hpass : ∀ j (h : j < d.symbols.length), Passes m x d j d.symbols[j]) :
    ∃ m₁, Processed d x m₀ d.symbols.length m₁ ∧
      listSymtabFrom (d.symtabAt x) 0 d.stroff true x (2 ^ 32) 0 [] m₀ =
        .ok (d.symbols.mapIdx (mixedRecord x d), m₁) := by
  obtain ⟨m₁, hp, hrun⟩ := listSymtabFrom_prefix hd he hat (Nat.le_refl _)
    fun j h _ => ⟨hpass j h, hin _ (List.getElem_mem h)⟩
  obtain ⟨hn, -, hin₁, -⟩ := hp.table hd he hat
  obtain ⟨fuel, hfuel⟩ := rounds_left hd.nsyms
  refine ⟨m₁, hp, ?_⟩
  rw [hfuel, hrun, List.take_length, listSymtabFrom_end hin₁ (by omega)]

/-- The whole loop, when a check ends it. -/
theorem listSymtabFrom_stops (hstop : ∃ k, StopsAt m x d k) :
    ∃ m₁, listSymtabFrom (d.symtabAt x) 0 d.stroff true x (2 ^ 32) 0 [] m₀ = .ok ([], m₁) := by
  classical
  have hlen := hd.nsyms
  obtain ⟨hk, hin, hfail⟩ := Nat.find_spec hstop
  obtain ⟨m₁, hp, hrun⟩ := listSymtabFrom_prefix hd he hat (Nat.le_of_lt hk) fun j h hj =>
    ⟨passes_of_not_stopsAt (Nat.find_min hstop hj) h
      (fun i hi => hin i (Nat.lt_of_le_of_lt (Nat.le_of_lt_succ hi) hj)), hin j hj⟩
  obtain ⟨fuel, hfuel⟩ := rounds_left (show Nat.find hstop < 2 ^ 32 by omega)
  rw [hfuel, hrun]
  rcases hfail with hno | ⟨hnot, hno⟩
  · obtain ⟨hn, hat₁, hin₁, hsize⟩ := hp.table hd he hat
    refine ⟨m₁, listSymtabFrom_stop hin₁ (hn ▸ hk) fun ⟨h1, h2⟩ => hno ⟨?_, ?_⟩⟩
    · exact (isSafe_congr hsize).mp h1
    · rw [hat₁] at h2
      exact (isSafe_congr hsize).mp h2
  · exact (listSymtabFrom_plain hd he hat hp hk hnot).2 hno

end

/-! ## A symbol that is defined in a section -/

/-- With the number 0 the lookup stops at the first segment, one section header before its own:
the difference is an `unsigned int`, so the pointer lies 4 GiB further. -/
theorem getSectionFrom_zero {cs : List Command} {p : Nat} (hcs : ∀ c ∈ cs, c.Wf x)
    (hread : ∀ pc ∈ place x p cs, cmd m pc.1 = pc.2.cmd x ∧ cmdsize m pc.1 = pc.2.size x)
    (hend : p + areaSize x cs ≤ mapSize m) (hseg : ∃ c ∈ cs, c.cmd x = segmentCmd x)
    (hp : headerSize x ≤ p) :
    ∃ sec m₁, getSectionFrom true x 0 (cs.length + n) p 0 m = .ok (some sec, m₁) ∧
      m₁.size = m.size ∧ 2 ^ 32 ≤ sec := by
  have hle := mapSize_le m
  induction cs generalizing p with
  | nil => simp at hseg
  | cons c cs ih =>
    rw [areaSize, List.map_cons, List.sum_cons] at hend
    have h8 := Command.size_ge x c
    obtain ⟨hcmd, hsize⟩ : cmd m p = c.cmd x ∧ cmdsize m p = c.size x :=
      hread (p, c) List.mem_cons_self
    have hsafe := (isSafe_natCast m p).mpr (show p ≤ mapSize m by omega)
    obtain ⟨-, hc⟩ := hcs c List.mem_cons_self
    rw [List.length_cons, Nat.succ_add]
    cases c with
    | segment segname extent prot flags sections =>
      have hss : p + segmentSize x ≤ mapSize m := by
        have : segmentSize x ≤ (Command.segment segname extent prot flags sections).size x :=
          Nat.le_add_right _ _
        omega
      have hS : IsSegment m p := isSegment_of_cmd hcmd
      rw [getSectionFrom_segment hsafe hS ((isSegmantSafe_iff m p x).mpr hss)]
      simp only
      rw [if_pos (Nat.zero_le _)]
      refine ⟨_, _, rfl, size_segmentImage, ?_⟩
      have hwrap : 2 ^ 32 ≤ headerSize x + segmentSize x +
          u32 (u32 (((0 : Nat) : Int) - (0 : Nat) - 1) * sectionSize x) := by
        cases x <;> decide
      unfold headerAt
      omega
    | other cmd' payload =>
      obtain ⟨-, h1, h2, -⟩ := hc
      have hS : ¬ IsSegment m p := not_isSegment_of_cmd hcmd h1 h2
      rw [getSectionFrom_other hsafe hS (by omega), hsize]
      refine ih (fun c hc => hcs c (List.mem_cons_of_mem _ hc))
        (fun pc hpc => hread pc (List.mem_cons_of_mem _ hpc)) ?_ ?_ (by omega)
      · unfold areaSize
        omega
      · obtain ⟨c, hc, hcseg⟩ := hseg
        rcases List.mem_cons.mp hc with rfl | hc
        · exfalso
          have : cmd' = segmentCmd x := hcseg
          cases x
          · exact h1 this
          · exact h2 this
        · exact ⟨c, hc, hcseg⟩

section
variable (hd : d.Wf x) (he : d.Encodes .big x m) (hat : AtTable d x m m₀)
include hd he hat

/-- The lookup by the number 0 ends with a pointer behind every map. -/
theorem getSection_swapped_zero (hp : Processed d x m₀ i m₁)
    (hseg : ∃ c ∈ d.before, c.cmd x = segmentCmd x) (hsz : m.size < 2 ^ 32) :
    ∃ sec m₂, getSection m₁ 0 true x 0 = .ok (some sec, m₂) ∧ m₂.size = m₁.size ∧ 2 ^ 32 ≤ sec := by
  obtain ⟨-, -, -, hsize⟩ := hp.table hd he hat
  have hmap : mapSize m₁ = m.size := by rw [← hsize, mapSize_eq (by omega)]
  have harea := he.area.1
  rw [Description.length_encode hd.area] at harea
  have hle := hd.entries
  have hend := ObjectFile.symtabAt_le x d
  have hhs := le_headerSize x
  unfold ObjectFile.areaEnd at hle hend
  unfold ObjectFile.symtabAt at hend
  have hread : ∀ q, q + 8 ≤ d.symoff → m₁.le 4 q = m₀.le 4 q ∧ m₁.le 4 (q + 4) = m₀.le 4 (q + 4) :=
    fun q hq => ⟨hp.rest.le fun k _ => .inl (by omega), hp.rest.le fun k _ => .inl (by omega)⟩
  obtain ⟨sec, m₂, hsec, hsize₂, hbig⟩ := getSectionFrom_zero (m := m₁) (x := x) (p := headerSize x)
    (n := d.after.length + 1) (fun c hc => hd.area.commands c (List.mem_append_left _ hc))
    (fun pc hpc => by
      obtain ⟨h1, h2⟩ := hat.command pc hpc
      have hq := place_le (p := headerSize x) hpc
      obtain ⟨e1, e2⟩ := hread pc.1 (by omega)
      exact ⟨e1.trans h1, e2.trans h2⟩)
    (by rw [hmap]; omega) hseg (Nat.le_refl _)
  have hncmds : m₁.le 4 (0 + 16) = d.before.length + (d.after.length + 1) := by
    rw [(hread (0 + 16) (by omega)).1, show m₀.le 4 (0 + 16) = _ from hat.ncmds]
    simp [ObjectFile.toDescription]
  refine ⟨sec, m₂, ?_, hsize₂, hbig⟩
  rw [getSection, getLc_host ((isLcSafe_iff m₁ 0 x).mpr (by rw [hmap]; split <;> omega)), ok_bind,
    hncmds]
  simp only [Nat.zero_add]
  exact hsec

/-- A processed symbol whose `n_desc` has no high byte has the section number 0. -/
theorem symbol_zero (hp : Processed d x m₀ (i + 1) m₁) (hi : i < d.symbols.length)
    (hent : entryAt x d i + 8 ≤ m₁.size) (hdesc : d.symbols[i].desc < 256)
    (hseg : ∃ c ∈ d.before, c.cmd x = segmentCmd x) (hsz : m.size < 2 ^ 32) :
    symbol m₁ 0 (entryAt x d i) true x = .fault := by
  obtain ⟨-, -, -, hsize⟩ := hp.table hd he hat
  obtain ⟨sec, m₂, hlookup, hsize₂, hbig⟩ := getSection_swapped_zero hd he hat hp hseg hsz
  have hmix := hp.done i hi (Nat.lt_succ_self i)
  have hzero : (m₁.byte (entryAt x d i + 5)).toNat = 0 := by
    rw [show (m₁.byte (entryAt x d i + 5)).toNat = _ from hmix.sect]
    omega
  have hswap : swapSection m₂ sec x = .fault := by
    by_contra hne
    have hfit := (returns_section (s := true) (K := fun _ => True)).mp (returns_true.mpr hne)
    have := hfit.1 rfl
    omega
  rw [symbol, Buffer.load_ok (by omega), ok_bind, hzero, hlookup, ok_bind]
  simp only [if_true]
  rw [hswap]
  rfl

/-- The loop leaves the file at a symbol in a section whose `n_desc` has no high byte, as that byte
is where the section number is taken from. -/
theorem listSymtabFrom_inSection (hp : Processed d x m₀ i m₁) (hi : i < d.symbols.length)
    (hin : InSection d.symbols[i].type) (hdesc : d.symbols[i].desc < 256)
    (hseg : ∃ c ∈ d.before, c.cmd x = segmentCmd x) (hsz : m.size < 2 ^ 32)
    (hreach : Reached m x d i) {fuel : Nat} {list : List TNm} :
    listSymtabFrom (d.symtabAt x) 0 d.stroff true x (fuel + 1) i list m₁ = .fault := by
  obtain ⟨hn, hat₁, hin₁, hsize⟩ := hp.table hd he hat
  have hp' := hp.step hd he hat hi
  obtain ⟨-, hat₂, -, hsize'⟩ := hp'.table hd he hat
  have hmix := hp'.done i hi (Nat.lt_succ_self i)
  have hent := hp.entry_inside hd he hat hi
  rw [nlistSize_eq] at hent
  have hsymbol := symbol_zero hd he hat hp' hi (by omega) hdesc hseg hsz
  have hswap : swapNlist m₁ (entryAt x d i) x = .ok (entryImage true x m₁ (entryAt x d i)) :=
    swapNlist_ok (by omega)
  refine listSymtabFrom_fault hin₁ (hn ▸ hi) ((isSafe_congr hsize).mpr hreach.1)
    (by rw [hat₁]; exact (isSafe_congr hsize).mpr hreach.2)
    (by rw [hat₁]; exact hswap) size_entryImage ?_
  have hs : preLetter (nType (entryImage true x m₁ (entryAt x d i)) (entryAt x d i))
      (nDesc (entryImage true x m₁ (entryAt x d i)) (entryAt x d i) &&& N_WEAK_REF != 0)
      (nValue (entryImage true x m₁ (entryAt x d i)) x (entryAt x d i)) = 's'.toUInt8 :=
    preLetter_eq_s.mpr (hmix.type.symm ▸ hin)
  rw [hat₂, getSymbolLetter, Buffer.load_ok (by omega), ok_bind, Buffer.field_ok (by omega),
    ok_bind, Buffer.field_ok (by omega), ok_bind]
  simp only [preLetter_of_entry]
  rw [if_pos hs, hsymbol]
  rfl

/-- The whole loop, when it comes to a symbol in a section. -/
theorem listSymtabFrom_inSections (hno : ¬ ∃ k, StopsAt m x d k)
    (hin : ∃ s ∈ d.symbols, InSection s.type)
    (hdesc : ∀ s ∈ d.symbols, InSection s.type → s.desc < 256)
    (hseg : ∃ c ∈ d.before, c.cmd x = segmentCmd x) (hsz : m.size < 2 ^ 32) :
    listSymtabFrom (d.symtabAt x) 0 d.stroff true x (2 ^ 32) 0 [] m₀ = .fault := by
  have hlen := hd.nsyms
  have hex : ∃ k, ∃ h : k < d.symbols.length, InSection d.symbols[k].type := by
    obtain ⟨s, hs, hin⟩ := hin
    obtain ⟨k, hk, rfl⟩ := List.getElem_of_mem hs
    exact ⟨k, hk, hin⟩
  obtain ⟨hk, hink⟩ := Nat.find_spec hex
  have hplain : ∀ j (hj : j < Nat.find hex), ¬ InSection d.symbols[j].type :=
    fun j hj h => Nat.find_min hex hj ⟨_, h⟩
  obtain ⟨m₁, hp, hrun⟩ := listSymtabFrom_prefix hd he hat (Nat.le_of_lt hk) fun j h hj =>
    ⟨passes_of_not_stopsAt (fun hs => hno ⟨j, hs⟩) h fun i hi => hplain i (by omega), hplain j hj⟩
  obtain ⟨fuel, hfuel⟩ := rounds_left (show Nat.find hex < 2 ^ 32 by omega)
  rw [hfuel, hrun]
  refine listSymtabFrom_inSection hd he hat hp hk hink (hdesc _ (List.getElem_mem hk) hink) hseg hsz
    (by_contra fun hreach => hno ⟨_, hk, hplain, .inl hreach⟩)

end

/-! ## The two runs -/

theorem stopsAt_congr {m' : Buffer} (h : m'.size = m.size) :
    StopsAt m' x d k ↔ StopsAt m x d k := by
  simp only [StopsAt, Passes, Reached, isSafe_congr h]

section
variable (hd : d.Wf x) (hl : d.Encodes .little x m)
include hd hl

theorem nlistAt_eq : nlistAt m x 0 (d.symtabAt x) i = entryAt x d i := by
  obtain ⟨h1, -⟩ := hd.read_symtab hl
  rw [nlistAt, h1, Nat.zero_add, entryAt]
  rfl

/-- The host-order run makes the same checks. -/
theorem listed_iff_passes : Listed m x 0 (d.symtabAt x) ↔
    d.symtabAt x + symtabSize ≤ mapSize m ∧
      ∀ k (h : k < d.symbols.length), Passes m x d k d.symbols[k] := by
  obtain ⟨-, h2, h3, -⟩ := hd.read_symtab hl
  unfold Listed
  rw [h2]
  refine and_congr_right fun _ => forall_congr' fun k => forall_congr' fun hk => ?_
  obtain ⟨hx, -⟩ := hd.entry hl hk
  rw [EntryChecked, nameRef, h3, nlistAt_eq hd hl, Nat.zero_add, entryAt, hx, ← and_assoc]
  rfl

/-- What a symbol that is in no section shows in the host-order run. -/
theorem shown_record_plain (hi : i < d.symbols.length) (hin : ¬ InSection d.symbols[i].type)
    (hx : d.symbols[i].strx < 2 ^ 31) :
    shown m (record m x 0 (d.symtabAt x) i) =
      ⟨m.cstr (d.stroff + d.symbols[i].strx),
        classify d.symbols[i].type (d.symbols[i].desc &&& N_WEAK_REF != 0) d.symbols[i].value
          's'.toUInt8, d.symbols[i].value⟩ := by
  obtain ⟨-, -, h3, -⟩ := hd.read_symtab hl
  obtain ⟨e1, e2, -, e4, e5⟩ := hd.entry hl hi
  rw [← entryAt] at e1 e2 e4 e5
  change strx m _ = d.symbols[i].strx at e1
  change stroff m _ = d.stroff at h3
  have hname : (nameRef m x 0 (d.symtabAt x) i).toNat = d.stroff + d.symbols[i].strx := by
    rw [nameRef, nlistAt_eq hd hl, h3, e1, int32_of_lt hx]
    omega
  have hletter : symbolLetter m x 0 (d.symtabAt x) i = classify d.symbols[i].type
      (d.symbols[i].desc &&& N_WEAK_REF != 0) d.symbols[i].value 's'.toUInt8 := by
    rw [symbolLetter, nlistAt_eq hd hl, letterAt, e2, e4, e5]
    exact classify_of_not_inSection hin _ _
  rw [shown, record, hname, hletter, nlistAt_eq hd hl]
  exact congrArg _ e5

/-- What a processed symbol shows in the byte-swapped run: no run writes its name. -/
theorem shown_mixedRecord {m' : Buffer} (hb : d.Encodes .big x m') (hsize : m'.size = m.size)
    (hat : AtTable d x m' m₀) (hp : Processed d x m₀ d.symbols.length m₁)
    (hi : i < d.symbols.length) (hx : d.symbols[i].strx < 2 ^ 31) :
    shown m₁ (mixedRecord x d i d.symbols[i]) =
      ⟨m.cstr (d.stroff + d.symbols[i].strx),
        classify d.symbols[i].type (d.symbols[i].sect &&& 0x40 != 0) (mixedValue x d.symbols[i])
          's'.toUInt8, mixedValue x d.symbols[i]⟩ := by
  obtain ⟨q, hq1, hq2, hq3⟩ := hd.name_nul hl hi
  have hdis := hd.disjoint
  have hstr := hd.strings
  have hstrings : m.AgreeOn (fun q => d.stroff ≤ q ∧ q < d.stroff + d.strings.length) m₁ :=
    hl.strings.agreeOn (hp.rest.holds (fun k hk => by unfold entryAt; omega)
      (hat.rest.holds (fun k hk => by omega) hb.strings))
      (hp.rest.size.trans (hat.rest.size.trans hsize))
  have hname : m₁.cstr (d.stroff + d.symbols[i].strx) = m.cstr (d.stroff + d.symbols[i].strx) :=
    Buffer.cstr_agreeOn hstrings hq3 hq1 fun p h1 h2 => ⟨by omega, by omega⟩
  have hptr : ((d.stroff : Int) + int32 d.symbols[i].strx).toNat = d.stroff + d.symbols[i].strx := by
    rw [int32_of_lt hx]
    omega
  rw [shown, mixedRecord, hptr, hname]
  exact congrArg _ (hp.done i hi hi).value

/-- The records of the two runs on symbols that are in no section. -/
theorem records_same {m' : Buffer} (hb : d.Encodes .big x m') (hsize : m'.size = m.size)
    (hat : AtTable d x m' m₀) (hp : Processed d x m₀ d.symbols.length m₁)
    (hin : ∀ s ∈ d.symbols, ¬ InSection s.type) (hx : ∀ s ∈ d.symbols, s.strx < 2 ^ 31) :
    (records m x 0 (d.symtabAt x)).map (shown m) =
        (d.symbols.mapIdx (mixedRecord x d)).map (shown m₁) ↔
      ∀ s ∈ d.symbols, Preserved x s := by
  have hone : ∀ i (hi : i < d.symbols.length),
      shown m (record m x 0 (d.symtabAt x) i) = shown m₁ (mixedRecord x d i d.symbols[i]) ↔
        Preserved x d.symbols[i] := by
    intro i hi
    have hmem := List.getElem_mem hi
    have hs := hd.symbols _ hmem
    rw [shown_mixedRecord hd hl hb hsize hat hp hi (hx _ hmem),
      shown_record_plain hd hl hi (hin _ hmem) (hx _ hmem), Shown.mk.injEq]
    constructor
    · rintro ⟨-, hc, hv⟩
      rw [← hv] at hc
      exact ⟨(mixedValue_eq hs.value).mp hv.symm, fun hw => (classify_weak.mp hc hw).symm⟩
    · rintro ⟨hv, hw⟩
      rw [(mixedValue_eq hs.value).mpr hv]
      exact ⟨rfl, classify_weak.mpr fun ht => (hw ht).symm, rfl⟩
  obtain ⟨-, hn, -⟩ := hd.read_symtab hl
  change nsyms m _ = d.symbols.length at hn
  rw [List.ext_getElem_iff]
  simp only [records, hn, List.length_map, List.length_range, List.length_mapIdx,
    List.getElem_map, List.getElem_range, List.getElem_mapIdx, true_and]
  constructor
  · intro h s hs
    obtain ⟨i, hi, rfl⟩ := List.getElem_of_mem hs
    exact (hone i hi).mp (h i hi hi)
  · intro h i hi _
    exact (hone i hi).mpr (h _ (List.getElem_mem hi))

end

/-- The two runs return the same list of (name, letter, value). -/
def SameRecords (m m' : Buffer) (x : Bool) : Prop :=
  ∃ r r', handleNotFat m x false 0 = .ok r ∧ handleNotFat m' x true 0 = .ok r' ∧
    r.1.map (shown r.2) = r'.1.map (shown r'.2)

/-- A check ends both runs before a symbol is looked up in a section. -/
def EndsEarly (m : Buffer) (x : Bool) (d : ObjectFile) : Prop :=
  ¬ d.symtabAt x + symtabSize ≤ mapSize m ∨ ∃ k, StopsAt m x d k

/-- No symbol is in a section, and all come out of their mixed entries as they went in. -/
def Unaffected (x : Bool) (d : ObjectFile) : Prop :=
  ∀ s ∈ d.symbols, ¬ InSection s.type ∧ s.strx < 2 ^ 31 ∧ Preserved x s

/-- A lookup finds a segment to stop at, but only the number 0. -/
def LookupsMiss (x : Bool) (d : ObjectFile) : Prop :=
  ∀ s ∈ d.symbols, InSection s.type → s.desc < 256 ∧ ∃ c ∈ d.before, c.cmd x = segmentCmd x

section
variable {m' : Buffer} (hd : d.Wf x) (hl : d.Encodes .little x m) (hb : d.Encodes .big x m')
  (hsize : m'.size = m.size)
include hd hl hb hsize

theorem sameRecords_of_endsEarly (h : EndsEarly m x d) : SameRecords m m' x := by
  obtain ⟨m₀, hat, hrun, hend⟩ := handleNotFat_atTable hd hb
  have hmap : mapSize m' = mapSize m := by rw [mapSize, hsize, mapSize]
  have hnil : ∃ m₁, handleNotFat m' x true 0 = .ok ([], m₁) := by
    by_cases htab : d.symtabAt x + symtabSize ≤ mapSize m'
    · rw [hrun htab]
      obtain ⟨k, hk⟩ := h.resolve_left (not_not.mpr (hmap ▸ htab))
      exact listSymtabFrom_stops hd hb hat ⟨k, (stopsAt_congr hsize).mpr hk⟩
    · exact hend htab
  have hnot : ¬ Listed m x 0 (d.symtabAt x) := by
    rw [listed_iff_passes hd hl]
    rintro ⟨htab, hpass⟩
    obtain ⟨k, hk, -, hfail⟩ := h.resolve_left (not_not.mpr htab)
    rcases hfail with hno | ⟨-, hno⟩
    · exact hno (hpass k hk).1
    · exact hno (hpass k hk)
  obtain ⟨m₁, hm₁⟩ := hnil
  refine ⟨([], m), ([], m₁), ?_, hm₁, rfl⟩
  rw [handleNotFat_host (hd.wellFormed hl), if_neg hnot]

theorem sameRecords_iff_preserved (h : ¬ EndsEarly m x d)
    (hin : ∀ s ∈ d.symbols, ¬ InSection s.type) (hx : ∀ s ∈ d.symbols, s.strx < 2 ^ 31) :
    SameRecords m m' x ↔ ∀ s ∈ d.symbols, Preserved x s := by
  obtain ⟨htab, hno⟩ := not_or.mp h
  rw [not_not] at htab
  have hpass : ∀ k (h : k < d.symbols.length), Passes m x d k d.symbols[k] := fun k hk =>
    passes_of_not_stopsAt (fun hs => hno ⟨k, hs⟩) hk fun j hj => hin _ (List.getElem_mem _)
  obtain ⟨m₀, hat, hrun, -⟩ := handleNotFat_atTable hd hb
  obtain ⟨m₁, hp, hall⟩ := listSymtabFrom_all hd hb hat hin fun k hk => by
    simpa only [Passes, Reached, isSafe_congr hsize] using hpass k hk
  rw [← records_same hd hl hb hsize hat hp hin hx, SameRecords,
    handleNotFat_host (hd.wellFormed hl), if_pos ((listed_iff_passes hd hl).mpr ⟨htab, hpass⟩),
    hrun (by rwa [mapSize, hsize]), hall]
  constructor
  · rintro ⟨r, r', hr, hr', heq⟩
    cases hr
    cases hr'
    exact heq
  · exact fun heq => ⟨_, _, rfl, rfl, heq⟩

/-- The swapped run gives the records of the host-order run when the defects do not show; and, in a
file that `g_map_size` measures where lookups miss, only then. -/
theorem handleNotFat_swapped :
    (EndsEarly m x d ∨ Unaffected x d → SameRecords m m' x) ∧
      (m.size < 2 ^ 32 → LookupsMiss x d → SameRecords m m' x → EndsEarly m x d ∨ Unaffected x d) := by
  constructor
  · rintro (h | h)
    · exact sameRecords_of_endsEarly hd hl hb hsize h
    · by_cases hend : EndsEarly m x d
      · exact sameRecords_of_endsEarly hd hl hb hsize hend
      · exact (sameRecords_iff_preserved hd hl hb hsize hend (fun s hs => (h s hs).1)
          fun s hs => (h s hs).2.1).mpr fun s hs => (h s hs).2.2
  · intro hsz hmiss hsame
    by_contra hno
    obtain ⟨hend, haff⟩ := not_or.mp hno
    obtain ⟨htab, hstop⟩ := not_or.mp hend
    rw [not_not] at htab
    by_cases hin : ∃ s ∈ d.symbols, InSection s.type
    · obtain ⟨m₀, hat, hrun, -⟩ := handleNotFat_atTable hd hb
      obtain ⟨s, hs, hsec⟩ := id hin
      have hfault := listSymtabFrom_inSections hd hb hat
        (fun ⟨k, hk⟩ => hstop ⟨k, (stopsAt_congr hsize).mp hk⟩) hin
        (fun s hs h => (hmiss s hs h).1) (hmiss s hs hsec).2 (hsize ▸ hsz)
      rw [← hrun (by rwa [mapSize, hsize])] at hfault
      obtain ⟨r, r', -, hr', -⟩ := hsame
      rw [hfault] at hr'
      cases hr'
    · have hplain : ∀ s ∈ d.symbols, ¬ InSection s.type := fun s hs h => hin ⟨s, hs, h⟩
      have hwf := hd.wellFormed hl
      have hfit := (listed_iff hwf hsz).mp ((listed_iff_passes hd hl).mpr ⟨htab, fun k hk =>
        passes_of_not_stopsAt (fun hs => hstop ⟨k, hs⟩) hk fun j hj => hplain _ (List.getElem_mem _)⟩)
      have hx : ∀ s ∈ d.symbols, s.strx < 2 ^ 31 := by
        intro s hs
        obtain ⟨k, hk, rfl⟩ := List.getElem_of_mem hs
        obtain ⟨-, hn, -⟩ := hd.read_symtab hl
        have hk' := hfit k (by rw [hn]; exact hk)
        rw [nlistAt_eq hd hl, show strx m (entryAt x d k) = _ from (hd.entry hl hk).1] at hk'
        exact hk'
      have hpres := (sameRecords_iff_preserved hd hl hb hsize hend hplain hx).mp hsame
      exact haff fun s hs => ⟨hplain s hs, hx s hs, hpres s hs⟩

end

/-- The small file with two undefined symbols. -/
def undefinedFile : ObjectFile :=
  { smallFile true with symbols := [⟨1, 0x01, 0, 0, 0⟩, ⟨4, 0x01, 0, 0, 0⟩] }

theorem undefinedFile_wf : undefinedFile.Wf true :=
  { smallFile_wf true with
    symbols := fun s hs => by
      have : s = ⟨1, 0x01, 0, 0, 0⟩ ∨ s = ⟨4, 0x01, 0, 0, 0⟩ := by simpa [undefinedFile] using hs
      rcases this with rfl | rfl <;> exact ⟨by decide, by decide, by decide, by decide, by decide⟩ }

theorem undefinedFile_encodes (o : ByteOrder) :
    undefinedFile.Encodes o true (undefinedFile.image o true) :=
  undefinedFile_wf.encodes rfl rfl (Nat.le_refl _)

/-- The undefined symbols come out right; the symbol `_f` of the small file is defined in a
section. -/
theorem handleNotFat_swapped_smallFile :
    SameRecords (undefinedFile.image .little true) (undefinedFile.image .big true) true ∧
      ¬ SameRecords ((smallFile true).image .little true) ((smallFile true).image .big true)
        true := by
  constructor
  · refine (handleNotFat_swapped undefinedFile_wf (undefinedFile_encodes .little)
      (undefinedFile_encodes .big) (by decide +kernel)).1 (.inr fun s hs => ?_)
    have : s = ⟨1, 0x01, 0, 0, 0⟩ ∨ s = ⟨4, 0x01, 0, 0, 0⟩ := by simpa [undefinedFile] using hs
    rcases this with rfl | rfl <;> exact ⟨by decide, by decide, by decide, fun _ => rfl⟩
  intro h
  have hmiss : LookupsMiss true (smallFile true) := by
    intro s hs _
    refine ⟨?_, _, List.mem_cons_self, rfl⟩
    revert s
    decide
  rcases (handleNotFat_swapped (smallFile_wf true) (smallFile_encodes .little true)
    (smallFile_encodes .big true) (by decide +kernel)).2 (by decide +kernel) hmiss h with
    (htab | ⟨k, hk, hplain, hfail⟩) | haff
  · exact htab (by decide +kernel)
  · cases k with
    | zero =>
      rcases hfail with hno | ⟨hno, -⟩
      · exact hno ⟨by decide +kernel, by decide +kernel⟩
      · exact hno (show InSection 0x0f by decide)
    | succ k => exact hplain 0 (Nat.succ_pos k) (show InSection 0x0f by decide)
  · exact (haff _ List.mem_cons_self).1 (by decide)

/-- On the byte-swapped small file the run leaves the image. -/
theorem swapped_leaves : ¬ ∀ (x : Bool) (d : ObjectFile) (m m' : Buffer), d.Wf x →
    d.Encodes .little x m → d.Encodes .big x m' → m'.size = m.size → SameRecords m m' x := by
  intro h
  obtain ⟨-, r', -, hr', -⟩ := h true _ _ _ (smallFile_wf true) (smallFile_encodes .little true)
    (smallFile_encodes .big true) (by decide +kernel)
  have hfault : (match handleNotFat ((smallFile true).image .big true) true true 0 with
    | .ok _ => false
    | .fault => true) = true := by decide +kernel
  rw [hr'] at hfault
  cases hfault

end NmOtool.Nm
