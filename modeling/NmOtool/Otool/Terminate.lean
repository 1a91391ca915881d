import NmOtool.Base.Steps
import NmOtool.Otool.Dump

/-!
# ft_otool: the dump loop ends

The loop of `dump_section` as a machine: a round prints a line and adds 16 to the counter, a
`uint64_t` that wraps. `i < size` alone does not end it for a size close to `2 ^ 64`; what does is
that the address of the line leaves the map, and it leaves it long before the counter wraps.
-/

namespace NmOtool.Otool

open MachO Checked

/-- `str - g_begin` in the round of byte `i`. -/
def dumpStr (nb : TNb) (ptr i : Nat) : Int := int64 (ptr + nb.offset + i)

/-- The loop between two rounds: the counter, the bytes written and the image. -/
structure DumpLoop where
  i : Nat
  out : List UInt8
  m : Buffer

/-- A round prints a line, or ends the loop with the value returned. -/
inductive DumpRound where
  | line (s : DumpLoop)
  | stop (ret : Int)

def dumpRound (add : Nat) (is64 : Bool) (nb : TNb) (ptr : Nat) (s : DumpLoop) :
    Checked DumpRound :=
  if s.i < nb.size then
    if isSafe s.m (dumpStr nb ptr s.i) then do
      let address ← hexdumpAddress s.m add is64
      let data ← hexdumpData s.m (dumpStr nb ptr s.i).toNat s.i nb.size
      let v ← s.m.field (wordSize is64) add
      let m ← s.m.storeField (wordSize is64) add (v + 16)
      let i := (s.i + 16) % 2 ^ 64
      pure (.line { i, out := s.out ++ (address ++ ascii "\t" ++ data ++ ascii "\n"), m })
    else
      pure (.stop (-1))
  else
    pure (.stop 0)

/-- The loop after one line more, if it prints one. -/
def dumpLine (add : Nat) (is64 : Bool) (nb : TNb) (ptr : Nat) (s : DumpLoop) : Option DumpLoop :=
  match dumpRound add is64 nb ptr s with
  | .ok (.line t) => some t
  | _ => none

/-- The loop before its first round. -/
def dumpStart (m : Buffer) : DumpLoop := ⟨0, [], m⟩

variable {m : Buffer} {add ptr n fuel : Nat} {is64 : Bool} {nb : TNb} {s t : DumpLoop}

/-- What a round that prints a line does. -/
theorem dumpLine_cases (h : dumpLine add is64 nb ptr s = some t) :
    s.i < nb.size ∧ isSafe s.m (dumpStr nb ptr s.i) ∧
      ∃ address data v,
        hexdumpAddress s.m add is64 = .ok address ∧
        hexdumpData s.m (dumpStr nb ptr s.i).toNat s.i nb.size = .ok data ∧
        s.m.field (wordSize is64) add = .ok v ∧
        s.m.storeField (wordSize is64) add (v + 16) = .ok t.m ∧
        t.i = (s.i + 16) % 2 ^ 64 ∧
        t.out = s.out ++ (address ++ ascii "\t" ++ data ++ ascii "\n") := by
  unfold dumpLine at h
  split at h
  · rename_i u hr
    cases h
    unfold dumpRound at hr
    by_cases hi : s.i < nb.size
    · rw [if_pos hi] at hr
      by_cases hs : isSafe s.m (dumpStr nb ptr s.i)
      · rw [if_pos hs] at hr
        obtain ⟨address, ha, hr⟩ := bind_eq_ok.mp hr
        obtain ⟨data, hd, hr⟩ := bind_eq_ok.mp hr
        obtain ⟨v, hv, hr⟩ := bind_eq_ok.mp hr
        obtain ⟨m', hm, hr⟩ := bind_eq_ok.mp hr
        cases hr
        exact ⟨hi, hs, address, data, v, ha, hd, hv, hm, rfl, rfl⟩
      · rw [if_neg hs] at hr
        cases hr
    · rw [if_neg hi] at hr
      cases hr
  · cases h

theorem size_dumpLine (h : dumpLine add is64 nb ptr s = some t) : t.m.size = s.m.size := by
  obtain ⟨-, -, _, _, _, -, -, -, hm, -⟩ := dumpLine_cases h
  unfold Buffer.storeField at hm
  split at hm
  · rw [← Checked.ok.inj hm]
    exact Buffer.size_put
  · cases hm

/-! ## The run -/

/-- Moving on by less than the address space moves the difference by as much. -/
theorem int64_add {z : Int} {k : Nat} (h0 : 0 ≤ int64 z) (h : int64 z + k < 2 ^ 63) :
    int64 (z + k) = int64 z + k := by
  unfold int64 at *
  simp only [Int.bmod_def] at *
  split_ifs at * <;> omega

/-- After `n` lines the counter is at byte `16 * n`, and the lines printed started in the map. -/
structure AfterLines (m : Buffer) (z : Int) (n : Nat) (t : DumpLoop) : Prop where
  counter : t.i = 16 * n
  size : t.m.size = m.size
  safe : 0 < n → 0 ≤ int64 z ∧ int64 z + 16 * (n - 1 : Nat) ≤ mapSize m

theorem AfterLines.le {z : Int} (h : AfterLines m z n t) : n ≤ mapSize m / 16 + 1 := by
  rcases Nat.eq_zero_or_pos n with rfl | hn
  · exact Nat.zero_le _
  · have hs := h.safe hn
    omega

theorem AfterLines.next {u : DumpLoop} (h : AfterLines m (ptr + nb.offset) n t)
    (hu : dumpLine add is64 nb ptr t = some u) : AfterLines m (ptr + nb.offset) (n + 1) u := by
  have hg := mapSize_lt m
  have hn := h.le
  obtain ⟨-, ⟨h0, hs⟩, _, _, _, -, -, -, -, hi, -⟩ := dumpLine_cases hu
  rw [dumpStr, h.counter] at h0 hs
  rw [h.counter] at hi
  have hmap : mapSize t.m = mapSize m := by rw [mapSize, h.size, mapSize]
  rw [hmap] at hs
  refine ⟨?_, (size_dumpLine hu).trans h.size, fun _ => ?_⟩
  · rw [hi, Nat.mod_eq_of_lt (by omega)]
    omega
  · -- the address of the line is 16 behind that of the line before, which lay in the map
    rcases Nat.eq_zero_or_pos n with rfl | hpos
    · simpa using And.intro h0 hs
    · obtain ⟨hz, hle⟩ := h.safe hpos
      have hadd := int64_add (k := 16 * n) hz (by omega)
      rw [hadd] at hs
      refine ⟨hz, ?_⟩
      rw [Nat.add_sub_cancel]
      exact hs

theorem afterLines_start (m : Buffer) (z : Int) : AfterLines m z 0 (dumpStart m) :=
  ⟨rfl, rfl, fun h0 => absurd h0 (Nat.lt_irrefl 0)⟩

theorem afterLines (h : StepsN (dumpLine add is64 nb ptr) n (dumpStart m) t) :
    AfterLines m (ptr + nb.offset) n t := by
  apply h.invariant (I := fun n t => AfterLines m (ptr + nb.offset) n t)
  · exact afterLines_start m _
  · intro n t u ht hu
    exact ht.next hu

/-- The loop ends for every size, offset, slice base and map: no run of it prints more lines than
one and those that start in the map, the counter is 16 for each line and far from wrapping, and
there is a round that prints none. -/
theorem dump_terminates (m : Buffer) (add : Nat) (is64 : Bool) (nb : TNb) (ptr : Nat) :
    (∀ n t, StepsN (dumpLine add is64 nb ptr) n (dumpStart m) t →
      n ≤ mapSize m / 16 + 1 ∧ t.i = 16 * n ∧ t.i + 16 < 2 ^ 64) ∧
    ∃ n t, StepsN (dumpLine add is64 nb ptr) n (dumpStart m) t ∧
      ∀ u, dumpRound add is64 nb ptr t ≠ .ok (.line u) := by
  have hg := mapSize_lt m
  have hrun : ∀ n t, StepsN (dumpLine add is64 nb ptr) n (dumpStart m) t →
      n ≤ mapSize m / 16 + 1 ∧ t.i = 16 * n ∧ t.i + 16 < 2 ^ 64 := by
    intro n t ht
    have ha := afterLines ht
    have hle := ha.le
    have hi := ha.counter
    exact ⟨hle, hi, by omega⟩
  refine ⟨hrun, ?_⟩
  obtain ⟨n, t, ht, he⟩ := StepsN.exists_final fun n t ht => (hrun n t ht).1
  refine ⟨n, t, ht, fun u hu => ?_⟩
  unfold dumpLine at he
  rw [hu] at he
  cases he

/-! ## The rounds of `dumpSection` -/

/-- In an address space without a wrap the two bounds checks agree. -/
theorem isSafe_dumpStr {i : Nat} (h : ptr + nb.offset + i < 2 ^ 64) :
    isSafe m (dumpStr nb ptr i) ↔ isSafe m (ptr + nb.offset + i : Nat) := by
  have hg := mapSize_lt m
  unfold isSafe dumpStr int64
  rw [Int.bmod_def]
  split <;> omega

theorem dumpStr_of_isSafe {i : Nat} (h : ptr + nb.offset + i < 2 ^ 64)
    (hs : isSafe m (ptr + nb.offset + i : Nat)) : (dumpStr nb ptr i).toNat = ptr + nb.offset + i := by
  have hg := mapSize_lt m
  unfold isSafe at hs
  unfold dumpStr int64
  rw [Int.bmod_def]
  split <;> omega

/-- `dumpSectionFrom` from the round `s` on, behind what is printed already. -/
def resume (add : Nat) (is64 : Bool) (nb : TNb) (ptr fuel : Nat) (s : DumpLoop) :
    Checked (Int × List UInt8 × Buffer) :=
  dumpSectionFrom add is64 nb ptr fuel s.i s.m >>= fun r => pure (r.1, s.out ++ r.2.1, r.2.2)

/-- What the loop ends with in a round that prints no line. -/
def dumpEnd (add : Nat) (is64 : Bool) (nb : TNb) (ptr : Nat) (s : DumpLoop) :
    Checked (Int × List UInt8 × Buffer) :=
  match dumpRound add is64 nb ptr s with
  | .ok (.stop ret) => .ok (ret, s.out, s.m)
  | _ => .fault

theorem resume_line (hp : ptr + nb.offset + s.i < 2 ^ 64) (hi : s.i + 16 < 2 ^ 64)
    (h : dumpLine add is64 nb ptr s = some t) :
    resume add is64 nb ptr (fuel + 1) s = resume add is64 nb ptr fuel t := by
  obtain ⟨hlt, hs, address, data, v, ha, hd, hv, hm, hti, hto⟩ := dumpLine_cases h
  rw [isSafe_dumpStr hp] at hs
  rw [dumpStr_of_isSafe hp hs] at hd
  unfold resume
  rw [dumpSectionFrom, if_pos hlt]
  simp only
  rw [if_pos hs, ha, ok_bind, hd, ok_bind, hv, ok_bind, hm, ok_bind, hti, Nat.mod_eq_of_lt hi, hto]
  cases dumpSectionFrom add is64 nb ptr fuel (s.i + 16) t.m with
  | ok r => simp only [ok_bind, pure_eq, List.append_assoc]
  | fault => rfl

theorem resume_end (hp : ptr + nb.offset + s.i < 2 ^ 64)
    (h : dumpLine add is64 nb ptr s = none) :
    resume add is64 nb ptr (fuel + 1) s = dumpEnd add is64 nb ptr s := by
  unfold resume
  unfold dumpSectionFrom
  simp only
  unfold dumpLine dumpRound at h
  unfold dumpEnd dumpRound
  by_cases hlt : s.i < nb.size
  · rw [if_pos hlt] at h ⊢
    rw [if_pos hlt]
    by_cases hs : isSafe s.m (ptr + nb.offset + s.i : Nat)
    · rw [if_pos hs]
      rw [if_pos ((isSafe_dumpStr hp).mpr hs), dumpStr_of_isSafe hp hs] at h ⊢
      -- a round that gets past its accesses prints a line
      cases ha : hexdumpAddress s.m add is64 with
      | fault => rfl
      | ok address =>
      cases hd : hexdumpData s.m (ptr + nb.offset + s.i) s.i nb.size with
      | fault => rfl
      | ok data =>
      cases hv : s.m.field (wordSize is64) add with
      | fault => rfl
      | ok v =>
      cases hm : s.m.storeField (wordSize is64) add (v + 16) with
      | fault => simp only [ok_bind, hm, fault_bind]
      | ok m' =>
        rw [ha, ok_bind, hd, ok_bind, hv, ok_bind, hm] at h
        cases h
    · rw [if_neg hs, if_neg fun e => hs ((isSafe_dumpStr hp).mp e)]
      simp only [pure_eq, ok_bind, List.append_nil]
  · rw [if_neg hlt, if_neg hlt]
    simp only [pure_eq, ok_bind, List.append_nil]

theorem resume_run (hptr : ptr + nb.offset < 2 ^ 63)
    (h : StepsN (dumpLine add is64 nb ptr) n (dumpStart m) t) :
    ∀ fuel, resume add is64 nb ptr (fuel + n) (dumpStart m) = resume add is64 nb ptr fuel t := by
  have hg := mapSize_lt m
  have hrun : AfterLines m (ptr + nb.offset) n t ∧ ∀ fuel,
      resume add is64 nb ptr (fuel + n) (dumpStart m) = resume add is64 nb ptr fuel t := by
    apply h.invariant (I := fun n t => AfterLines m (ptr + nb.offset) n t ∧ ∀ fuel,
      resume add is64 nb ptr (fuel + n) (dumpStart m) = resume add is64 nb ptr fuel t)
    · exact ⟨afterLines_start m _, fun _ => rfl⟩
    · rintro n t u ⟨ht, ih⟩ hu
      have hle := ht.le
      have hi := ht.counter
      refine ⟨ht.next hu, fun fuel => ?_⟩
      rw [show fuel + (n + 1) = fuel + 1 + n from Nat.add_right_comm fuel n 1, ih,
        resume_line (by omega) (by omega) hu]
  exact hrun.2

/-- `dumpSection` does what the rounds do: its fuel lasts until the round that prints no line. -/
theorem dumpSection_rounds (hptr : ptr + nb.offset < 2 ^ 63) :
    ∃ n t, StepsN (dumpLine add is64 nb ptr) n (dumpStart m) t ∧
      dumpLine add is64 nb ptr t = none ∧
      dumpSection m add is64 nb ptr = dumpEnd add is64 nb ptr t := by
  have hg := mapSize_lt m
  obtain ⟨n, t, ht, he⟩ : ∃ n t, StepsN (dumpLine add is64 nb ptr) n (dumpStart m) t ∧
      dumpLine add is64 nb ptr t = none :=
    StepsN.exists_final fun n t ht => (afterLines ht).le
  have hle := (afterLines ht).le
  have hi := (afterLines ht).counter
  have hrun := resume_run hptr ht (2 ^ 28 + 1 - n + 1)
  rw [show 2 ^ 28 + 1 - n + 1 + n = 2 ^ 28 + 2 by omega, resume_end (by omega) he] at hrun
  refine ⟨n, t, ht, he, ?_⟩
  rw [← hrun, resume, dumpSection, dumpStart]
  cases dumpSectionFrom add is64 nb ptr (2 ^ 28 + 2) 0 m <;> rfl

end NmOtool.Otool
