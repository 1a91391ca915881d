import NmOtool.Base.Fill
import NmOtool.Printf.Text

/-!
# libft: moving bytes

`ft_memcpy` copies upwards. Where its destination begins inside the source it comes to read what it
has written, and repeats the bytes in front of the destination; there `ft_memmove` copies downwards,
and so never does. `ft_strrev` exchanges the bytes of a string from both ends.
-/

namespace NmOtool

open MachO Checked

/-! ## The code -/

/-- The loop of `ft_memcpy`, with `n` bytes left. -/
def ftMemcpyFrom : Nat → Nat → Nat → Buffer → Checked Buffer
  | 0, _, _, m => pure m
  | n + 1, dest, src, m => do
    let c ← m.load src
    let m ← m.store dest c
    ftMemcpyFrom n (dest + 1) (src + 1) m

def ftMemcpy (m : Buffer) (dest src n : Nat) : Checked Buffer := ftMemcpyFrom n dest src m

/-- The loop of `ft_memmove`. -/
def ftMemmoveFrom (dest src : Nat) : Nat → Buffer → Checked Buffer
  | 0, m => pure m
  | n + 1, m => do
    let c ← m.load (src + n)
    let m ← m.store (dest + n) c
    ftMemmoveFrom dest src n m

def ftMemmove (m : Buffer) (dest src n : Nat) : Checked Buffer :=
  if dest ≤ src then ftMemcpy m dest src n else ftMemmoveFrom dest src n m

/-- `ft_swap` of `ft_strrev.c`. -/
def ftSwap (m : Buffer) (a b : Nat) : Checked Buffer := do
  let tmp ← m.load a
  let c ← m.load b
  let m ← m.store a c
  m.store b tmp

/-- The second loop of `ft_strrev`. -/
def ftStrrevFrom (str size : Nat) : Nat → Nat → Buffer → Checked Buffer
  | 0, _, m => pure m
  | i + 1, y, m =>
    if i + 1 > size / 2 then do
      let m ← ftSwap m (str + y) (str + i)
      ftStrrevFrom str size i (y + 1) m
    else pure m

/-- `ft_strrev`; the index that counts the bytes is an `int`. -/
def ftStrrev (m : Buffer) (str : Nat) : Checked Buffer := do
  let s ← ftStr m str
  let size := s.length
  if size < 2 ^ 31 then ftStrrevFrom str size size 0 m else .fault

/-! ## Copies -/

variable {m : Buffer} {dest src n i k p y : Nat} {s : List UInt8} {c : UInt8}

/-- The source of the byte that `ft_memcpy` writes at index `i`. -/
def sourceOf (dest src i : Nat) : Nat := if src < dest then i % (dest - src) else i

theorem sourceOf_zero : sourceOf dest src 0 = 0 := by
  unfold sourceOf
  split
  · exact Nat.zero_mod _
  · rfl

/-- The bytes that `ft_memcpy` writes. -/
def copied (m : Buffer) (dest src n : Nat) : List UInt8 :=
  (List.range n).map fun i => m.byte (src + sourceOf dest src i)

@[simp] theorem length_copied : (copied m dest src n).length = n := by
  rw [copied, List.length_map, List.length_range]

/-- What is read next is the byte written a period before, or one that is not written yet. -/
theorem byte_written : (m.write dest [m.byte src]).byte (src + 1 + sourceOf (dest + 1) (src + 1) i) =
    m.byte (src + sourceOf dest src (i + 1)) := by
  unfold sourceOf
  rw [Nat.add_sub_add_right]
  by_cases hlt : src < dest
  · rw [if_pos hlt, if_pos (Nat.succ_lt_succ hlt)]
    obtain ⟨d, rfl⟩ := Nat.exists_eq_add_of_lt hlt
    rw [show src + d + 1 - src = d + 1 by omega]
    have hmod := Nat.mod_lt i (show 0 < d + 1 by omega)
    rcases Nat.lt_or_ge (i % (d + 1) + 1) (d + 1) with hin | hend
    · have hnext : (i + 1) % (d + 1) = i % (d + 1) + 1 := by
        rw [Nat.add_mod_eq_add_mod_right 1 (Nat.mod_mod i (d + 1)).symm, Nat.mod_eq_of_lt hin]
      rw [hnext, Buffer.byte_write_out (.inl (by omega))]
      congr 1
      omega
    · have hlast : i % (d + 1) = d := by omega
      have hnext : (i + 1) % (d + 1) = 0 := by
        rw [Nat.add_mod_eq_add_mod_right 1 (Nat.mod_mod i (d + 1)).symm, hlast, Nat.mod_self]
      rw [hnext, hlast, show src + 1 + d = src + d + 1 + 0 by omega,
        Buffer.byte_write_in (s := [m.byte src]) (Nat.succ_pos 0)]
      rfl
  · rw [if_neg hlt, if_neg (by omega), Buffer.byte_write_out (.inr (by simp; omega))]
    congr 1
    omega

theorem copied_succ : copied m dest src (n + 1) =
    m.byte src :: copied (m.write dest [m.byte src]) (dest + 1) (src + 1) n := by
  rw [copied, copied, List.range_succ_eq_map, List.map_cons, List.map_map, sourceOf_zero]
  congr 1
  exact List.map_congr_left fun i _ => byte_written.symm

theorem ftMemcpyFrom_ok (hd : dest + n ≤ m.size) (hs : src + n ≤ m.size) :
    ftMemcpyFrom n dest src m = .ok (m.write dest (copied m dest src n)) := by
  induction n generalizing dest src m with
  | zero => exact congrArg Checked.ok Buffer.write_nil.symm
  | succ n ih =>
    rw [ftMemcpyFrom, Buffer.load_ok (by omega), ok_bind, Buffer.store_write (by omega), ok_bind,
      ih (by rw [Buffer.size_write]; omega) (by rw [Buffer.size_write]; omega),
      Buffer.write_cons, copied_succ]

theorem ftMemcpyFrom_fault (h : ¬ (dest + (n + 1) ≤ m.size ∧ src + (n + 1) ≤ m.size)) :
    ftMemcpyFrom (n + 1) dest src m = .fault := by
  induction n generalizing dest src m with
  | zero =>
    rw [ftMemcpyFrom]
    by_cases hs : src < m.size
    · rw [Buffer.load_ok hs, ok_bind, Buffer.store_fault (by omega)]
      rfl
    · rw [Buffer.load_fault (by omega)]
      rfl
  | succ n ih =>
    rw [ftMemcpyFrom]
    by_cases hs : src < m.size
    · rw [Buffer.load_ok hs, ok_bind]
      by_cases hd : dest < m.size
      · rw [Buffer.store_write hd, ok_bind, ih (by rw [Buffer.size_write]; omega)]
      · rw [Buffer.store_fault (by omega)]
        rfl
    · rw [Buffer.load_fault (by omega)]
      rfl

/-- Downwards nothing is read that is written. -/
theorem ftMemmoveFrom_ok (hlt : src < dest) (hd : dest + n ≤ m.size) :
    ftMemmoveFrom dest src n m = .ok (m.write dest (m.bytes src n)) := by
  induction n generalizing m with
  | zero => exact congrArg Checked.ok Buffer.write_nil.symm
  | succ n ih =>
    rw [ftMemmoveFrom, Buffer.load_ok (by omega), ok_bind, Buffer.store_write (by omega), ok_bind,
      ih (by rw [Buffer.size_write]; omega), Buffer.bytes_write_out (.inl (by omega)),
      Buffer.write_write_before (by rw [Buffer.length_bytes]), Buffer.bytes_add]
    rfl

/-- Both ranges lie in the memory, unless there is nothing to copy. -/
def CopyInside (m : Buffer) (dest src n : Nat) : Prop :=
  n = 0 ∨ dest + n ≤ m.size ∧ src + n ≤ m.size

instance : Decidable (CopyInside m dest src n) := inferInstanceAs (Decidable (_ ∨ _))

theorem ftMemcpy_eq : ftMemcpy m dest src n =
    if CopyInside m dest src n then .ok (m.write dest (copied m dest src n)) else .fault := by
  rcases n with _ | n
  · rw [if_pos (.inl rfl)]
    exact congrArg Checked.ok Buffer.write_nil.symm
  · split
    · next h =>
      obtain ⟨hd, hs⟩ := h.resolve_left (Nat.succ_ne_zero n)
      exact ftMemcpyFrom_ok hd hs
    · next h => exact ftMemcpyFrom_fault fun hin => h (.inr hin)

theorem copied_forward (h : dest ≤ src) : copied m dest src n = m.bytes src n := by
  apply List.ext_getElem?
  intro k
  rcases Nat.lt_or_ge k n with hk | hk
  · rw [Buffer.getElem?_bytes hk, copied, List.getElem?_map, List.getElem?_range hk, Option.map_some,
      sourceOf, if_neg (Nat.not_lt.mpr h)]
  · rw [List.getElem?_eq_none (by simpa using hk), List.getElem?_eq_none (by simpa using hk)]

/-- The two ways of `ft_memmove` do the same. -/
theorem ftMemmove_eq : ftMemmove m dest src n =
    if CopyInside m dest src n then .ok (m.write dest (m.bytes src n)) else .fault := by
  rw [ftMemmove]
  split
  · next h => rw [ftMemcpy_eq, copied_forward h]
  · next h =>
    rcases n with _ | n
    · rw [if_pos (.inl rfl)]
      exact congrArg Checked.ok Buffer.write_nil.symm
    · split
      · next hin =>
        exact ftMemmoveFrom_ok (Nat.not_le.mp h) (hin.resolve_left (Nat.succ_ne_zero n)).1
      · next hout =>
        -- the destination is the range that ends higher
        have hd : m.size ≤ dest + n := by
          by_contra hlt
          exact hout (.inr ⟨by omega, by omega⟩)
        rw [ftMemmoveFrom]
        by_cases hs : src + n < m.size
        · rw [Buffer.load_ok hs, ok_bind, Buffer.store_fault hd]
          rfl
        · rw [Buffer.load_fault (by omega)]
          rfl

/-- `ft_memmove` writes at `dest` what was at `src` when it was called, wherever the two lie, and
faults exactly if one of them leaves the memory. `ft_memcpy` does the same exactly if one of them
leaves it, or the source has the bytes in front of the destination as a period. -/
theorem memcpy_memmove (m : Buffer) (dest src n : Nat) :
    ftMemmove m dest src n =
        (if CopyInside m dest src n then .ok (m.write dest (m.bytes src n)) else .fault) ∧
      (ftMemcpy m dest src n = ftMemmove m dest src n ↔ ¬ CopyInside m dest src n ∨
        ∀ i, i < n → m.byte (src + i) = m.byte (src + sourceOf dest src i)) := by
  refine ⟨ftMemmove_eq, ?_⟩
  rw [ftMemcpy_eq, ftMemmove_eq]
  by_cases hin : CopyInside m dest src n
  · rw [if_pos hin, if_pos hin]
    have hsame : copied m dest src n = m.bytes src n ↔
        ∀ i, i < n → m.byte (src + i) = m.byte (src + sourceOf dest src i) := by
      constructor
      · intro h i hi
        have hi' := congrArg (·[i]?) h
        rw [Buffer.getElem?_bytes hi, copied, List.getElem?_map, List.getElem?_range hi] at hi'
        exact (Option.some.inj hi').symm
      · intro h
        apply List.ext_getElem?
        intro i
        rcases Nat.lt_or_ge i n with hi | hi
        · rw [Buffer.getElem?_bytes hi, h i hi, copied, List.getElem?_map, List.getElem?_range hi]
          rfl
        · rw [List.getElem?_eq_none (by simpa using hi), List.getElem?_eq_none (by simpa using hi)]
    rw [← hsame]
    constructor
    · intro h
      have hw : m.write dest (copied m dest src n) = m.write dest (m.bytes src n) :=
        Checked.ok.inj h
      have hbytes := congrArg (fun b => b.bytes dest n) hw
      have h1 := Buffer.bytes_write_self (m := m) (p := dest) (s := copied m dest src n)
      have h2 := Buffer.bytes_write_self (m := m) (p := dest) (s := m.bytes src n)
      rw [length_copied] at h1
      rw [Buffer.length_bytes] at h2
      exact .inr (h1.symm.trans (hbytes.trans h2))
    · intro h
      rw [h.resolve_left fun hno => hno hin]
  · rw [if_neg hin, if_neg hin]
    exact ⟨fun _ => .inl hin, fun _ => rfl⟩

/-! ## Reversal -/

/-- The buffer with `y` bytes at either end of `[p, p + n)` exchanged. -/
def mirror (m : Buffer) (p n y : Nat) : Buffer where
  size := m.size
  byte q := if p ≤ q ∧ q < p + n ∧ (q < p + y ∨ p + n ≤ q + y) then m.byte (p + (p + n - 1 - q))
    else m.byte q

theorem byte_mirror_in (h : p ≤ i ∧ i < p + n ∧ (i < p + y ∨ p + n ≤ i + y)) :
    (mirror m p n y).byte i = m.byte (p + (p + n - 1 - i)) := if_pos h

theorem byte_mirror_out (h : ¬ (p ≤ i ∧ i < p + n ∧ (i < p + y ∨ p + n ≤ i + y))) :
    (mirror m p n y).byte i = m.byte i := if_neg h

theorem mirror_zero : mirror m p n 0 = m :=
  Buffer.eq_of_bytes (p := p) (n := 0) rfl rfl fun q _ => if_neg (by omega)

theorem mirror_half (h : n ≤ 2 * y) : mirror m p n y = m.reverse p n :=
  Buffer.eq_of_bytes (p := p) (n := 0) rfl rfl fun q _ => if_congr (by omega) rfl rfl

theorem ftSwap_ok {a b : Nat} (ha : a < m.size) (hb : b < m.size) : ftSwap m a b = .ok
    { m with byte := fun q => if q = b then m.byte a else if q = a then m.byte b else m.byte q } := by
  rw [ftSwap, Buffer.load_ok ha, ok_bind, Buffer.load_ok hb, ok_bind, Buffer.store, if_pos ha,
    ok_bind]
  exact if_pos hb

/-- One exchange; the byte in the middle is exchanged with itself. -/
theorem ftSwap_mirror (hp : p + n ≤ m.size) (hy : 2 * y < n) :
    ftSwap (mirror m p n y) (p + y) (p + (n - 1 - y)) = .ok (mirror m p n (y + 1)) := by
  have hsize : (mirror m p n y).size = m.size := rfl
  rw [ftSwap_ok (by omega) (by omega), byte_mirror_out (by omega), byte_mirror_out (by omega)]
  refine congrArg Checked.ok (Buffer.eq_of_bytes (p := p) (n := 0) rfl rfl fun q _ => ?_)
  change (if q = p + (n - 1 - y) then m.byte (p + y) else
    if q = p + y then m.byte (p + (n - 1 - y)) else (mirror m p n y).byte q) = _
  by_cases hlast : q = p + (n - 1 - y)
  · rw [if_pos hlast, byte_mirror_in (by omega), show p + n - 1 - q = y by omega]
  rw [if_neg hlast]
  by_cases hfirst : q = p + y
  · rw [if_pos hfirst, byte_mirror_in (by omega), show p + n - 1 - q = n - 1 - y by omega]
  rw [if_neg hfirst]
  by_cases hdone : p ≤ q ∧ q < p + n ∧ (q < p + y ∨ p + n ≤ q + y)
  · rw [byte_mirror_in hdone, byte_mirror_in (by omega)]
  · rw [byte_mirror_out hdone, byte_mirror_out (by omega)]

/-- The cursors `y` and `i` meet in the middle. -/
theorem ftStrrevFrom_mirror (hp : p + n ≤ m.size) (hi : i + y = n) :
    ftStrrevFrom p n i y (mirror m p n y) = .ok (m.reverse p n) := by
  induction i generalizing y with
  | zero => rw [ftStrrevFrom, mirror_half (by omega), pure_eq]
  | succ i ih =>
    rw [ftStrrevFrom]
    split
    · rw [show i = n - 1 - y by omega, ftSwap_mirror hp (by omega), ok_bind,
        show n - 1 - y = i by omega]
      exact ih (by omega)
    · rw [mirror_half (by omega), pure_eq]

/-- `ft_strrev` reverses every string of fewer than 2 ^ 31 bytes where it stands, and reverses it
back. -/
theorem ftStrrev_reverses (h : m.Terminated p) (hlen : (m.cstr p).length < 2 ^ 31) :
    let m' := m.reverse p (m.cstr p).length
    ftStrrev m p = .ok m' ∧ m'.cstr p = (m.cstr p).reverse ∧ ftStrrev m' p = .ok m := by
  have hrun : ∀ {m : Buffer}, m.Terminated p → (m.cstr p).length < 2 ^ 31 →
      ftStrrev m p = .ok (m.reverse p (m.cstr p).length) := by
    intro m h hlen
    obtain ⟨hsize, -⟩ := Buffer.bytes_cstr h
    rw [ftStrrev, ftStr_terminated h, ok_bind]
    simp only
    rw [if_pos hlen]
    have hloop := ftStrrevFrom_mirror (m := m) (y := 0) (Nat.le_of_lt hsize) rfl
    rwa [mirror_zero] at hloop
  obtain ⟨hsize, hbytes⟩ := Buffer.bytes_cstr h
  have hsplit := hbytes
  rw [Buffer.bytes_add] at hsplit
  obtain ⟨htext, hnul⟩ := List.append_inj hsplit Buffer.length_bytes
  generalize hn : (m.cstr p).length = n at *
  have hnul' : (m.reverse p n).bytes (p + n) 1 = [0] := by
    rw [Buffer.bytes_reverse_out (.inr (Nat.le_refl _)), hnul]
  have hreversed : (m.reverse p n).cstr p = (m.cstr p).reverse := by
    have hlen' : (m.cstr p).reverse.length = n := by rw [List.length_reverse, hn]
    refine Buffer.cstr_of_bytes (fun b hb => Buffer.cstr_ne_zero b (List.mem_reverse.mp hb)) ?_ ?_
    · rw [hlen']
      exact hsize
    · rw [hlen', Buffer.bytes_add, Buffer.bytes_reverse_self, htext, hnul']
  have hterm : (m.reverse p n).Terminated p :=
    ⟨p + n, Nat.le_add_right p n, hsize, (List.cons.inj hnul').1⟩
  refine ⟨hn ▸ hrun h (hn ▸ hlen), hreversed, ?_⟩
  have hback := hrun hterm (by rw [hreversed, List.length_reverse, hn]; exact hlen)
  rwa [hreversed, List.length_reverse, hn, reverse_reverse] at hback

theorem ftStrrev_reverses_abc :
    let m : Buffer := .ofBytes 4 (ascii "abc")
    let m' := m.reverse 0 (m.cstr 0).length
    ftStrrev m 0 = .ok m' ∧ m'.cstr 0 = (m.cstr 0).reverse ∧ ftStrrev m' 0 = .ok m :=
  ftStrrev_reverses ⟨3, by decide, by decide, by decide⟩ (by decide)

end NmOtool
