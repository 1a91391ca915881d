import NmOtool.Base.Checked
import NmOtool.Base.ByteOrder

/-!
# Bounds-checked buffers

A `Buffer` is a run of bytes of known size. Every access is checked: `load` and `field` fault
unless the bytes they read lie in the buffer, `store` unless the byte it writes does. `reverse`
is the effect of reversing a range in place, `Holds p bs` says that the bytes `bs` lie at `p`,
and `cstr p` is the NUL-terminated string at `p`.
-/

namespace NmOtool

/-- A run of `size` bytes; only the bytes below `size` are the buffer's. -/
structure Buffer where
  size : Nat
  byte : Nat → UInt8

namespace Buffer

variable {m : Buffer} {p q n k : Nat}

/-- A buffer of `size` bytes that begins with `bs`, and with zeros behind them. -/
def ofBytes (size : Nat) (bs : List UInt8) : Buffer := ⟨size, fun p => bs.getD p 0⟩

/-- The bytes `[p, p + n)`. -/
def bytes (m : Buffer) (p : Nat) : Nat → List UInt8
  | 0 => []
  | n + 1 => m.byte p :: m.bytes (p + 1) n

/-- The `n`-byte little-endian value at `p`. -/
def le (m : Buffer) (n p : Nat) : Nat := ofLE (m.bytes p n)

/-- A checked byte read. -/
def load (m : Buffer) (p : Nat) : Checked UInt8 :=
  if p < m.size then .ok (m.byte p) else .fault

/-- A checked byte write. -/
def store (m : Buffer) (p : Nat) (b : UInt8) : Checked Buffer :=
  if p < m.size then .ok { m with byte := fun q => if q = p then b else m.byte q } else .fault

/-- A checked read of an `n`-byte little-endian field. -/
def field (m : Buffer) (n p : Nat) : Checked Nat :=
  if p + n ≤ m.size then .ok (m.le n p) else .fault

/-- The buffer with the `n`-byte little-endian `v` at `p`. -/
def put (m : Buffer) (n p v : Nat) : Buffer where
  size := m.size
  byte q := if p ≤ q ∧ q < p + n then (toLE n v).getD (q - p) 0 else m.byte q

/-- A checked write of an `n`-byte little-endian field. -/
def storeField (m : Buffer) (n p v : Nat) : Checked Buffer :=
  if p + n ≤ m.size then .ok (m.put n p v) else .fault

@[simp] theorem bytes_zero : m.bytes p 0 = [] := rfl

@[simp] theorem bytes_succ : m.bytes p (n + 1) = m.byte p :: m.bytes (p + 1) n := rfl

@[simp] theorem length_bytes : (m.bytes p n).length = n := by
  induction n generalizing p with
  | zero => rfl
  | succ n ih => simp [ih]

theorem bytes_add : m.bytes p (n + k) = m.bytes p n ++ m.bytes (p + n) k := by
  induction n generalizing p with
  | zero => simp
  | succ n ih =>
    rw [Nat.add_right_comm, bytes_succ, ih, bytes_succ, List.cons_append,
      show p + 1 + n = p + (n + 1) by omega]

theorem getElem?_bytes (h : k < n) : (m.bytes p n)[k]? = some (m.byte (p + k)) := by
  induction n generalizing p k with
  | zero => omega
  | succ n ih =>
    cases k with
    | zero => simp
    | succ k => rw [bytes_succ, List.getElem?_cons_succ, ih (by omega)]; congr 2; omega

theorem take_bytes (h : k ≤ n) : (m.bytes p n).take k = m.bytes p k := by
  obtain ⟨d, rfl⟩ := Nat.exists_eq_add_of_le h
  rw [bytes_add, List.take_left' length_bytes]

theorem drop_bytes : (m.bytes p n).drop k = m.bytes (p + k) (n - k) := by
  rcases Nat.le_total k n with h | h
  · obtain ⟨d, rfl⟩ := Nat.exists_eq_add_of_le h
    rw [bytes_add, List.drop_left' length_bytes, Nat.add_sub_cancel_left]
  · rw [List.drop_eq_nil_of_le (by simpa using h), show n - k = 0 by omega, bytes_zero]

theorem bytes_congr {m' : Buffer} (h : ∀ i, i < n → m.byte (p + i) = m'.byte (q + i)) :
    m.bytes p n = m'.bytes q n := by
  induction n generalizing p q with
  | zero => rfl
  | succ n ih =>
    rw [bytes_succ, bytes_succ]
    congr 1
    · simpa using h 0 (by omega)
    · apply ih
      intro i hi
      have := h (i + 1) (by omega)
      rwa [show p + (i + 1) = p + 1 + i by omega, show q + (i + 1) = q + 1 + i by omega] at this

theorem byte_of_bytes {m' : Buffer} (h : m.bytes p n = m'.bytes q n) (hk : k < n) :
    m.byte (p + k) = m'.byte (q + k) := by
  have := congrArg (·[k]?) h
  simpa [getElem?_bytes hk] using this

theorem le_congr {m' : Buffer} (h : ∀ i, i < n → m.byte (p + i) = m'.byte (q + i)) :
    m.le n p = m'.le n q := by
  rw [le, le, bytes_congr h]

theorem le_lt : m.le n p < 256 ^ n := by
  simpa [le] using ofLE_lt (m.bytes p n)

theorem load_ok (h : p < m.size) : m.load p = .ok (m.byte p) := if_pos h

theorem load_fault (h : m.size ≤ p) : m.load p = .fault := if_neg (by omega)

theorem field_ok (h : p + n ≤ m.size) : m.field n p = .ok (m.le n p) := if_pos h

theorem field_fault (h : m.size < p + n) : m.field n p = .fault := if_neg (by omega)

theorem returns_load {P : UInt8 → Prop} : (m.load p).Returns P ↔ p < m.size ∧ P (m.byte p) := by
  unfold load
  split <;> simp [*]

theorem returns_field {P : Nat → Prop} :
    (m.field n p).Returns P ↔ p + n ≤ m.size ∧ P (m.le n p) := by
  unfold field
  split <;> simp [*]

/-- Two buffers that differ nowhere outside a range and not in it. -/
theorem eq_of_bytes {m' : Buffer} (hs : m'.size = m.size) (hin : m'.bytes p n = m.bytes p n)
    (hout : ∀ q, q < p ∨ p + n ≤ q → m'.byte q = m.byte q) : m' = m := by
  have hbyte : ∀ q, m'.byte q = m.byte q := by
    intro q
    by_cases hq : p ≤ q ∧ q < p + n
    · obtain ⟨k, rfl⟩ := Nat.exists_eq_add_of_le hq.1
      exact byte_of_bytes hin (by omega)
    · exact hout q (by omega)
  calc m' = ⟨m'.size, m'.byte⟩ := rfl
    _ = ⟨m.size, m.byte⟩ := by rw [hs, funext hbyte]

/-! ## Writing a field -/

@[simp] theorem size_put {v : Nat} : (m.put n p v).size = m.size := rfl

theorem storeField_ok {v : Nat} (h : p + n ≤ m.size) : m.storeField n p v = .ok (m.put n p v) :=
  if_pos h

theorem byte_put_out {v : Nat} (h : q < p ∨ p + n ≤ q) : (m.put n p v).byte q = m.byte q :=
  if_neg (by omega)

theorem bytes_put_self {v : Nat} : (m.put n p v).bytes p n = toLE n v := by
  apply List.ext_getElem?
  intro k
  rcases Nat.lt_or_ge k n with hk | hk
  · rw [getElem?_bytes hk, put]
    simp only
    rw [if_pos (by omega), Nat.add_sub_cancel_left, List.getD_eq_getElem?_getD,
      List.getElem?_eq_getElem (by simpa using hk), Option.getD_some]
  · rw [List.getElem?_eq_none (by simpa using hk), List.getElem?_eq_none (by simpa using hk)]

theorem le_put_self {v : Nat} : (m.put n p v).le n p = v % 256 ^ n := by
  rw [le, bytes_put_self, ofLE_toLE_mod]

theorem put_put {v v' : Nat} : (m.put n p v).put n p v' = m.put n p v' :=
  eq_of_bytes rfl (bytes_put_self.trans bytes_put_self.symm) fun q hq => by
    rw [byte_put_out hq, byte_put_out hq, byte_put_out hq]

theorem put_mod {v : Nat} : m.put n p (v % 256 ^ n) = m.put n p v :=
  eq_of_bytes rfl (by rw [bytes_put_self, bytes_put_self, toLE_mod]) fun q hq => by
    rw [byte_put_out hq, byte_put_out hq]

theorem put_self : m.put n p (m.le n p) = m := by
  refine eq_of_bytes rfl ?_ fun q hq => byte_put_out hq
  have hbytes : toLE n (ofLE (m.bytes p n)) = m.bytes p n := by simpa using toLE_ofLE (m.bytes p n)
  exact bytes_put_self.trans hbytes

/-! ## Reversing a range -/

/-- The buffer with the bytes `[p, p + n)` reversed. -/
def reverse (m : Buffer) (p n : Nat) : Buffer where
  size := m.size
  byte q := if p ≤ q ∧ q < p + n then m.byte (p + (p + n - 1 - q)) else m.byte q

@[simp] theorem size_reverse : (m.reverse p n).size = m.size := rfl

theorem byte_reverse_in (h : k < n) : (m.reverse p n).byte (p + k) = m.byte (p + (n - 1 - k)) := by
  simp only [reverse]
  rw [if_pos (by omega), show p + (p + n - 1 - (p + k)) = p + (n - 1 - k) by omega]

theorem byte_reverse_out (h : q < p ∨ p + n ≤ q) : (m.reverse p n).byte q = m.byte q :=
  if_neg (by omega)

theorem bytes_reverse_self : (m.reverse p n).bytes p n = (m.bytes p n).reverse := by
  apply List.ext_getElem?
  intro k
  rcases Nat.lt_or_ge k n with hk | hk
  · rw [getElem?_bytes hk, byte_reverse_in hk, List.getElem?_reverse (by simpa using hk),
      length_bytes, getElem?_bytes (by omega)]
  · rw [List.getElem?_eq_none (by simpa using hk), List.getElem?_eq_none (by simpa using hk)]

theorem bytes_reverse_out (h : q + k ≤ p ∨ p + n ≤ q) :
    (m.reverse p n).bytes q k = m.bytes q k :=
  bytes_congr fun _ _ => byte_reverse_out (by omega)

theorem le_reverse_out (h : q + k ≤ p ∨ p + n ≤ q) : (m.reverse p n).le k q = m.le k q := by
  rw [le, bytes_reverse_out h, le]

theorem le_reverse_self : (m.reverse p n).le n p = byteSwap n (m.le n p) := by
  rw [le, bytes_reverse_self, byteSwap, le]
  conv_rhs => rw [show toLE n (ofLE (m.bytes p n)) = m.bytes p n by
    simpa using toLE_ofLE (m.bytes p n)]

/-- The bytes `[p, p + n)` read the same backwards. -/
def Mirrored (m : Buffer) (p n : Nat) : Prop := (m.bytes p n).reverse = m.bytes p n

instance (m : Buffer) (p n : Nat) : Decidable (m.Mirrored p n) :=
  inferInstanceAs (Decidable (_ = _))

theorem reverse_of_mirrored (h : m.Mirrored p n) : m.reverse p n = m :=
  eq_of_bytes rfl (bytes_reverse_self.trans h) fun _ hq => byte_reverse_out hq

/-! ## Contents -/

/-- The bytes `bs` lie in the buffer at `p`. -/
def Holds (m : Buffer) (p : Nat) (bs : List UInt8) : Prop :=
  p + bs.length ≤ m.size ∧ m.bytes p bs.length = bs

instance (m : Buffer) (p : Nat) (bs : List UInt8) : Decidable (m.Holds p bs) :=
  inferInstanceAs (Decidable (_ ∧ _))

theorem holds_append {as bs : List UInt8} :
    m.Holds p (as ++ bs) ↔ m.Holds p as ∧ m.Holds (p + as.length) bs := by
  unfold Holds
  rw [List.length_append, bytes_add]
  constructor
  · rintro ⟨hs, hb⟩
    obtain ⟨h1, h2⟩ := List.append_inj hb (by simp)
    exact ⟨⟨by omega, h1⟩, by omega, h2⟩
  · rintro ⟨⟨-, h1⟩, h2, h3⟩
    exact ⟨by omega, by rw [h1, h3]⟩

theorem Holds.byte {bs : List UInt8} {b : UInt8} (h : m.Holds p bs) (hk : bs[k]? = some b) :
    m.byte (p + k) = b := by
  obtain ⟨hlt, rfl⟩ := List.getElem?_eq_some_iff.mp hk
  have := getElem?_bytes (m := m) (p := p) hlt
  rw [h.2, List.getElem?_eq_getElem hlt] at this
  exact (Option.some.inj this).symm

theorem Holds.congr {m' : Buffer} {bs : List UInt8} (h : m.Holds p bs) (hs : m.size = m'.size)
    (hb : ∀ i, i < bs.length → m'.byte (p + i) = m.byte (p + i)) : m'.Holds p bs :=
  ⟨hs ▸ h.1, (bytes_congr hb).trans h.2⟩

theorem Holds.le {o : ByteOrder} {w v : Nat} (h : m.Holds p (o.encode w v)) (hv : v < 256 ^ w) :
    m.le w p = o.read w v := by
  have h2 := h.2
  rw [ByteOrder.length_encode] at h2
  rw [Buffer.le, h2, o.ofLE_encode hv]

/-- A part of what the buffer holds. -/
theorem Holds.part {pre mid post : List UInt8} (h : m.Holds p (pre ++ mid ++ post)) :
    m.Holds (p + pre.length) mid :=
  (holds_append.mp (holds_append.mp h).1).2

/-- A table of entries of `n` bytes each holds entry `i` at its place. -/
theorem Holds.flatMap {α : Type*} {f : α → List UInt8} {as : List α} {n i : Nat}
    (h : m.Holds p (as.flatMap f)) (hn : ∀ a ∈ as, (f a).length = n) (hi : i < as.length) :
    m.Holds (p + i * n) (f as[i]) := by
  induction as generalizing p i with
  | nil => simp at hi
  | cons a as ih =>
    rw [List.flatMap_cons, holds_append, hn a List.mem_cons_self] at h
    cases i with
    | zero => simpa using h.1
    | succ i =>
      have := ih h.2 (fun a ha => hn a (List.mem_cons_of_mem _ ha)) (by simpa using hi)
      rwa [Nat.add_assoc, Nat.add_comm n, ← Nat.succ_mul] at this

theorem holds_ofBytes {size : Nat} {bs : List UInt8} (h : bs.length ≤ size) :
    (ofBytes size bs).Holds 0 bs := by
  refine ⟨by simpa [ofBytes] using h, ?_⟩
  apply List.ext_getElem?
  intro k
  rcases Nat.lt_or_ge k bs.length with hk | hk
  · rw [getElem?_bytes hk, List.getElem?_eq_getElem hk]
    simp [ofBytes, hk]
  · rw [List.getElem?_eq_none (by simpa using hk), List.getElem?_eq_none hk]

theorem holds_ofBytes_zeros {size n p : Nat} {bs : List UInt8} (hp : bs.length ≤ p)
    (h : p + n ≤ size) : (ofBytes size bs).Holds p (List.replicate n 0) := by
  refine ⟨by simpa [ofBytes] using h, ?_⟩
  rw [List.length_replicate]
  clear h
  induction n generalizing p with
  | zero => rfl
  | succ n ih =>
    rw [bytes, ih (by omega), List.replicate_succ]
    exact congrArg (· :: _) (List.getD_eq_default _ _ hp)

/-! ## Agreement -/

/-- `m'` has the size of `m` and the same bytes at the addresses of `S`. -/
structure AgreeOn (S : Nat → Prop) (m m' : Buffer) : Prop where
  size : m'.size = m.size
  byte : ∀ q, S q → m'.byte q = m.byte q

section
variable {S : Nat → Prop} {m' : Buffer}

theorem AgreeOn.refl : AgreeOn S m m := ⟨rfl, fun _ _ => rfl⟩

theorem AgreeOn.trans {m₂ : Buffer} (h : AgreeOn S m m') (h' : AgreeOn S m' m₂) :
    AgreeOn S m m₂ :=
  ⟨h'.size.trans h.size, fun q hq => (h'.byte q hq).trans (h.byte q hq)⟩

theorem AgreeOn.mono {T : Nat → Prop} (h : AgreeOn S m m') (hT : ∀ q, T q → S q) :
    AgreeOn T m m' :=
  ⟨h.size, fun q hq => h.byte q (hT q hq)⟩

theorem AgreeOn.le (h : AgreeOn S m m') (hS : ∀ k, k < n → S (p + k)) : m'.le n p = m.le n p :=
  le_congr fun k hk => h.byte _ (hS k hk)

theorem AgreeOn.load (h : AgreeOn S m m') (hS : S p) : m'.load p = m.load p := by
  rw [Buffer.load, Buffer.load, h.size, h.byte p hS]

theorem AgreeOn.field (h : AgreeOn S m m') (hS : ∀ k, k < n → S (p + k)) :
    m'.field n p = m.field n p := by
  rw [Buffer.field, Buffer.field, h.size, h.le hS]

theorem AgreeOn.holds {bs : List UInt8} (h : AgreeOn S m m')
    (hS : ∀ k, k < bs.length → S (p + k)) (hb : m.Holds p bs) : m'.Holds p bs :=
  hb.congr h.size.symm fun k hk => h.byte _ (hS k hk)

/-- Two buffers that hold the same bytes. -/
theorem Holds.agreeOn {bs : List UInt8} (h : m.Holds p bs) (h' : m'.Holds p bs)
    (hs : m'.size = m.size) : AgreeOn (fun q => p ≤ q ∧ q < p + bs.length) m m' := by
  refine ⟨hs, fun q hq => ?_⟩
  obtain ⟨k, rfl⟩ := Nat.exists_eq_add_of_le hq.1
  have hk : k < bs.length := by omega
  rw [h.byte (List.getElem?_eq_getElem hk), h'.byte (List.getElem?_eq_getElem hk)]

theorem agreeOn_put {v : Nat} (hS : ∀ q, S q → q < p ∨ p + n ≤ q) : AgreeOn S m (m.put n p v) :=
  ⟨rfl, fun q hq => byte_put_out (hS q hq)⟩

theorem agreeOn_reverse (hS : ∀ q, S q → q < p ∨ p + n ≤ q) : AgreeOn S m (m.reverse p n) :=
  ⟨rfl, fun q hq => byte_reverse_out (hS q hq)⟩

end

/-! ## Strings -/

/-- A NUL lies in the buffer at or after `p`. -/
def Terminated (m : Buffer) (p : Nat) : Prop := ∃ q, p ≤ q ∧ q < m.size ∧ m.byte q = 0

/-- The bytes from `p` to the first NUL, `n` at most. -/
def cstrUpTo (m : Buffer) : Nat → Nat → List UInt8
  | 0, _ => []
  | n + 1, p => if m.byte p = 0 then [] else m.byte p :: m.cstrUpTo n (p + 1)

/-- The string at `p`: the bytes before the first NUL, or before the end of the buffer. -/
def cstr (m : Buffer) (p : Nat) : List UInt8 := m.cstrUpTo (m.size - p) p

theorem cstr_nul (h : m.byte p = 0) : m.cstr p = [] := by
  unfold cstr
  cases m.size - p <;> simp [cstrUpTo, h]

theorem cstr_end (h : m.size ≤ p) : m.cstr p = [] := by
  rw [cstr, show m.size - p = 0 by omega, cstrUpTo]

theorem cstr_cons (hp : p < m.size) (h : m.byte p ≠ 0) : m.cstr p = m.byte p :: m.cstr (p + 1) := by
  rw [cstr, show m.size - p = m.size - (p + 1) + 1 by omega, cstrUpTo, if_neg h, cstr]

theorem cstrUpTo_ne_zero {n : Nat} : ∀ {p}, ∀ b ∈ m.cstrUpTo n p, b ≠ 0 := by
  induction n with
  | zero => exact fun b hb => absurd hb List.not_mem_nil
  | succ n ih =>
    intro p b hb
    unfold cstrUpTo at hb
    by_cases h : m.byte p = 0
    · rw [if_pos h] at hb
      exact absurd hb List.not_mem_nil
    · rw [if_neg h] at hb
      rcases List.mem_cons.mp hb with rfl | hb
      · exact h
      · exact ih b hb

theorem cstr_ne_zero {p : Nat} : ∀ b ∈ m.cstr p, b ≠ 0 := cstrUpTo_ne_zero

theorem Terminated.lt (h : m.Terminated p) : p < m.size := by
  obtain ⟨q, _, _, _⟩ := h; omega

theorem Terminated.succ (h : m.Terminated p) (hb : m.byte p ≠ 0) : m.Terminated (p + 1) := by
  obtain ⟨q, h1, h2, h3⟩ := h
  have : p ≠ q := fun e => hb (e ▸ h3)
  exact ⟨q, by omega, h2, h3⟩

/-- Induction along a terminated string. -/
theorem Terminated.induct {motive : ∀ p, m.Terminated p → Prop}
    (nul : ∀ p (h : m.Terminated p), m.byte p = 0 → motive p h)
    (cons : ∀ p (h : m.Terminated p), m.byte p ≠ 0 → ∀ h' : m.Terminated (p + 1),
      motive (p + 1) h' → motive p h) {p : Nat} (h : m.Terminated p) : motive p h := by
  obtain ⟨q, h1, h2, h3⟩ := id h
  induction hd : q - p generalizing p with
  | zero => exact nul p h (by rwa [show p = q by omega])
  | succ d ih =>
    by_cases hb : m.byte p = 0
    · exact nul p h hb
    · exact cons p h hb (h.succ hb) (ih (h.succ hb) (by omega) (by omega))

/-- A string is the same in a buffer with the same bytes up to a NUL. -/
theorem cstr_agreeOn {S : Nat → Prop} {m' : Buffer} {z : Nat} (h : AgreeOn S m m')
    (hz : m.byte z = 0) (hpz : p ≤ z) (hS : ∀ q, p ≤ q → q ≤ z → S q) : m'.cstr p = m.cstr p := by
  obtain ⟨d, rfl⟩ := Nat.exists_eq_add_of_le hpz
  induction d generalizing p with
  | zero =>
    rw [Nat.add_zero] at hz
    rw [cstr_nul hz, cstr_nul ((h.byte p (hS p (Nat.le_refl _) hpz)).trans hz)]
  | succ d ih =>
    have hb := h.byte p (hS p (Nat.le_refl _) hpz)
    have htail : m'.cstr (p + 1) = m.cstr (p + 1) := ih (by rwa [Nat.add_right_comm])
      (Nat.le_add_right _ _) fun q h1 h2 => hS q (by omega) (by omega)
    rcases Nat.lt_or_ge p m.size with hp | hp
    · rcases eq_or_ne (m.byte p) 0 with h0 | h0
      · rw [cstr_nul h0, cstr_nul (hb.trans h0)]
      · rw [cstr_cons hp h0, cstr_cons (h.size ▸ hp) (hb ▸ h0), hb, htail]
    · rw [cstr_end hp, cstr_end (h.size ▸ hp)]

end Buffer

end NmOtool
