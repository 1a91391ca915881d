import Mathlib.Tactic.Common
import Mathlib.Algebra.Order.Group.Nat
import Mathlib.Data.Nat.Bitwise

/-!
# Fixed-width byte numerals

`toLE w n` is the `w`-byte little-endian numeral of `n` and `ofLE` reads one back; a byte order
`o` lays a numeral out as it stands or reversed. `byteSwap w n` is what a reader of one order
sees in a `w`-byte field written in the other.
-/

namespace NmOtool

/-- The value of little-endian bytes. -/
def ofLE : List UInt8 → Nat
  | [] => 0
  | b :: bs => b.toNat + 256 * ofLE bs

/-- The `w` little-endian bytes of `n`. -/
def toLE : Nat → Nat → List UInt8
  | 0, _ => []
  | w + 1, n => UInt8.ofNat n :: toLE w (n / 256)

@[simp] theorem ofLE_nil : ofLE [] = 0 := rfl

@[simp] theorem ofLE_cons (b : UInt8) (bs : List UInt8) :
    ofLE (b :: bs) = b.toNat + 256 * ofLE bs := rfl

@[simp] theorem toLE_zero (n : Nat) : toLE 0 n = [] := rfl

@[simp] theorem toLE_succ (w n : Nat) : toLE (w + 1) n = UInt8.ofNat n :: toLE w (n / 256) := rfl

@[simp] theorem length_toLE (w n : Nat) : (toLE w n).length = w := by
  induction w generalizing n with
  | zero => rfl
  | succ w ih => simp [ih]

theorem ofLE_lt (bs : List UInt8) : ofLE bs < 256 ^ bs.length := by
  induction bs with
  | nil => simp
  | cons b bs ih =>
    have hb : b.toNat < 256 := b.toNat_lt
    rw [ofLE_cons, List.length_cons, Nat.pow_succ]
    omega

theorem ofLE_toLE {w n : Nat} (h : n < 256 ^ w) : ofLE (toLE w n) = n := by
  induction w generalizing n with
  | zero => simp at h; simp [h]
  | succ w ih =>
    rw [Nat.pow_succ] at h
    rw [toLE_succ, ofLE_cons, ih (by omega), UInt8.toNat_ofNat']
    omega

theorem toLE_mod (w n : Nat) : toLE w (n % 256 ^ w) = toLE w n := by
  induction w generalizing n with
  | zero => rfl
  | succ w ih =>
    rw [toLE_succ, toLE_succ, Nat.pow_succ, Nat.mul_comm, Nat.mod_mul_right_div_self, ih]
    congr 1
    rw [← UInt8.toNat_inj, UInt8.toNat_ofNat', UInt8.toNat_ofNat']
    exact Nat.mod_mul_right_mod n 256 (256 ^ w)

theorem ofLE_toLE_mod (w n : Nat) : ofLE (toLE w n) = n % 256 ^ w := by
  rw [← toLE_mod, ofLE_toLE (Nat.mod_lt _ (Nat.pow_pos (by decide)))]

theorem toLE_ofLE (bs : List UInt8) : toLE bs.length (ofLE bs) = bs := by
  induction bs with
  | nil => rfl
  | cons b bs ih =>
    have hb : b.toNat < 256 := b.toNat_lt
    rw [List.length_cons, ofLE_cons, toLE_succ, show (b.toNat + 256 * ofLE bs) / 256 = ofLE bs by omega,
      ih]
    congr 1
    apply UInt8.toNat_inj.mp
    rw [UInt8.toNat_ofNat']
    omega

theorem ofLE_append (as bs : List UInt8) :
    ofLE (as ++ bs) = ofLE as + 256 ^ as.length * ofLE bs := by
  induction as with
  | nil => simp
  | cons a as ih =>
    rw [List.cons_append, ofLE_cons, ofLE_cons, ih, List.length_cons, Nat.pow_succ, Nat.mul_add,
      Nat.mul_comm (256 ^ as.length) 256, Nat.mul_assoc, Nat.add_assoc]

theorem ofLE_inj {as bs : List UInt8} (hl : as.length = bs.length) (h : ofLE as = ofLE bs) :
    as = bs := by
  rw [← toLE_ofLE as, ← toLE_ofLE bs, hl, h]

theorem getElem?_toLE {w k : Nat} (n : Nat) (h : k < w) :
    (toLE w n)[k]? = some (UInt8.ofNat (n / 256 ^ k)) := by
  induction w generalizing n k with
  | zero => omega
  | succ w ih =>
    cases k with
    | zero => simp
    | succ k =>
      rw [toLE_succ, List.getElem?_cons_succ, ih _ (by omega), Nat.div_div_eq_div_mul,
        Nat.pow_succ, Nat.mul_comm]

/-! ## Byte orders -/

/-- The order of the bytes of a numeral: least significant first, or last. -/
inductive ByteOrder where
  | little
  | big
  deriving DecidableEq, Repr

namespace ByteOrder

/-- A little-endian numeral laid out in the order. -/
def arrange : ByteOrder → List UInt8 → List UInt8
  | little, bs => bs
  | big, bs => bs.reverse

/-- The `w` bytes of `n` in the order. -/
def encode (o : ByteOrder) (w n : Nat) : List UInt8 := o.arrange (toLE w n)

@[simp] theorem arrange_little (bs : List UInt8) : little.arrange bs = bs := rfl

@[simp] theorem arrange_big (bs : List UInt8) : big.arrange bs = bs.reverse := rfl

@[simp] theorem length_arrange (o : ByteOrder) (bs : List UInt8) :
    (o.arrange bs).length = bs.length := by
  cases o <;> simp

@[simp] theorem length_encode (o : ByteOrder) (w n : Nat) : (o.encode w n).length = w := by
  simp [encode]

theorem arrange_arrange (o : ByteOrder) (bs : List UInt8) : o.arrange (o.arrange bs) = bs := by
  cases o <;> simp

/-- The value of bytes laid out in the order. -/
def decode (o : ByteOrder) (bs : List UInt8) : Nat := ofLE (o.arrange bs)

theorem decode_encode (o : ByteOrder) {w n : Nat} (h : n < 256 ^ w) :
    o.decode (o.encode w n) = n := by
  rw [decode, encode, arrange_arrange, ofLE_toLE h]

end ByteOrder

/-- The value of the `w`-byte numeral of `n` read in the other byte order. -/
def byteSwap (w n : Nat) : Nat := ofLE (toLE w n).reverse

theorem byteSwap_lt (w n : Nat) : byteSwap w n < 256 ^ w := by
  simpa [byteSwap] using ofLE_lt (toLE w n).reverse

theorem toLE_byteSwap (w n : Nat) : toLE w (byteSwap w n) = (toLE w n).reverse := by
  simpa [byteSwap] using toLE_ofLE (toLE w n).reverse

theorem byteSwap_byteSwap {w n : Nat} (h : n < 256 ^ w) : byteSwap w (byteSwap w n) = n := by
  rw [byteSwap, toLE_byteSwap, List.reverse_reverse, ofLE_toLE h]

theorem byteSwap_zero (w : Nat) : byteSwap w 0 = 0 := by
  induction w with
  | zero => rfl
  | succ w ih =>
    simp only [byteSwap, toLE_succ, Nat.zero_div, List.reverse_cons, ofLE_append] at ih ⊢
    rw [ih]
    simp

/-- What a little-endian read makes of the `w` bytes of `n` in the order. -/
def ByteOrder.read (o : ByteOrder) (w n : Nat) : Nat :=
  match o with
  | .little => n
  | .big => byteSwap w n

theorem ByteOrder.ofLE_encode (o : ByteOrder) {w n : Nat} (h : n < 256 ^ w) :
    ofLE (o.encode w n) = o.read w n := by
  cases o with
  | little => exact ofLE_toLE h
  | big => rfl

/-- A `w`-byte value whose bytes are those of `n`, last first. -/
theorem eq_byteSwap {w x n : Nat} (hx : x < 256 ^ w)
    (h : ∀ k, k < w → x / 256 ^ k % 256 = n / 256 ^ (w - 1 - k) % 256) : x = byteSwap w n := by
  have hb : toLE w x = (toLE w n).reverse := by
    apply List.ext_getElem?
    intro k
    rcases Nat.lt_or_ge k w with hk | hk
    · rw [getElem?_toLE x hk, List.getElem?_reverse (by simpa using hk), length_toLE,
        getElem?_toLE n (by omega), Option.some.injEq, ← UInt8.toNat_inj, UInt8.toNat_ofNat',
        UInt8.toNat_ofNat']
      exact h k hk
    · rw [List.getElem?_eq_none (by simpa using hk), List.getElem?_eq_none (by simpa using hk)]
  rw [byteSwap, ← hb, ofLE_toLE hx]

/-- Byte `k` of a value whose bits are those of byte `l` of another. -/
theorem byte_eq_of_bits {x y k l : Nat}
    (h : ∀ j, j < 8 → x.testBit (8 * k + j) = y.testBit (8 * l + j)) :
    x / 256 ^ k % 256 = y / 256 ^ l % 256 := by
  rw [show (256 : Nat) = 2 ^ 8 from rfl, ← Nat.pow_mul, ← Nat.pow_mul]
  apply Nat.eq_of_testBit_eq
  intro j
  simp only [Nat.testBit_mod_two_pow, Nat.testBit_div_two_pow]
  by_cases hj : j < 8
  · rw [Nat.add_comm j, Nat.add_comm j, h j hj]
  · simp [hj]

end NmOtool
