import NmOtool.Base.Buffer

/-!
# Relocation

`cut d` is a buffer from `d` on, and `graft d f` the buffer `f` behind the first `d` bytes of
another. A computation that only touches bytes from `d` on does on the graft what it does on `f`
by itself: its primitives do, and `Checked.map` hands this on to what is composed of them. `take n`
is the buffer up to `n`; of the bytes behind, a string that ends before them knows nothing.
-/

namespace NmOtool

namespace Checked

variable {α β γ : Type} {f : α → β}

def map (f : α → β) (x : Checked α) : Checked β := x >>= fun a => ok (f a)

@[simp] theorem map_ok (a : α) : map f (ok a) = ok (f a) := rfl

@[simp] theorem map_fault : map f (fault : Checked α) = fault := rfl

theorem map_then {g : β → γ} {x : Checked α} {k : α → Checked β} :
    map g (x >>= k) = x >>= fun a => map g (k a) := bind_assoc x k _

theorem then_map {x : Checked α} {k : β → Checked γ} : map f x >>= k = x >>= fun a => k (f a) := by
  cases x <;> rfl

theorem map_ite {c : Prop} [Decidable c] {x y : Checked α} :
    map f (if c then x else y) = if c then map f x else map f y := by
  split <;> rfl

theorem map_eq_ok {x : Checked α} {b : β} : map f x = ok b ↔ ∃ a, x = ok a ∧ f a = b := by
  cases x <;> simp

theorem then_congr {x : Checked α} {k k' : α → Checked β} (h : ∀ a, x = ok a → k a = k' a) :
    x >>= k = x >>= k' := by
  cases x with
  | ok a => exact h a rfl
  | fault => rfl

/-- One step of two runs side by side: the second starts from the image of what the first does. -/
theorem map_step {δ : Type} {g : β → γ} {x : Checked α} {y : Checked δ} {w : α → δ}
    {k : α → Checked β} {k' : δ → Checked γ} (hy : y = map w x)
    (hk : ∀ a, x = ok a → k' (w a) = map g (k a)) : y >>= k' = map g (x >>= k) := by
  rw [hy, then_map, map_then]
  exact then_congr hk

end Checked

namespace Buffer

open Checked

variable {m f f' : Buffer} {d p q n : Nat}

/-- The buffer from `d` on. -/
def cut (m : Buffer) (d : Nat) : Buffer := ⟨m.size - d, fun q => m.byte (d + q)⟩

/-- The buffer `f` behind the first `d` bytes of `m`. -/
def graft (m : Buffer) (d : Nat) (f : Buffer) : Buffer where
  size := d + f.size
  byte q := if q < d then m.byte q else f.byte (q - d)

@[simp] theorem size_graft : (m.graft d f).size = d + f.size := rfl

@[simp] theorem size_cut : (m.cut d).size = m.size - d := rfl

@[simp] theorem byte_graft : (m.graft d f).byte (d + p) = f.byte p := by
  simp [graft]

theorem byte_graft_below (h : q < d) : (m.graft d f).byte q = m.byte q := if_pos h

@[simp] theorem cut_graft : (m.graft d f).cut d = f := by
  have hbyte : (fun q => (m.graft d f).byte (d + q)) = f.byte := funext fun _ => byte_graft
  rw [cut, hbyte, size_graft, Nat.add_sub_cancel_left]

/-- A buffer is what it is cut into. -/
theorem graft_cut (h : d ≤ m.size) : m.graft d (m.cut d) = m := by
  have hbyte : (m.graft d (m.cut d)).byte = m.byte := by
    funext q
    unfold graft cut
    simp only
    split
    · rfl
    · rw [show d + (q - d) = q by omega]
  have hsize : (m.graft d (m.cut d)).size = m.size := by
    rw [size_graft, size_cut]
    omega
  calc m.graft d (m.cut d) = ⟨(m.graft d (m.cut d)).size, (m.graft d (m.cut d)).byte⟩ := rfl
    _ = m := by rw [hbyte, hsize]

theorem graft_inj (h : m.graft d f = m.graft d f') : f = f' := by
  have := congrArg (fun b => b.cut d) h
  simpa using this

@[simp] theorem bytes_graft : (m.graft d f).bytes (d + p) n = f.bytes p n :=
  bytes_congr fun i _ => by rw [Nat.add_assoc, byte_graft]

@[simp] theorem le_graft : (m.graft d f).le n (d + p) = f.le n p := by
  rw [le, bytes_graft, le]

theorem load_graft : (m.graft d f).load (d + p) = f.load p := by
  rw [load, load, size_graft, byte_graft]
  exact if_congr (Nat.add_lt_add_iff_left) rfl rfl

theorem field_graft : (m.graft d f).field n (d + p) = f.field n p := by
  rw [field, field, size_graft, le_graft, Nat.add_assoc]
  exact if_congr (Nat.add_le_add_iff_left) rfl rfl

theorem put_graft {v : Nat} : (m.graft d f).put n (d + p) v = m.graft d (f.put n p v) := by
  have hbyte : ((m.graft d f).put n (d + p) v).byte = (m.graft d (f.put n p v)).byte := by
    funext q
    unfold put graft
    simp only
    by_cases hq : q < d
    · rw [if_pos hq, if_pos hq, if_neg (by omega)]
    · rw [if_neg hq, if_neg hq, show q - (d + p) = q - d - p by omega]
      exact if_congr (by omega) rfl rfl
  calc (m.graft d f).put n (d + p) v = ⟨_, ((m.graft d f).put n (d + p) v).byte⟩ := rfl
    _ = m.graft d (f.put n p v) := by rw [hbyte]; rfl

theorem storeField_graft {v : Nat} :
    (m.graft d f).storeField n (d + p) v = map (m.graft d) (f.storeField n p v) := by
  rw [storeField, storeField, put_graft, size_graft, map_ite, Nat.add_assoc]
  exact if_congr (Nat.add_le_add_iff_left) rfl rfl

theorem reverse_graft : (m.graft d f).reverse (d + p) n = m.graft d (f.reverse p n) := by
  have hbyte : ((m.graft d f).reverse (d + p) n).byte = (m.graft d (f.reverse p n)).byte := by
    funext q
    unfold reverse graft
    simp only
    by_cases hq : q < d
    · rw [if_pos hq, if_pos hq, if_neg (by omega)]
    · rw [if_neg hq, if_neg hq]
      by_cases hin : p ≤ q - d ∧ q - d < p + n
      · rw [if_pos hin, if_pos (by omega), if_neg (by omega)]
        congr 1
        omega
      · rw [if_neg hin, if_neg (by omega)]
  calc (m.graft d f).reverse (d + p) n = ⟨_, ((m.graft d f).reverse (d + p) n).byte⟩ := rfl
    _ = m.graft d (f.reverse p n) := by rw [hbyte]; rfl

theorem terminated_graft (h : f.Terminated p) : (m.graft d f).Terminated (d + p) := by
  obtain ⟨q, h1, h2, h3⟩ := h
  exact ⟨d + q, Nat.add_le_add_left h1 d, Nat.add_lt_add_left h2 d, byte_graft.trans h3⟩

theorem cstrUpTo_graft : ∀ {p}, (m.graft d f).cstrUpTo n (d + p) = f.cstrUpTo n p := by
  induction n with
  | zero => intro p; rfl
  | succ n ih =>
    intro p
    rw [cstrUpTo, cstrUpTo, byte_graft, Nat.add_assoc, ih]

theorem cstr_graft : (m.graft d f).cstr (d + p) = f.cstr p := by
  rw [cstr, cstr, size_graft, Nat.add_sub_add_left, cstrUpTo_graft]

/-! ## The end of a buffer -/

/-- The buffer up to `n`. -/
def take (m : Buffer) (n : Nat) : Buffer := { m with size := n }

@[simp] theorem size_take : (m.take n).size = n := rfl

@[simp] theorem byte_take : (m.take n).byte p = m.byte p := rfl

@[simp] theorem bytes_take {w : Nat} : (m.take n).bytes p w = m.bytes p w :=
  bytes_congr fun _ _ => rfl

@[simp] theorem le_take {w : Nat} : (m.take n).le w p = m.le w p :=
  le_congr fun _ _ => rfl

/-- A string is the same wherever the buffer ends behind its NUL. -/
theorem cstr_take (hn : n ≤ m.size) (h : (m.take n).Terminated p) :
    (m.take n).cstr p = m.cstr p := by
  induction h using Terminated.induct with
  | nul p h h0 => rw [cstr_nul h0, cstr_nul (m := m) h0]
  | cons p h h0 h' ih =>
    rw [cstr_cons h.lt h0, cstr_cons (m := m) (Nat.lt_of_lt_of_le h.lt hn) h0, ih]
    rfl

end Buffer

end NmOtool
