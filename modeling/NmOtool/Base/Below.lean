import NmOtool.Base.Exchange
import NmOtool.Base.Relocate

/-!
# The order of definedness

A computation is below another if it faults or has the same result. A read of a memory that is cut
off is below the read of the whole memory, and so is everything that is put together from such reads.
-/

namespace NmOtool

namespace Checked

variable {α β : Type} {x y : Checked α} {f g : α → Checked β} {a : α}

/-- `x` faults, or does what `y` does. -/
def Below (x y : Checked α) : Prop := ∀ a, x = ok a → y = ok a

theorem Below.refl : Below x x := fun _ h => h

theorem Below.fault : Below fault y := nofun

theorem Below.bind (hx : Below x y) (hf : ∀ a, x = ok a → Below (f a) (g a)) :
    Below (x >>= f) (y >>= g) := by
  intro b h
  obtain ⟨a, ha, h⟩ := bind_eq_ok.mp h
  rw [hx a ha, ok_bind]
  exact hf a ha b h

theorem Below.ite {c : Prop} [Decidable c] {x' y' : Checked α} (h : Below x y)
    (h' : Below x' y') : Below (if c then x else x') (if c then y else y') := by
  split
  · exact h
  · exact h'

end Checked

open Checked

/-- A sort whose comparisons are cut off is below the sort. -/
theorem exchangeSort_below {α : Type} {f g : α → α → Checked (α × α)}
    (h : ∀ a b, Below (f a b) (g a b)) (l : List α) :
    Below (exchangeSort f l) (exchangeSort g l) := by
  intro out hout
  have himage : exchangeSort g (l.map id) = ok (out.map id) :=
    exchangeSort_image (fun a b c d => h a b (c, d)) hout
  rwa [List.map_id, List.map_id] at himage

namespace Buffer

variable {m : Buffer} {n w p : Nat}

theorem load_take (hn : n ≤ m.size) : Below ((m.take n).load p) (m.load p) := by
  intro b h
  unfold load at h ⊢
  split at h
  · next hp => rwa [if_pos (Nat.lt_of_lt_of_le hp hn)]
  · cases h

theorem field_take (hn : n ≤ m.size) : Below ((m.take n).field w p) (m.field w p) := by
  intro v h
  unfold field at h ⊢
  split at h
  · next hp =>
    rw [le_take] at h
    rwa [if_pos (Nat.le_trans hp hn)]
  · cases h

end Buffer

end NmOtool
