import NmOtool.Base.Buffer

/-!
# Filling a block

`m.write p bs` is the buffer with the bytes `bs` at `p`: what is left of the checked writes of a loop
that fills a block upwards or downwards. A text and a NUL written at `p` are the string at `p`.
-/

namespace NmOtool

namespace Buffer

variable {m : Buffer} {p q n : Nat} {b : UInt8} {r s : List UInt8}

/-- The buffer with the bytes `s` at `p`. -/
def write (m : Buffer) (p : Nat) (s : List UInt8) : Buffer where
  size := m.size
  byte q := if p ≤ q ∧ q < p + s.length then s.getD (q - p) 0 else m.byte q

@[simp] theorem size_write : (m.write p s).size = m.size := rfl

theorem byte_write_in {k : Nat} (h : k < s.length) : (m.write p s).byte (p + k) = s[k] := by
  unfold write
  simp only
  rw [if_pos (by omega), Nat.add_sub_cancel_left, List.getD_eq_getElem s 0 h]

theorem byte_write_out (h : q < p ∨ p + s.length ≤ q) : (m.write p s).byte q = m.byte q :=
  if_neg (by omega)

theorem bytes_write_self : (m.write p s).bytes p s.length = s := by
  apply List.ext_getElem?
  intro k
  rcases Nat.lt_or_ge k s.length with hk | hk
  · rw [getElem?_bytes hk, byte_write_in hk, List.getElem?_eq_getElem hk]
  · rw [List.getElem?_eq_none (by simpa using hk), List.getElem?_eq_none hk]

theorem bytes_write_append :
    (m.write p (r ++ s)).bytes p r.length = r ∧
      (m.write p (r ++ s)).bytes (p + r.length) s.length = s := by
  apply List.append_inj _ length_bytes
  rw [← bytes_add, ← List.length_append, bytes_write_self]

/-- The bytes behind and in front of a write. -/
theorem bytes_write_out (h : q + n ≤ p ∨ p + s.length ≤ q) :
    (m.write p s).bytes q n = m.bytes q n :=
  bytes_congr fun _ _ => byte_write_out (by omega)

/-- A buffer with the bytes `s` at `p` is the one in which they were written, if nothing else
changed. -/
theorem eq_write {m' : Buffer} (hs : m'.size = m.size) (hin : m'.bytes p s.length = s)
    (hout : ∀ q, q < p ∨ p + s.length ≤ q → m'.byte q = m.byte q) : m' = m.write p s :=
  eq_of_bytes (p := p) (n := s.length) hs (hin.trans bytes_write_self.symm) fun q hq => by
    rw [hout q hq, byte_write_out hq]

@[simp] theorem write_nil : m.write p [] = m := by
  symm
  apply eq_write
  · rfl
  · rfl
  · exact fun _ _ => rfl

theorem store_write (h : p < m.size) : m.store p b = .ok (m.write p [b]) := by
  rw [store, if_pos h]
  congr 1
  apply eq_write
  · rfl
  · simp
  · intro q hq
    rw [List.length_singleton] at hq
    exact if_neg (by omega)

theorem store_fault (h : m.size ≤ p) : m.store p b = .fault := if_neg (Nat.not_lt.mpr h)

/-- Writes that do not meet change places. -/
theorem write_comm (h : p + r.length ≤ q ∨ q + s.length ≤ p) :
    (m.write p r).write q s = (m.write q s).write p r := by
  symm
  apply eq_write
  · rfl
  · rw [bytes_write_out (by omega), bytes_write_self]
  · intro k hk
    by_cases hp : p ≤ k ∧ k < p + r.length
    · obtain ⟨i, rfl⟩ := Nat.exists_eq_add_of_le hp.1
      rw [byte_write_in (by omega), byte_write_in (by omega)]
    · rw [byte_write_out (by omega), byte_write_out (by omega), byte_write_out (by omega)]

/-- Writes upwards. -/
theorem write_write (hq : q = p + r.length) : (m.write p r).write q s = m.write p (r ++ s) := by
  subst hq
  apply eq_write
  · rfl
  · rw [List.length_append, bytes_add, bytes_write_self, bytes_write_out (by omega),
      bytes_write_self]
  · intro q hq
    rw [List.length_append] at hq
    rw [byte_write_out (by omega), byte_write_out (by omega)]

/-- Writes downwards. -/
theorem write_write_before (hq : q = p + r.length) :
    (m.write q s).write p r = m.write p (r ++ s) := by
  rw [write_comm (.inr (Nat.le_of_eq hq.symm)), write_write hq]

theorem write_cons : (m.write p [b]).write (p + 1) s = m.write p (b :: s) := write_write rfl

theorem write_cons_before : (m.write (p + 1) s).write p [b] = m.write p (b :: s) :=
  write_write_before rfl

theorem reverse_write :
    (m.write p (r ++ s)).reverse p r.length = m.write p (r.reverse ++ s) := by
  obtain ⟨has, hbs⟩ := bytes_write_append (m := m) (p := p) (r := r) (s := s)
  apply eq_write
  · rfl
  · rw [List.length_append, List.length_reverse, bytes_add, bytes_reverse_self,
      bytes_reverse_out (by omega), has, hbs]
  · intro q hq
    rw [List.length_append, List.length_reverse] at hq
    rw [byte_reverse_out (by omega), byte_write_out (by rw [List.length_append]; omega)]

/-- The bytes of a string and its NUL. -/
theorem bytes_cstr (h : m.Terminated p) : p + (m.cstr p).length < m.size ∧
    m.bytes p ((m.cstr p).length + 1) = m.cstr p ++ [0] := by
  induction h using Terminated.induct with
  | nul p h h0 =>
    rw [cstr_nul h0]
    exact ⟨h.lt, congrArg (· :: []) h0⟩
  | cons p h h0 h' ih =>
    rw [cstr_cons h.lt h0, List.length_cons]
    refine ⟨by omega, ?_⟩
    rw [bytes_succ, ih.2]
    rfl

/-- A text and a NUL are a string. -/
theorem cstr_of_bytes (hb : ∀ b ∈ s, b ≠ 0) (hs : p + s.length < m.size)
    (h : m.bytes p (s.length + 1) = s ++ [0]) : m.cstr p = s := by
  induction s generalizing p with
  | nil => exact cstr_nul (List.cons.inj h).1
  | cons b s ih =>
    rw [List.length_cons] at hs
    obtain ⟨hbyte, htail⟩ := List.cons.inj h
    rw [cstr_cons (by omega) (hbyte ▸ hb b List.mem_cons_self), hbyte,
      ih (fun c hc => hb c (List.mem_cons_of_mem _ hc)) (by omega) htail]

theorem cstr_write (hb : ∀ b ∈ s, b ≠ 0) (hs : p + s.length < m.size) :
    (m.write p (s ++ [0])).cstr p = s := by
  apply cstr_of_bytes (m := m.write p (s ++ [0])) hb hs
  have hself := bytes_write_self (m := m) (p := p) (s := s ++ [0])
  rwa [List.length_append] at hself

end Buffer

end NmOtool
