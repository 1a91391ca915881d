import NmOtool.Common.Image
import Mathlib.Data.List.Lex

/-!
# The string functions of libft

The functions of `libft` that the two programs call on names and flags. A string is what a
reader sees of it, one byte for each index: bytes of the map for a pointer into it, the given
bytes and then NUL for a literal.
-/

namespace NmOtool

/-- The string at `p` in the map. -/
def strAt (m : Buffer) (p : Nat) : Nat → Checked UInt8 := fun k => m.load (p + k)

/-- A string literal. -/
def strLit (s : List UInt8) : Nat → Checked UInt8 := fun k => .ok (s.getD k 0)

/-- The loop of `ftStrcmp` from index `k`. -/
def ftStrcmpFrom (s1 s2 : Nat → Checked UInt8) : Nat → Nat → Checked Int
  | 0, _ => .fault
  | fuel + 1, k => do
    let a ← s1 k
    let b ← s2 k
    if a ≠ 0 ∧ b ≠ 0 ∧ a = b then ftStrcmpFrom s1 s2 fuel (k + 1)
    else pure ((a.toNat : Int) - b.toNat)

/-- `ft_strcmp` of the string at `p` in the map; no string there has more than `m.size` bytes. -/
def ftStrcmp (m : Buffer) (p : Nat) (s2 : Nat → Checked UInt8) : Checked Int :=
  ftStrcmpFrom (strAt m p) s2 (m.size + 1) 0

/-- Whether `ft_strchr` finds the byte in the bytes before a NUL, or is asked for the NUL. -/
def ftStrchr : List UInt8 → UInt8 → Bool
  | [], c => c == 0
  | b :: s, c => if c = b then true else ftStrchr s c

theorem ftStrchr_eq {s : List UInt8} {c : UInt8} (hc : c ≠ 0) : ftStrchr s c = decide (c ∈ s) := by
  induction s with
  | nil => simpa [ftStrchr] using hc
  | cons b s ih =>
    rw [ftStrchr, ih]
    by_cases h : c = b <;> simp [h]

/-- The loop of `ft_strlen` from `p`, for the bytes it counts. -/
def ftStrlenFrom (m : Buffer) : Nat → Nat → Checked (List UInt8)
  | 0, _ => .fault
  | fuel + 1, p => do
    let b ← m.load p
    if b = 0 then pure []
    else do
      let s ← ftStrlenFrom m fuel (p + 1)
      pure (b :: s)

/-- The bytes of the string at `p`, as far as its NUL. -/
def ftStr (m : Buffer) (p : Nat) : Checked (List UInt8) := ftStrlenFrom m (m.size + 1) p

/-! ## Literals -/

/-- The comparison of the string at `p` with a literal ends in the map, at a difference or a NUL. -/
def Compares (m : Buffer) : Nat → List UInt8 → Prop
  | p, [] => p < m.size
  | p, b :: s => p < m.size ∧ (m.byte p = b → Compares m (p + 1) s)

instance decidableCompares (m : Buffer) : ∀ p s, Decidable (Compares m p s)
  | p, [] => inferInstanceAs (Decidable (p < m.size))
  | p, _ :: s =>
    have := decidableCompares m (p + 1) s
    inferInstanceAs (Decidable (_ ∧ (_ → _)))

theorem compares_of_le {m : Buffer} {p : Nat} {s : List UInt8} (h : p + s.length + 1 ≤ m.size) :
    Compares m p s := by
  induction s generalizing p with
  | nil => exact Nat.lt_of_succ_le h
  | cons b s ih =>
    rw [List.length_cons] at h
    exact ⟨by omega, fun _ => ih (by omega)⟩

theorem getD_of_drop {s t : List UInt8} {b : UInt8} {k : Nat} (h : s.drop k = b :: t) :
    s.getD k 0 = b ∧ s.drop (k + 1) = t := by
  have hget := congrArg (·[0]?) h
  simp only [List.getElem?_drop, Nat.add_zero, List.getElem?_cons_zero] at hget
  rw [List.getD_eq_getElem?_getD, hget, Option.getD_some, ← List.tail_drop, h, List.tail_cons]
  exact ⟨rfl, rfl⟩

theorem getD_of_drop_nil {s : List UInt8} {k : Nat} (h : s.drop k = []) : s.getD k 0 = 0 := by
  rw [List.getD_eq_getElem?_getD, List.getElem?_eq_none (List.drop_eq_nil_iff.mp h), Option.getD_none]

theorem ftStrcmpFrom_lit {m : Buffer} {p : Nat} {s : List UInt8} (hs : ∀ b ∈ s, b ≠ 0) :
    ∀ t fuel k, s.drop k = t → m.size < fuel + (p + k) → Compares m (p + k) t →
      ∃ c, ftStrcmpFrom (strAt m p) (strLit s) fuel k = .ok c ∧
        (c = 0 ↔ m.bytes (p + k) (t.length + 1) = t ++ [0]) := by
  intro t
  induction t with
  | nil =>
    rintro (_ | fuel) k hd hf (hc : p + k < m.size)
    · omega
    refine ⟨(m.byte (p + k)).toNat, ?_, ?_⟩
    · rw [ftStrcmpFrom, strAt, strLit, Buffer.load_ok hc, getD_of_drop_nil hd]
      simp
    · simp only [List.length_nil, Nat.zero_add, Buffer.bytes_succ, Buffer.bytes_zero,
        List.nil_append, List.cons.injEq, and_true]
      rw [← UInt8.toNat_inj]
      simp
  | cons b t ih =>
    rintro (_ | fuel) k hd hf ⟨hlt, hc⟩
    · omega
    obtain ⟨hget, htl⟩ := getD_of_drop hd
    have hb : b ≠ 0 := hs b (List.mem_of_mem_drop (hd ▸ List.mem_cons_self))
    rw [ftStrcmpFrom, strAt, strLit, Buffer.load_ok hlt, hget, Checked.ok_bind, Checked.ok_bind]
    simp only [List.length_cons, Buffer.bytes_succ, List.cons_append, List.cons.injEq]
    by_cases hab : m.byte (p + k) = b
    · obtain ⟨c, h1, h2⟩ := ih fuel (k + 1) htl (by omega) (hc hab)
      rw [if_pos ⟨hab ▸ hb, hb, hab⟩]
      refine ⟨c, h1, h2.trans ?_⟩
      simp [hab, Nat.add_assoc]
    · rw [if_neg (by simp [hab])]
      refine ⟨_, rfl, ?_⟩
      have : (m.byte (p + k)).toNat ≠ b.toNat := fun e => hab (UInt8.toNat_inj.mp e)
      simp only [hab, false_and, iff_false]
      omega

theorem ftStrcmpFrom_lit_fault {m : Buffer} {p : Nat} {s : List UInt8} (hs : ∀ b ∈ s, b ≠ 0) :
    ∀ t fuel k, s.drop k = t → ¬ Compares m (p + k) t →
      ftStrcmpFrom (strAt m p) (strLit s) fuel k = .fault := by
  intro t
  induction t with
  | nil =>
    rintro (_ | fuel) k hd (hc : ¬ p + k < m.size)
    · rfl
    · rw [ftStrcmpFrom, strAt, Buffer.load_fault (by omega), Checked.fault_bind]
  | cons b t ih =>
    rintro (_ | fuel) k hd hc
    · rfl
    obtain ⟨hget, htl⟩ := getD_of_drop hd
    have hb : b ≠ 0 := hs b (List.mem_of_mem_drop (hd ▸ List.mem_cons_self))
    rw [ftStrcmpFrom, strAt, strLit, hget]
    by_cases hlt : p + k < m.size
    · have hab : m.byte (p + k) = b := by
        by_contra hab
        exact hc ⟨hlt, fun e => absurd e hab⟩
      rw [Buffer.load_ok hlt, Checked.ok_bind, Checked.ok_bind, if_pos ⟨hab ▸ hb, hb, hab⟩]
      exact ih fuel (k + 1) htl fun h => hc ⟨hlt, fun _ => h⟩
    · rw [Buffer.load_fault (by omega), Checked.fault_bind]

/-- `ft_strcmp` with a literal finds exactly its bytes and a NUL. -/
theorem ftStrcmp_lit {m : Buffer} {p : Nat} {s : List UInt8} (hs : ∀ b ∈ s, b ≠ 0)
    (hp : Compares m p s) :
    ∃ c, ftStrcmp m p (strLit s) = .ok c ∧ (c = 0 ↔ m.bytes p (s.length + 1) = s ++ [0]) :=
  ftStrcmpFrom_lit hs s (m.size + 1) 0 rfl (by omega) hp

theorem ftStrcmp_lit_fault {m : Buffer} {p : Nat} {s : List UInt8} (hs : ∀ b ∈ s, b ≠ 0)
    (hp : ¬ Compares m p s) : ftStrcmp m p (strLit s) = .fault :=
  ftStrcmpFrom_lit_fault hs s (m.size + 1) 0 rfl hp

/-! ## Comparison -/

/-- The value of `ft_strcmp` on two strings: the first difference, NUL included. -/
def strcmp : List UInt8 → List UInt8 → Int
  | [], [] => 0
  | a :: _, [] => a.toNat
  | [], b :: _ => -(b.toNat : Int)
  | a :: as, b :: bs => if a = b then strcmp as bs else (a.toNat : Int) - b.toNat

theorem strcmp_self (s : List UInt8) : strcmp s s = 0 := by
  induction s with
  | nil => rfl
  | cons b s ih => simpa [strcmp] using ih

theorem strcmp_swap (s t : List UInt8) : strcmp t s = -strcmp s t := by
  induction s generalizing t with
  | nil => cases t <;> simp [strcmp]
  | cons a s ih =>
    cases t with
    | nil => simp [strcmp]
    | cons b t =>
      simp only [strcmp]
      by_cases hab : a = b
      · rw [if_pos hab, if_pos hab.symm, ih]
      · rw [if_neg hab, if_neg (Ne.symm hab)]
        omega

/-- A string as numbers: the order of `ft_strcmp` is the lexicographic order of these. -/
def unsignedBytes (s : List UInt8) : List Nat := s.map UInt8.toNat

theorem unsignedBytes_inj {s t : List UInt8} : unsignedBytes s = unsignedBytes t ↔ s = t :=
  (List.map_injective_iff.mpr fun _ _ => UInt8.toNat_inj.mp).eq_iff

theorem toNat_pos {b : UInt8} (hb : b ≠ 0) : 0 < b.toNat :=
  Nat.pos_of_ne_zero fun h => hb (UInt8.toNat_inj.mp h)

theorem strcmp_neg {s t : List UInt8} (hs : ∀ b ∈ s, b ≠ 0) (ht : ∀ b ∈ t, b ≠ 0) :
    strcmp s t < 0 ↔ unsignedBytes s < unsignedBytes t := by
  induction s generalizing t with
  | nil =>
    cases t with
    | nil => simp [strcmp, unsignedBytes]
    | cons b t =>
      have hb := toNat_pos (ht b List.mem_cons_self)
      simp only [strcmp, unsignedBytes, List.map_nil, List.map_cons, List.nil_lt_cons, iff_true]
      omega
  | cons a s ih =>
    cases t with
    | nil =>
      simp only [strcmp, unsignedBytes, List.map_nil, List.map_cons, List.not_lt_nil, iff_false]
      omega
    | cons b t =>
      simp only [strcmp, unsignedBytes, List.map_cons, List.cons_lt_cons_iff]
      by_cases hab : a = b
      · have hst : strcmp s t < 0 ↔ unsignedBytes s < unsignedBytes t :=
          ih (fun c hc => hs c (List.mem_cons_of_mem _ hc))
            (fun c hc => ht c (List.mem_cons_of_mem _ hc))
        rw [if_pos hab, hst, hab]
        simp [unsignedBytes]
      · have hne : a.toNat ≠ b.toNat := fun e => hab (UInt8.toNat_inj.mp e)
        rw [if_neg hab]
        simp only [hne, false_and, or_false]
        omega

theorem strcmp_pos {s t : List UInt8} (hs : ∀ b ∈ s, b ≠ 0) (ht : ∀ b ∈ t, b ≠ 0) :
    0 < strcmp s t ↔ unsignedBytes t < unsignedBytes s := by
  rw [← strcmp_neg ht hs, strcmp_swap s t]
  omega

theorem strcmp_eq_zero {s t : List UInt8} (hs : ∀ b ∈ s, b ≠ 0) (ht : ∀ b ∈ t, b ≠ 0) :
    strcmp s t = 0 ↔ s = t := by
  refine ⟨fun h => ?_, fun h => h ▸ strcmp_self s⟩
  have hlt := (strcmp_neg hs ht).not
  have hgt := (strcmp_pos hs ht).not
  rw [h] at hlt hgt
  exact unsignedBytes_inj.mp
    (le_antisymm (not_lt.mp (hgt.mp (by decide))) (not_lt.mp (hlt.mp (by decide))))

theorem unsignedBytes_cons_le {b c : UInt8} {s t : List UInt8} :
    unsignedBytes (b :: s) ≤ unsignedBytes (c :: t) ↔
      b.toNat < c.toNat ∨ b = c ∧ unsignedBytes s ≤ unsignedBytes t := by
  rw [← not_lt, ← not_lt, unsignedBytes, unsignedBytes, List.map_cons, List.map_cons,
    List.cons_lt_cons_iff, ← UInt8.toNat_inj]
  change ¬ (_ ∨ _ ∧ unsignedBytes t < unsignedBytes s) ↔ _
  rw [not_or, not_and]
  constructor
  · rintro ⟨hlt, hne⟩
    rcases Nat.lt_or_eq_of_le (Nat.le_of_not_lt hlt) with hlt | heq
    · exact .inl hlt
    · exact .inr ⟨heq, hne heq.symm⟩
  · rintro (hlt | ⟨heq, hle⟩)
    · exact ⟨by omega, fun heq => by omega⟩
    · exact ⟨by omega, fun _ => hle⟩

/-- What stands between a string and one that begins with it begins with it, too. -/
theorem prefix_between {s t u : List UInt8} (hst : unsignedBytes s ≤ unsignedBytes t)
    (htu : unsignedBytes t ≤ unsignedBytes u) (h : s <+: u) : s <+: t := by
  induction s generalizing t u with
  | nil => exact List.nil_prefix
  | cons a s ih =>
    obtain ⟨u, rfl⟩ := h
    cases t with
    | nil => exact absurd hst (not_le.mpr (List.nil_lt_cons _ _))
    | cons b t =>
      rw [unsignedBytes_cons_le] at hst
      rw [List.cons_append, unsignedBytes_cons_le] at htu
      obtain ⟨rfl, hle⟩ : a = b ∧ unsignedBytes s ≤ unsignedBytes t := by
        refine hst.resolve_left fun hlt => ?_
        rcases htu with h | ⟨rfl, -⟩ <;> omega
      have htu := (htu.resolve_left (lt_irrefl _)).2
      rw [List.cons_prefix_cons]
      exact ⟨rfl, ih hle htu (List.prefix_append s u)⟩

theorem le_of_prefix {s t : List UInt8} (h : s <+: t) : unsignedBytes s ≤ unsignedBytes t := by
  induction s generalizing t with
  | nil => exact not_lt.mp (List.not_lt_nil _)
  | cons a s ih =>
    obtain ⟨u, rfl⟩ := h
    rw [List.cons_append, unsignedBytes_cons_le]
    exact .inr ⟨rfl, ih (List.prefix_append s u)⟩

section
variable {m : Buffer}

/-- `ft_strcmp` of the two strings leaves the map: one of them does not end in it, and the other
begins with it. -/
def RunsOut (m : Buffer) (p q : Nat) : Prop :=
  ¬ m.Terminated p ∧ m.cstr p <+: m.cstr q ∨ ¬ m.Terminated q ∧ m.cstr q <+: m.cstr p

theorem RunsOut.symm {p q : Nat} (h : RunsOut m p q) : RunsOut m q p := Or.symm h

theorem runsOut_end {p q : Nat} (h : m.size ≤ p) : RunsOut m p q := by
  refine .inl ⟨fun ht => absurd ht.lt (Nat.not_lt.mpr h), ?_⟩
  rw [Buffer.cstr_end h]
  exact List.nil_prefix

theorem not_runsOut_nul {p q : Nat} (hp : p < m.size) (hq : q < m.size) (h : m.byte p = 0) :
    ¬ RunsOut m p q := by
  rintro (⟨hp', -⟩ | ⟨hq', hpre⟩)
  · exact hp' ⟨p, Nat.le_refl _, hp, h⟩
  · rw [Buffer.cstr_nul h, List.prefix_nil] at hpre
    by_cases hc : m.byte q = 0
    · exact hq' ⟨q, Nat.le_refl _, hq, hc⟩
    · rw [Buffer.cstr_cons hq hc] at hpre
      cases hpre

theorem terminated_succ {p : Nat} (hb : m.byte p ≠ 0) :
    m.Terminated (p + 1) ↔ m.Terminated p :=
  ⟨fun ⟨q, h1, h2, h3⟩ => ⟨q, Nat.le_of_succ_le h1, h2, h3⟩, fun h => h.succ hb⟩

theorem runsOut_cons {p q : Nat} (hp : p < m.size) (hq : q < m.size) (hb : m.byte p ≠ 0)
    (hc : m.byte q ≠ 0) : RunsOut m p q ↔ m.byte p = m.byte q ∧ RunsOut m (p + 1) (q + 1) := by
  rw [RunsOut, RunsOut, Buffer.cstr_cons hp hb, Buffer.cstr_cons hq hc, List.cons_prefix_cons,
    List.cons_prefix_cons, terminated_succ hb, terminated_succ hc]
  tauto

/-- The loop goes on behind two equal bytes. -/
theorem ftStrcmpFrom_eq : ∀ fuel k p0 q0 p q, p0 + k = p → q0 + k = q → m.size < fuel + p →
    (RunsOut m p q → ftStrcmpFrom (strAt m p0) (strAt m q0) fuel k = .fault) ∧
      (¬ RunsOut m p q → ftStrcmpFrom (strAt m p0) (strAt m q0) fuel k =
        .ok (strcmp (m.cstr p) (m.cstr q))) := by
  intro fuel
  induction fuel with
  | zero =>
    rintro k p0 q0 p q rfl rfl hf
    exact ⟨fun _ => rfl, fun h => absurd (runsOut_end (by omega)) h⟩
  | succ fuel ih =>
    rintro k p0 q0 p q rfl rfl hf
    rw [ftStrcmpFrom, strAt, strAt]
    by_cases hp : p0 + k < m.size
    swap
    · rw [Buffer.load, if_neg hp]
      exact ⟨fun _ => rfl, fun h => absurd (runsOut_end (Nat.le_of_not_lt hp)) h⟩
    rw [Buffer.load_ok hp, Checked.ok_bind]
    by_cases hq : q0 + k < m.size
    swap
    · rw [Buffer.load, if_neg hq]
      exact ⟨fun _ => rfl, fun h => absurd (runsOut_end (Nat.le_of_not_lt hq)).symm h⟩
    rw [Buffer.load_ok hq, Checked.ok_bind]
    by_cases hb : m.byte (p0 + k) = 0
    · refine ⟨fun h => absurd h (not_runsOut_nul hp hq hb), fun _ => ?_⟩
      rw [if_neg fun h => h.1 hb, Buffer.cstr_nul hb, hb]
      by_cases hc : m.byte (q0 + k) = 0
      · rw [Buffer.cstr_nul hc, hc]; rfl
      · rw [Buffer.cstr_cons hq hc]; simp [strcmp]
    by_cases hc : m.byte (q0 + k) = 0
    · refine ⟨fun h => absurd h.symm (not_runsOut_nul hq hp hc), fun _ => ?_⟩
      rw [if_neg fun h => h.2.1 hc, Buffer.cstr_cons hp hb, Buffer.cstr_nul hc, hc]
      simp [strcmp]
    rw [runsOut_cons hp hq hb hc, Buffer.cstr_cons hp hb, Buffer.cstr_cons hq hc, strcmp]
    by_cases hab : m.byte (p0 + k) = m.byte (q0 + k)
    · rw [if_pos ⟨hb, hc, hab⟩, if_pos hab, and_iff_right hab]
      exact ih (k + 1) p0 q0 _ _ (by omega) (by omega) (by omega)
    · rw [if_neg fun h => hab h.2.2, if_neg hab]
      exact ⟨fun h => absurd h.1 hab, fun _ => rfl⟩

theorem ftStrcmp_runsOut {p q : Nat} (h : RunsOut m p q) : ftStrcmp m p (strAt m q) = .fault :=
  (ftStrcmpFrom_eq _ 0 p q p q rfl rfl (by omega)).1 h

/-- `ft_strcmp` on two strings of the map that it tells apart there. -/
theorem ftStrcmp_ok {p q : Nat} (h : ¬ RunsOut m p q) :
    ftStrcmp m p (strAt m q) = .ok (strcmp (m.cstr p) (m.cstr q)) :=
  (ftStrcmpFrom_eq _ 0 p q p q rfl rfl (by omega)).2 h

theorem not_runsOut {p q : Nat} (hp : m.Terminated p) (hq : m.Terminated q) : ¬ RunsOut m p q := by
  rintro (⟨h, -⟩ | ⟨h, -⟩)
  · exact h hp
  · exact h hq

theorem ftStrlenFrom_terminated {p : Nat} (hp : m.Terminated p) :
    ∀ fuel, m.size < fuel + p → ftStrlenFrom m fuel p = .ok (m.cstr p) := by
  induction hp using Buffer.Terminated.induct with
  | nul p hp hb =>
    rintro (_ | fuel) hf
    · have := hp.lt; omega
    rw [ftStrlenFrom, Buffer.load_ok hp.lt, Buffer.cstr_nul hb]
    simp [hb]
  | cons p hp hb _ ih =>
    rintro (_ | fuel) hf
    · have := hp.lt; omega
    rw [ftStrlenFrom, Buffer.load_ok hp.lt, Buffer.cstr_cons hp.lt hb, Checked.ok_bind, if_neg hb,
      ih fuel (by omega)]
    rfl

theorem ftStr_terminated {p : Nat} (hp : m.Terminated p) : ftStr m p = .ok (m.cstr p) :=
  ftStrlenFrom_terminated hp _ (by omega)

theorem terminated_of_ftStrlenFrom {fuel p : Nat} {s : List UInt8}
    (h : ftStrlenFrom m fuel p = .ok s) : m.Terminated p := by
  induction fuel generalizing p s with
  | zero => cases h
  | succ fuel ih =>
    unfold ftStrlenFrom at h
    obtain ⟨b, hb, h⟩ := Checked.bind_eq_ok.mp h
    unfold Buffer.load at hb
    split at hb
    · rename_i hlt
      cases hb
      split at h
      · rename_i hz
        exact ⟨p, Nat.le_refl _, hlt, hz⟩
      · obtain ⟨t, ht, -⟩ := Checked.bind_eq_ok.mp h
        obtain ⟨q, h1, h2, h3⟩ := ih ht
        exact ⟨q, by omega, h2, h3⟩
    · cases hb

/-- A string that `ft_strlen` gets to the end of is the string at the pointer. -/
theorem eq_cstr_of_ftStr {p : Nat} {s : List UInt8} (h : ftStr m p = .ok s) : s = m.cstr p := by
  rw [ftStr_terminated (terminated_of_ftStrlenFrom h)] at h
  cases h
  rfl

end

end NmOtool
