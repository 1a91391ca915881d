import NmOtool.Nm.Sort
import Mathlib.Data.Prod.Lex

/-!
# ft_nm: what the sort compares

`ft_strcmp` orders the names linearly, so the sort brings them in order whatever `compare_add`
says of records with one name. Those come out in the order of their addresses, in every arrangement
of the list, exactly when `TiesClose` holds of it: `compare_add` sees a difference modulo `2 ^ 32`
only, and takes its upper half for negative.
-/

namespace NmOtool.Nm

open MachO Checked

variable {m : Buffer} {x reverse : Bool} {flags : List UInt8} {list : List TNm} {a b : TNm}

/-- What the sort reads of a list: names that end, and both addresses of two records with one
name, at the width of either. -/
structure Comparable (m : Buffer) (list : List TNm) : Prop where
  name : ∀ r ∈ list, m.Terminated r.name
  address : ∀ r ∈ list, ∀ s ∈ list, m.cstr r.name = m.cstr s.name →
    r.add + wordSize s.is64 ≤ m.size

theorem Comparable.mono {l : List TNm} (h : Comparable m list) (hl : l ⊆ list) : Comparable m l :=
  ⟨fun r hr => h.name r (hl hr), fun r hr s hs => h.address r (hl hr) s (hl hs)⟩

/-- What `compare_add` computes. -/
def addDifference (m : Buffer) (a b : TNm) : Int :=
  int32 ((m.le (wordSize a.is64) a.add : Int) - m.le (wordSize a.is64) b.add)

/-- The two records change places. -/
def exchanges (m : Buffer) (reverse : Bool) (a b : TNm) : Bool :=
  let c := strcmp (m.cstr a.name) (m.cstr b.name)
  let d := addDifference m a b
  if reverse then c < 0 ∨ c = 0 ∧ d < 0 else c > 0 ∨ c = 0 ∧ d > 0

theorem strcmp_cstr_eq_zero {p q : Nat} :
    strcmp (m.cstr p) (m.cstr q) = 0 ↔ m.cstr p = m.cstr q :=
  strcmp_eq_zero Buffer.cstr_ne_zero Buffer.cstr_ne_zero

/-- The addresses that are compared if the names are the same. -/
def AddressesRead (m : Buffer) (a b : TNm) : Prop :=
  m.cstr a.name = m.cstr b.name →
    a.add + wordSize a.is64 ≤ m.size ∧ b.add + wordSize a.is64 ≤ m.size

theorem compareAdd_ok (h : a.add + wordSize a.is64 ≤ m.size ∧ b.add + wordSize a.is64 ≤ m.size) :
    compareAdd m a b = .ok (addDifference m a b) := by
  rw [compareAdd, Buffer.field_ok h.1, ok_bind, Buffer.field_ok h.2, ok_bind]
  rfl

theorem addresses_of_compareAdd {d : Int} (h : compareAdd m a b = .ok d) :
    a.add + wordSize a.is64 ≤ m.size ∧ b.add + wordSize a.is64 ≤ m.size := by
  obtain ⟨u, hu, h⟩ := bind_eq_ok.mp h
  obtain ⟨v, hv, -⟩ := bind_eq_ok.mp h
  exact ⟨(Buffer.returns_field.mp ⟨u, hu, rfl⟩).1, (Buffer.returns_field.mp ⟨v, hv, rfl⟩).1⟩

/-- `compare_exchange` and its reverse; `P` is the test of a value that they make. -/
def exchangeBy (m : Buffer) (P : Int → Prop) [DecidablePred P] (cp jump : TNm) :
    Checked (TNm × TNm) := do
  let c ← ftStrcmp m cp.name (strAt m jump.name)
  if P c then pure (jump, cp)
  else if c = 0 then do
    let d ← compareAdd m cp jump
    if P d then pure (jump, cp) else pure (cp, jump)
  else pure (cp, jump)

section
variable {P : Int → Prop} [DecidablePred P] (h0 : ¬ P 0)
include h0

theorem exchangeBy_ok (hname : ¬ RunsOut m a.name b.name) (hadd : AddressesRead m a b) :
    exchangeBy m P a b =
      .ok (if P (strcmp (m.cstr a.name) (m.cstr b.name)) ∨
          strcmp (m.cstr a.name) (m.cstr b.name) = 0 ∧ P (addDifference m a b) then (b, a)
        else (a, b)) := by
  rw [exchangeBy, ftStrcmp_ok hname, ok_bind]
  by_cases hc : P (strcmp (m.cstr a.name) (m.cstr b.name))
  · rw [if_pos hc, if_pos (.inl hc)]
    rfl
  · rw [if_neg hc]
    by_cases heq : strcmp (m.cstr a.name) (m.cstr b.name) = 0
    · rw [if_pos heq, compareAdd_ok (hadd (strcmp_cstr_eq_zero.mp heq)), ok_bind]
      simp only [heq, h0, false_or, true_and]
      split_ifs <;> rfl
    · rw [if_neg heq, if_neg (by simp [hc, heq])]
      rfl

/-- An exchange that returns has told the names apart in the map, and read both addresses if they
are the same. -/
theorem reads_of_exchangeBy {r : TNm × TNm} (h : exchangeBy m P a b = .ok r) :
    ¬ RunsOut m a.name b.name ∧ AddressesRead m a b := by
  have hname : ¬ RunsOut m a.name b.name := by
    intro hout
    rw [exchangeBy, ftStrcmp_runsOut hout] at h
    cases h
  refine ⟨hname, fun heq => ?_⟩
  rw [exchangeBy, ftStrcmp_ok hname, ok_bind, strcmp_cstr_eq_zero.mpr heq, if_neg h0,
    if_pos rfl] at h
  obtain ⟨d, hd, -⟩ := bind_eq_ok.mp h
  exact addresses_of_compareAdd hd

end

/-- The exchange that `sort_list_by_name` calls. -/
def exchange (m : Buffer) (reverse : Bool) : TNm → TNm → Checked (TNm × TNm) :=
  if reverse then compareExchangeReverse m else compareExchange m

theorem exchange_ok (hname : ¬ RunsOut m a.name b.name) (hadd : AddressesRead m a b) :
    exchange m reverse a b = .ok (if exchanges m reverse a b then (b, a) else (a, b)) := by
  cases reverse
  · have h : compareExchange m a b = _ := exchangeBy_ok (Int.lt_irrefl 0) hname hadd
    simpa [exchange, exchanges] using h
  · have h : compareExchangeReverse m a b = _ := exchangeBy_ok (Int.lt_irrefl 0) hname hadd
    simpa [exchange, exchanges] using h

theorem decides_exchange : DecidesBy (exchange m reverse) (exchanges m reverse)
    fun a b => RunsOut m a.name b.name := by
  intro a b r h
  obtain ⟨hname, hadd⟩ : ¬ RunsOut m a.name b.name ∧ AddressesRead m a b := by
    cases reverse
    · exact @reads_of_exchangeBy _ _ _ (· > 0) _ (Int.lt_irrefl 0) _ h
    · exact @reads_of_exchangeBy _ _ _ (· < 0) _ (Int.lt_irrefl 0) _ h
  rw [exchange_ok hname hadd] at h
  exact ⟨hname, (Checked.ok.inj h).symm⟩

theorem sortListByName_eq : sortListByName m list flags =
    exchangeSort (exchange m (ftStrchr flags 'r'.toUInt8)) list := rfl

theorem Comparable.addressesRead (h : Comparable m list) (ha : a ∈ list) (hb : b ∈ list) :
    AddressesRead m a b :=
  fun hname => ⟨h.address a ha a ha rfl, h.address b hb a ha hname.symm⟩

/-- The sort by `ft_strcmp` and `compare_add` is the exchange sort by `exchanges`. -/
theorem sortListByName_comparable (h : Comparable m list) :
    sortListByName m list flags =
      .ok (exchangeSortBy (exchanges m (ftStrchr flags 'r'.toUInt8)) list) := by
  refine exchangeSort_ok (P := (· ∈ list)) (fun a b ha hb => ?_) list fun _ hr => hr
  exact exchange_ok (not_runsOut (h.name a ha) (h.name b hb)) (h.addressesRead ha hb)

/-! ## Names -/

def nameKey (m : Buffer) (r : TNm) : List Nat := unsignedBytes (m.cstr r.name)

theorem nameKey_inj : nameKey m a = nameKey m b ↔ m.cstr a.name = m.cstr b.name := unsignedBytes_inj

theorem strcmp_cstr_neg :
    strcmp (m.cstr a.name) (m.cstr b.name) < 0 ↔ nameKey m a < nameKey m b :=
  strcmp_neg Buffer.cstr_ne_zero Buffer.cstr_ne_zero

theorem strcmp_cstr_pos :
    0 < strcmp (m.cstr a.name) (m.cstr b.name) ↔ nameKey m b < nameKey m a :=
  strcmp_pos Buffer.cstr_ne_zero Buffer.cstr_ne_zero

theorem exchanges_of_lt (h : nameKey m a < nameKey m b) :
    exchanges m reverse a b = reverse ∧ exchanges m reverse b a = !reverse := by
  have hlt : strcmp (m.cstr a.name) (m.cstr b.name) < 0 := strcmp_cstr_neg.mpr h
  have hgt : 0 < strcmp (m.cstr b.name) (m.cstr a.name) := strcmp_cstr_pos.mpr h
  unfold exchanges
  cases reverse
  · simp only [Bool.false_eq_true, if_false, Bool.not_false, decide_eq_false_iff_not,
      decide_eq_true_eq]
    omega
  · simp only [if_true, Bool.not_true, decide_eq_false_iff_not, decide_eq_true_eq]
    omega

theorem exchanges_of_eq (h : m.cstr a.name = m.cstr b.name) :
    exchanges m reverse a b =
      if reverse then decide (addDifference m a b < 0) else decide (0 < addDifference m a b) := by
  unfold exchanges
  rw [h, strcmp_self]
  cases reverse <;> simp

theorem judges_names : Judges (exchanges m false) (nameKey m) list :=
  fun _ _ _ _ hlt => (exchanges_of_lt hlt).symm

theorem judges_names_reverse : Judges (exchanges m true) (OrderDual.toDual ∘ nameKey m) list :=
  fun _ _ _ _ hlt => exchanges_of_lt (OrderDual.toDual_lt_toDual.mp hlt)

def NamesInOrder (m : Buffer) (reverse : Bool) (list : List TNm) : Prop :=
  list.Pairwise fun a b =>
    if reverse then nameKey m b ≤ nameKey m a else nameKey m a ≤ nameKey m b

theorem namesInOrder_sort : NamesInOrder m reverse (exchangeSortBy (exchanges m reverse) list) := by
  cases reverse
  · exact exchangeSortBy_sorted list judges_names
  · exact exchangeSortBy_sorted list judges_names_reverse

/-! ## Names that cannot be compared -/

theorem convex_runsOut : Convex (fun a b : TNm => RunsOut m a.name b.name) (nameKey m) where
  symm _ _ h := h.symm
  between a x b hax hxb h := by
    rcases h with ⟨ha, hpre⟩ | ⟨hb, hpre⟩
    · exact .inl (.inl ⟨ha, prefix_between hax hxb hpre⟩)
    · -- the names of `b` and `a` are the same, and so is that of `x`
      have hba : nameKey m b ≤ nameKey m a := le_of_prefix hpre
      have hx : m.cstr x.name = m.cstr b.name :=
        nameKey_inj.mp (le_antisymm hxb (hba.trans hax))
      exact .inr (.inr ⟨hb, hx ▸ List.prefix_refl _⟩)

/-- No two of the records have names that run out of the map when they are compared. -/
def NamesApart (m : Buffer) (list : List TNm) : Prop :=
  list.Pairwise fun a b => ¬ RunsOut m a.name b.name

/-- A list is sorted if its names are told apart, and its addresses can be read. -/
theorem sortListByName_apart (h : NamesApart m list)
    (hadd : ∀ a ∈ list, ∀ b ∈ list, AddressesRead m a b) :
    sortListByName m list flags =
      .ok (exchangeSortBy (exchanges m (ftStrchr flags 'r'.toUInt8)) list) := by
  have hread : list.Pairwise fun a b => AddressesRead m a b ∧ AddressesRead m b a :=
    List.pairwise_of_forall_mem_list fun a ha b hb => ⟨hadd a ha b hb, hadd b hb a ha⟩
  exact exchangeSort_ok_of_pairwise (fun a b hab => exchange_ok hab.1 hab.2.1)
    (fun _ _ hab => ⟨fun hout => hab.1 hout.symm, hab.2.symm⟩) (h.and hread)

/-- The sort compares enough of the names to leave the map if any two of them run out of it. -/
theorem namesApart_of_sort {out : List TNm} (h : sortListByName m list flags = .ok out) :
    NamesApart m list := by
  rw [sortListByName_eq] at h
  cases hr : ftStrchr flags 'r'.toUInt8
  · rw [hr] at h
    exact decides_exchange.exchangeSort_clear convex_runsOut judges_names h
  · rw [hr] at h
    exact decides_exchange.exchangeSort_clear convex_runsOut.toDual judges_names_reverse h

/-! ## Addresses -/

/-! The sign of the narrowed difference, either way round. -/

section
variable {u v : Nat}

theorem int32_sub_pos (h : u < v) : ¬ 0 < int32 ((u : Int) - v) ∧ 0 < int32 ((v : Int) - u) ↔
    0 < (v - u) % 2 ^ 32 ∧ (v - u) % 2 ^ 32 < 2 ^ 31 := by
  unfold int32
  rw [Int.bmod_def, Int.bmod_def]
  split <;> split <;> omega

theorem int32_sub_neg (h : u < v) : int32 ((u : Int) - v) < 0 ∧ ¬ int32 ((v : Int) - u) < 0 ↔
    0 < (v - u) % 2 ^ 32 ∧ (v - u) % 2 ^ 32 < 2 ^ 31 := by
  unfold int32
  rw [Int.bmod_def, Int.bmod_def]
  split <;> split <;> omega

end

/-- The address that a record of the width `x` points to. -/
def addressOf (m : Buffer) (x : Bool) (r : TNm) : Nat := m.le (wordSize x) r.add

/-- Two records with one name have the same address, or their difference modulo `2 ^ 32` is
positive as an `int`. -/
def TiesClose (m : Buffer) (x : Bool) (list : List TNm) : Prop :=
  ∀ a ∈ list, ∀ b ∈ list, m.cstr a.name = m.cstr b.name → addressOf m x a < addressOf m x b →
    0 < (addressOf m x b - addressOf m x a) % 2 ^ 32 ∧
      (addressOf m x b - addressOf m x a) % 2 ^ 32 < 2 ^ 31

instance : Decidable (TiesClose m x list) := by unfold TiesClose; infer_instance

def AddressesInOrder (m : Buffer) (x reverse : Bool) (list : List TNm) : Prop :=
  list.Pairwise fun a b => m.cstr a.name = m.cstr b.name →
    if reverse then addressOf m x b ≤ addressOf m x a else addressOf m x a ≤ addressOf m x b

instance : Decidable (AddressesInOrder m x reverse list) := by
  unfold AddressesInOrder; infer_instance

/-- Name and address, in the lexicographic order. -/
def recordKey (m : Buffer) (x : Bool) (r : TNm) : List Nat ×ₗ Nat :=
  toLex (nameKey m r, addressOf m x r)

theorem recordKey_lt : recordKey m x a < recordKey m x b ↔
    nameKey m a < nameKey m b ∨
      m.cstr a.name = m.cstr b.name ∧ addressOf m x a < addressOf m x b := by
  rw [recordKey, recordKey, Prod.Lex.toLex_lt_toLex, nameKey_inj]

theorem recordKey_le : recordKey m x a ≤ recordKey m x b ↔ nameKey m a ≤ nameKey m b ∧
    (m.cstr a.name = m.cstr b.name → addressOf m x a ≤ addressOf m x b) := by
  have hle : nameKey m a ≤ nameKey m b ↔ nameKey m a < nameKey m b ∨ nameKey m a = nameKey m b :=
    le_iff_lt_or_eq
  have hirr : nameKey m a < nameKey m b → nameKey m a ≠ nameKey m b := fun h => h.ne
  rw [recordKey, recordKey, Prod.Lex.toLex_le_toLex, ← nameKey_inj]
  simp only
  tauto

/-- The comparison of the keys by which `exchanges` decides. -/
def keyExchanges (reverse : Bool) (p q : List Nat ×ₗ Nat) : Bool :=
  let d := int32 (((ofLex p).2 : Int) - (ofLex q).2)
  if reverse then (ofLex p).1 < (ofLex q).1 ∨ (ofLex p).1 = (ofLex q).1 ∧ d < 0
  else (ofLex q).1 < (ofLex p).1 ∨ (ofLex p).1 = (ofLex q).1 ∧ d > 0

theorem exchanges_key (ha : a.is64 = x) :
    exchanges m reverse a b = keyExchanges reverse (recordKey m x a) (recordKey m x b) := by
  unfold exchanges keyExchanges addDifference
  simp only [recordKey, ofLex_toLex, ha, addressOf, nameKey_inj, strcmp_cstr_eq_zero, gt_iff_lt,
    strcmp_cstr_neg, strcmp_cstr_pos]

/-- How the sort takes two records of one name and different addresses. -/
theorem exchanges_tie (ha : a.is64 = x) (hb : b.is64 = x) (hname : m.cstr a.name = m.cstr b.name)
    (hlt : addressOf m x a < addressOf m x b) :
    exchanges m reverse a b = reverse ∧ exchanges m reverse b a = !reverse ↔
      0 < (addressOf m x b - addressOf m x a) % 2 ^ 32 ∧
        (addressOf m x b - addressOf m x a) % 2 ^ 32 < 2 ^ 31 := by
  rw [exchanges_of_eq hname, exchanges_of_eq hname.symm, addDifference, addDifference, ha, hb]
  cases reverse
  · simp only [Bool.false_eq_true, if_false, Bool.not_false, decide_eq_false_iff_not,
      decide_eq_true_eq]
    exact int32_sub_pos hlt
  · simp only [if_true, Bool.not_true, decide_eq_false_iff_not, decide_eq_true_eq]
    exact int32_sub_neg hlt

theorem judges_iff_tiesClose (hw : ∀ r ∈ list, r.is64 = x) :
    (∀ a ∈ list, ∀ b ∈ list, recordKey m x a < recordKey m x b →
      exchanges m reverse a b = reverse ∧ exchanges m reverse b a = !reverse) ↔
        TiesClose m x list := by
  constructor
  · intro h a ha b hb hname hlt
    have hkey : recordKey m x a < recordKey m x b := recordKey_lt.mpr (.inr ⟨hname, hlt⟩)
    exact (exchanges_tie (hw a ha) (hw b hb) hname hlt).mp (h a ha b hb hkey)
  · intro h a ha b hb hkey
    rcases recordKey_lt.mp hkey with hlt | ⟨hname, hlt⟩
    · exact exchanges_of_lt hlt
    · exact (exchanges_tie (hw a ha) (hw b hb) hname hlt).mpr (h a ha b hb hname hlt)

theorem inOrder_iff : NamesInOrder m reverse list ∧ AddressesInOrder m x reverse list ↔
    list.Pairwise fun a b =>
      if reverse then recordKey m x b ≤ recordKey m x a else recordKey m x a ≤ recordKey m x b := by
  rw [NamesInOrder, AddressesInOrder, ← List.pairwise_and_iff]
  refine List.Pairwise.iff fun {a b} => ?_
  cases reverse
  · exact recordKey_le.symm
  · simp only [if_true, recordKey_le, eq_comm]

/-- Every arrangement of the list comes out with its ties in the order of their addresses exactly
when they are close. -/
theorem addresses_sort_iff (hw : ∀ r ∈ list, r.is64 = x) :
    (∀ l : List TNm, l.Perm list →
      AddressesInOrder m x reverse (exchangeSortBy (exchanges m reverse) l)) ↔
        TiesClose m x list := by
  have hjudges : (∀ a ∈ list, ∀ b ∈ list, recordKey m x a < recordKey m x b →
      exchanges m reverse a b = reverse ∧ exchanges m reverse b a = !reverse) ↔
        TiesClose m x list := judges_iff_tiesClose hw
  rw [← hjudges]
  have hboth : ∀ l, AddressesInOrder m x reverse (exchangeSortBy (exchanges m reverse) l) ↔ _ :=
    fun l => (and_iff_right namesInOrder_sort).symm.trans inOrder_iff
  simp only [hboth]
  have hcmp : ∀ a ∈ list, ∀ b ∈ list, exchanges m reverse a b =
      keyExchanges reverse (recordKey m x a) (recordKey m x b) :=
    fun a ha b _ => exchanges_key (hw a ha)
  cases reverse
  · refine (sorts_perms_iff hcmp).trans ?_
    exact forall₂_congr fun a ha => forall₃_congr fun b hb hlt => and_comm
  · have hdual : (∀ l : List TNm, l.Perm list → (exchangeSortBy (exchanges m true) l).Pairwise
        fun a b => OrderDual.toDual (recordKey m x a) ≤ OrderDual.toDual (recordKey m x b)) ↔
          Judges (exchanges m true) (fun r => OrderDual.toDual (recordKey m x r)) list :=
      sorts_perms_iff (κ := (List Nat ×ₗ Nat)ᵒᵈ) hcmp
    refine hdual.trans ⟨fun h a ha b hb hlt => ?_, fun h a ha b hb hlt => ?_⟩
    · exact h b hb a ha (OrderDual.toDual_lt_toDual.mpr hlt)
    · exact h b hb a ha (OrderDual.toDual_lt_toDual.mp hlt)

/-- Equal names are ordered by address: in every arrangement of a list of one width, exactly when
the ties of the list are close. -/
theorem sortListByName_addresses (h : Comparable m list) (hw : ∀ r ∈ list, r.is64 = x) :
    (∀ l : List TNm, l.Perm list → ∃ out, sortListByName m l flags = .ok out ∧ out.Perm l ∧
      AddressesInOrder m x (ftStrchr flags 'r'.toUInt8) out) ↔ TiesClose m x list := by
  have hties : (∀ l : List TNm, l.Perm list → AddressesInOrder m x (ftStrchr flags 'r'.toUInt8)
      (exchangeSortBy (exchanges m (ftStrchr flags 'r'.toUInt8)) l)) ↔ TiesClose m x list :=
    addresses_sort_iff hw
  rw [← hties]
  refine forall₂_congr fun l hp => ?_
  rw [sortListByName_comparable (h.mono hp.subset)]
  constructor
  · rintro ⟨out, hout, -, horder⟩
    obtain rfl := Checked.ok.inj hout
    exact horder
  · exact fun horder => ⟨_, rfl, exchangeSortBy_perm l, horder⟩

/-- The names `a` and `b`, and the values `2 ^ 31`, `0` and `5`. -/
def tieMap : Buffer := .ofBytes 16 <|
  [0x61, 0, 0x62, 0] ++ ByteOrder.little.encode 4 (2 ^ 31) ++ ByteOrder.little.encode 4 0 ++
    ByteOrder.little.encode 4 5

/-- The symbol `a` with the value at `add`. -/
def tieRecord (add : Nat) : TNm := ⟨false, 0x54, add, 0⟩

theorem tieMap_terminated : tieMap.Terminated 0 := ⟨1, by decide, by decide, by decide⟩

theorem sortListByName_addresses_near :
    ∃ out, sortListByName tieMap [tieRecord 12, tieRecord 8] [] = .ok out ∧
      out.Perm [tieRecord 12, tieRecord 8] ∧ AddressesInOrder tieMap false false out := by
  have hc : Comparable tieMap [tieRecord 12, tieRecord 8] :=
    ⟨by simp [tieRecord, tieMap_terminated], by decide +kernel⟩
  have hties : TiesClose tieMap false [tieRecord 12, tieRecord 8] := by decide +kernel
  exact (sortListByName_addresses hc (by simp [tieRecord])).mpr hties _ (.refl _)

/-- The value `2 ^ 31` stays in front of `0`. -/
theorem farTie_unordered : ¬ ∀ m x list flags, Comparable m list → (∀ r ∈ list, r.is64 = x) →
    ∃ out, sortListByName m list flags = .ok out ∧
      AddressesInOrder m x (ftStrchr flags 'r'.toUInt8) out := by
  intro hall
  have hc : Comparable tieMap [tieRecord 4, tieRecord 8] :=
    ⟨by simp [tieRecord, tieMap_terminated], by decide +kernel⟩
  obtain ⟨out, hout, horder⟩ := hall _ false _ [] hc (by simp [tieRecord])
  have hkept : sortListByName tieMap [tieRecord 4, tieRecord 8] [] =
      .ok [tieRecord 4, tieRecord 8] := by decide +kernel
  obtain rfl := Checked.ok.inj (hkept.symm.trans hout)
  exact absurd horder (by decide +kernel)

end NmOtool.Nm
