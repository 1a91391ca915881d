import NmOtool.Base.Linked
import NmOtool.Nm.Order

/-!
# ft_nm: the sort on the nodes of the list

`sort_list_by_name.c` on the nodes themselves: two walks along `next`, and an exchange that moves
the four fields of two nodes one by one. It does to what the nodes carry what `Nm.sortListByName`
does to a list of records.
-/

namespace NmOtool.Nm.OnNodes

open MachO Checked

variable {m : Buffer} {h : Nodes TNm} {p q cp jump fuel : Nat} {flags : List UInt8}
  {as : List Nat} {list : Option Nat}

/-! ## The source -/

def setIs64 (h : Nodes TNm) (p : Nat) (v : Bool) : Nodes TNm :=
  h.setPayload p { (h p).payload with is64 := v }

def setType (h : Nodes TNm) (p : Nat) (v : UInt8) : Nodes TNm :=
  h.setPayload p { (h p).payload with type := v }

def setAdd (h : Nodes TNm) (p v : Nat) : Nodes TNm :=
  h.setPayload p { (h p).payload with add := v }

def setName (h : Nodes TNm) (p v : Nat) : Nodes TNm :=
  h.setPayload p { (h p).payload with name := v }

/-- The twelve assignments that the two exchanges share. -/
def exchangeFields (h : Nodes TNm) (cp jump : Nat) : Nodes TNm :=
  let is64Temp := (h cp).payload.is64
  let typeTemp := (h cp).payload.type
  let addTemp := (h cp).payload.add
  let nameTemp := (h cp).payload.name
  let h := setIs64 h cp (h jump).payload.is64
  let h := setType h cp (h jump).payload.type
  let h := setAdd h cp (h jump).payload.add
  let h := setName h cp (h jump).payload.name
  let h := setIs64 h jump is64Temp
  let h := setType h jump typeTemp
  let h := setAdd h jump addTemp
  setName h jump nameTemp

def compareExchange (m : Buffer) (h : Nodes TNm) (cp jump : Nat) : Checked (Nodes TNm) := do
  let c ← ftStrcmp m (h cp).payload.name (strAt m (h jump).payload.name)
  if c > 0 then pure (exchangeFields h cp jump)
  else if c = 0 then do
    let d ← compareAdd m (h cp).payload (h jump).payload
    if d > 0 then pure (exchangeFields h cp jump) else pure h
  else pure h

def compareExchangeReverse (m : Buffer) (h : Nodes TNm) (cp jump : Nat) :
    Checked (Nodes TNm) := do
  let c ← ftStrcmp m (h cp).payload.name (strAt m (h jump).payload.name)
  if c < 0 then pure (exchangeFields h cp jump)
  else if c = 0 then do
    let d ← compareAdd m (h cp).payload (h jump).payload
    if d < 0 then pure (exchangeFields h cp jump) else pure h
  else pure h

/-- `sort_list_by_name`; neither loop takes more than `fuel` steps. -/
def sortListByName (m : Buffer) (fuel : Nat) (list : Option Nat) (flags : List UInt8)
    (h : Nodes TNm) : Checked (Nodes TNm) :=
  match list with
  | none => pure h
  | some cp =>
    Nodes.sortFrom (fun h cp jump =>
      if ftStrchr flags 'r'.toUInt8 then compareExchangeReverse m h cp jump
      else compareExchange m h cp jump) fuel fuel cp h

/-! ## What it does to the records -/

/-- No field is lost in the twelve assignments. -/
theorem exchangeFields_eq (hne : cp ≠ jump) : exchangeFields h cp jump =
    (h.setPayload cp (h jump).payload).setPayload jump (h cp).payload := by
  have hkeep : ∀ {h : Nodes TNm} {a : TNm}, h.setPayload cp a jump = h jump :=
    fun {h a} => Nodes.setPayload_of_ne hne.symm
  simp only [exchangeFields, setIs64, setType, setAdd, setName, hkeep,
    Nodes.payload_setPayload_self, Nodes.setPayload_setPayload]

/-- The two nodes with the records that an exchange of records leaves. -/
def withRecords (h : Nodes TNm) (cp jump : Nat) (r : TNm × TNm) : Checked (Nodes TNm) :=
  .ok ((h.setPayload cp r.1).setPayload jump r.2)

theorem exchanged_eq (hne : cp ≠ jump) : (pure (exchangeFields h cp jump) : Checked (Nodes TNm)) =
    pure ((h jump).payload, (h cp).payload) >>= withRecords h cp jump := by
  rw [exchangeFields_eq hne]
  rfl

theorem kept_eq : (pure h : Checked (Nodes TNm)) =
    pure ((h cp).payload, (h jump).payload) >>= withRecords h cp jump := by
  rw [pure_eq, pure_eq, ok_bind, withRecords]
  simp only [Nodes.setPayload_self]

theorem compareExchange_acts : Nodes.ActsAs (compareExchange m) (Nm.compareExchange m) := by
  intro h p q hne
  rw [compareExchange, Nm.compareExchange, bind_assoc]
  apply bind_congr
  intro c
  split_ifs
  · exact exchanged_eq hne
  · rw [bind_assoc]
    apply bind_congr
    intro d
    split_ifs
    · exact exchanged_eq hne
    · exact kept_eq
  · exact kept_eq

theorem compareExchangeReverse_acts :
    Nodes.ActsAs (compareExchangeReverse m) (Nm.compareExchangeReverse m) := by
  intro h p q hne
  rw [compareExchangeReverse, Nm.compareExchangeReverse, bind_assoc]
  apply bind_congr
  intro c
  split_ifs
  · exact exchanged_eq hne
  · rw [bind_assoc]
    apply bind_congr
    intro d
    split_ifs
    · exact exchanged_eq hne
    · exact kept_eq
  · exact kept_eq

/-- The sort of the nodes is the sort of the records they carry. -/
theorem sortListByName_refines (hl : h.IsList list as) (hfuel : as.length ≤ fuel) {out : List TNm}
    (hsort : Nm.sortListByName m (h.payloads as) flags = .ok out) :
    ∃ h', sortListByName m fuel list flags h = .ok h' ∧ Nodes.Rewrites h h' as out := by
  cases as with
  | nil =>
    obtain rfl : list = none := hl
    obtain rfl : [] = out := Checked.ok.inj hsort
    exact ⟨h, rfl, fun _ => rfl, rfl, fun _ _ => rfl⟩
  | cons cp as =>
    obtain ⟨rfl, -⟩ := id hl
    rw [Nm.sortListByName, exchangeSort, Nodes.payloads, List.length_map] at hsort
    rw [List.length_cons] at hfuel
    refine Nodes.sortFrom_acts (fun h p q hne => ?_) as cp fuel _ h hl hfuel (Nat.le_of_lt hfuel)
      (Nat.lt_succ_self _) hsort
    by_cases hr : ftStrchr flags 'r'.toUInt8 = true
    · rw [if_pos hr, if_pos hr]
      exact compareExchangeReverse_acts h p q hne
    · rw [if_neg hr, if_neg hr]
      exact compareExchange_acts h p q hne

/-- The sort permutes the records, leaves the links alone, and orders the names. -/
theorem sortListByName_sorts (hl : h.IsList list as) (hc : Comparable m (h.payloads as))
    (hfuel : as.length ≤ fuel) :
    ∃ h', sortListByName m fuel list flags h = .ok h' ∧ h'.IsList list as ∧
      (∀ q, (h' q).next = (h q).next) ∧ (∀ q, q ∉ as → h' q = h q) ∧
      (h'.payloads as).Perm (h.payloads as) ∧
      NamesInOrder m (ftStrchr flags 'r'.toUInt8) (h'.payloads as) := by
  obtain ⟨h', hrun, hrw⟩ := sortListByName_refines hl hfuel (sortListByName_comparable hc)
  refine ⟨h', hrun, hl.congr hrw.next, hrw.next, hrw.rest, ?_, ?_⟩
  · rw [hrw.payloads]
    exact exchangeSortBy_perm _
  · rw [hrw.payloads]
    exact namesInOrder_sort

/-- Two nodes with the names `b` and `a`. -/
def twoNodes : Nodes TNm := fun p =>
  if p = 1 then ⟨⟨false, 0x54, 8, 2⟩, some 2⟩ else ⟨⟨false, 0x54, 12, 0⟩, none⟩

theorem sortListByName_sorts_twoNodes :
    ∃ h', sortListByName tieMap 2 (some 1) [] twoNodes = .ok h' ∧ h'.IsList (some 1) [1, 2] ∧
      (∀ q, (h' q).next = (twoNodes q).next) ∧ (∀ q, q ∉ [1, 2] → h' q = twoNodes q) ∧
      (h'.payloads [1, 2]).Perm (twoNodes.payloads [1, 2]) ∧
      NamesInOrder tieMap false (h'.payloads [1, 2]) := by
  have hb : tieMap.Terminated 2 := ⟨3, by decide, by decide, by decide⟩
  have hc : Comparable tieMap (twoNodes.payloads [1, 2]) :=
    ⟨by simp [Nodes.payloads, twoNodes, hb, tieMap_terminated], by decide +kernel⟩
  have hl : twoNodes.IsList (some 1) [1, 2] := ⟨rfl, rfl, rfl⟩
  exact sortListByName_sorts hl hc (Nat.le_refl _)

end NmOtool.Nm.OnNodes
