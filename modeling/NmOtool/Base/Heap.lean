import NmOtool.Base.Linked
import Mathlib.Data.Finset.Card
import Mathlib.Data.Finset.SDiff
import Mathlib.Data.Fintype.EquivFin

/-!
# Lists on a heap

Nodes that are allocated and freed. An access to a node that is not allocated is a fault, and so
is a second `free`: a run without a fault frees no node twice and reads none that is freed.
`Adds h₀ h list as loose` says what a program has made of the heap `h₀`: a list at `list` with the
nodes `as`, and the nodes `loose`, to which no list leads. There is one rule for each operation.
-/

namespace NmOtool

variable {α : Type}

namespace Nodes

def setNext (h : Nodes α) (p : Nat) (next : Option Nat) : Nodes α :=
  fun q => if q = p then { h q with next } else h q

variable {h h' : Nodes α} {p q : Nat} {next l : Option Nat} {as : List Nat}

@[simp] theorem next_setNext_self : (h.setNext p next p).next = next := by
  simp [setNext]

@[simp] theorem payload_setNext : (h.setNext p next q).payload = (h q).payload := by
  unfold setNext
  split <;> rfl

theorem setNext_of_ne (hq : q ≠ p) : h.setNext p next q = h q := if_neg hq

theorem IsList.congr_mem (hn : ∀ q ∈ as, (h' q).next = (h q).next) (hl : IsList h l as) :
    IsList h' l as := by
  induction as generalizing l with
  | nil => exact hl
  | cons a as ih =>
    obtain ⟨rfl, hl⟩ := hl
    refine ⟨rfl, ?_⟩
    rw [hn a List.mem_cons_self]
    exact ih (fun q hq => hn q (List.mem_cons_of_mem a hq)) hl

theorem payloads_congr (hp : ∀ q ∈ as, (h' q).payload = (h q).payload) :
    h'.payloads as = h.payloads as := List.map_congr_left hp

/-- A list that ends in `p` goes on with the node that `p` is made to point to. -/
theorem IsList.snoc {front : List Nat} (hl : IsList h l (front ++ [p])) (hq : q ∉ front ++ [p])
    (hnext : (h q).next = none) : IsList (h.setNext p (some q)) l (front ++ [p] ++ [q]) := by
  have hnodup := hl.nodup
  induction front generalizing l with
  | nil =>
    obtain ⟨rfl, -⟩ := hl
    have hqp : q ≠ p := by simpa using hq
    refine ⟨rfl, next_setNext_self, ?_⟩
    rw [setNext_of_ne hqp]
    exact hnext
  | cons a front ih =>
    obtain ⟨rfl, hl⟩ := hl
    rw [List.cons_append, List.nodup_cons] at hnodup
    have hap : a ≠ p := fun e => hnodup.1 (by simp [e])
    refine ⟨rfl, ?_⟩
    rw [setNext_of_ne hap]
    exact ih hl (fun hmem => hq (List.mem_cons_of_mem a hmem)) hnodup.2

end Nodes

/-- Nodes in memory: which addresses are allocated, and how often there was a request for one. -/
structure Heap (α : Type) where
  nodes : Nodes α
  live : Finset Nat
  calls : Nat

/-- The answers of `malloc`: to each request an address that is not in use, or none. -/
structure Allocator where
  answer : Nat → Finset Nat → Option Nat
  fresh : ∀ {n s p}, answer n s = some p → p ∉ s

/-- Memory does not run out. -/
def Allocator.Answers (k : Allocator) : Prop := ∀ n s, (k.answer n s).isSome

/-- The lowest address that is not in use. -/
def Allocator.lowest : Allocator where
  answer _ s := some (Nat.find (Infinite.exists_notMem_finset s))
  fresh h hmem := by
    cases h
    exact Nat.find_spec (Infinite.exists_notMem_finset _) hmem

theorem Allocator.lowest_answers : Allocator.lowest.Answers := fun _ _ => rfl

namespace Heap

/-- A heap on which nothing is allocated; there is some node at every address. -/
def empty (n : Node α) : Heap α := ⟨fun _ => n, ∅, 0⟩

/-! ## Operations -/

def malloc (k : Allocator) (h : Heap α) : Option Nat × Heap α :=
  match k.answer h.calls h.live with
  | none => (none, { h with calls := h.calls + 1 })
  | some p => (some p, { h with live := insert p h.live, calls := h.calls + 1 })

def read (h : Heap α) (p : Nat) : Checked (Node α) :=
  if p ∈ h.live then pure (h.nodes p) else .fault

/-- An assignment to fields of what the node at `p` carries. -/
def modify (h : Heap α) (p : Nat) (f : α → α) : Checked (Heap α) :=
  if p ∈ h.live then pure { h with nodes := h.nodes.setPayload p (f (h.nodes p).payload) }
  else .fault

def setNext (h : Heap α) (p : Nat) (next : Option Nat) : Checked (Heap α) :=
  if p ∈ h.live then pure { h with nodes := h.nodes.setNext p next } else .fault

def free (h : Heap α) (p : Nat) : Checked (Heap α) :=
  if p ∈ h.live then pure { h with live := h.live.erase p } else .fault

/-- The last node of the list at `p`; a walk that takes more steps than there are nodes does not
end. -/
def lastFrom : Nat → Nat → Heap α → Checked Nat
  | 0, _, _ => .fault
  | fuel + 1, p, h => do
    let n ← h.read p
    match n.next with
    | none => pure p
    | some next => lastFrom fuel next h

/-- The node `add` at the tail of the list. -/
def append (h : Heap α) (list : Option Nat) (add : Nat) : Checked (Option Nat × Heap α) :=
  match list with
  | none => pure (some add, h)
  | some p => do
    let last ← lastFrom h.live.card p h
    let h ← h.setNext last (some add)
    pure (some p, h)

/-- Free the list at `list`, each node after its link is read. -/
def freeFrom : Nat → Option Nat → Heap α → Checked (Heap α)
  | _, none, h => pure h
  | 0, some _, _ => .fault
  | fuel + 1, some p, h => do
    let n ← h.read p
    let h ← h.free p
    freeFrom fuel n.next h

def freeList (h : Heap α) (list : Option Nat) : Checked (Heap α) :=
  freeFrom h.live.card list h

/-! ## What a program has made of a heap -/

/-- Since `h₀` there is a list at `list` with the nodes `as`, and the nodes `loose` beside it. All
of these are new, and what was allocated in `h₀` is as it was. -/
structure Adds (h₀ h : Heap α) (list : Option Nat) (as loose : List Nat) : Prop where
  isList : h.nodes.IsList list as
  nodup : (as ++ loose).Nodup
  mem_live : ∀ p, p ∈ h.live ↔ p ∈ h₀.live ∨ p ∈ as ++ loose
  fresh : ∀ p ∈ as ++ loose, p ∉ h₀.live
  rest : ∀ p ∈ h₀.live, h.nodes p = h₀.nodes p

variable {h₀ h h' : Heap α} {list : Option Nat} {as loose front : List Nat} {p q : Nat}
  {k : Allocator}

theorem Adds.refl : Adds h h none [] [] :=
  ⟨rfl, List.nodup_nil, by simp, by simp, fun _ _ => rfl⟩

theorem Adds.live_list (ha : Adds h₀ h list as loose) (hp : p ∈ as) : p ∈ h.live :=
  (ha.mem_live p).mpr (.inr (List.mem_append_left loose hp))

theorem Adds.live_loose (ha : Adds h₀ h list as loose) (hp : p ∈ loose) : p ∈ h.live :=
  (ha.mem_live p).mpr (.inr (List.mem_append_right as hp))

theorem Adds.not_mem_list (ha : Adds h₀ h list as loose) (hp : p ∈ loose) : p ∉ as :=
  fun hmem => List.disjoint_of_nodup_append ha.nodup hmem hp

/-- The list has no more nodes than are allocated. -/
theorem Adds.length_le (ha : Adds h₀ h list as loose) : as.length ≤ h.live.card := by
  rw [← List.toFinset_card_of_nodup ha.isList.nodup]
  exact Finset.card_le_card fun p hp => ha.live_list (List.mem_toFinset.mp hp)

/-- What is allocated afterwards. -/
theorem Adds.live_eq (ha : Adds h₀ h none [] loose) : h.live = h₀.live ∪ loose.toFinset := by
  ext p
  rw [ha.mem_live p, Finset.mem_union, List.mem_toFinset, List.nil_append]

/-- The nodes of the list, and those beside it, are determined by the two heaps. -/
theorem Adds.unique {as' loose' : List Nat} (ha : Adds h₀ h list as loose)
    (ha' : Adds h₀ h list as' loose') : as = as' ∧ loose.Perm loose' := by
  have has := ha.isList.unique ha'.isList
  subst has
  refine ⟨rfl, (List.perm_ext_iff_of_nodup (List.nodup_append.mp ha.nodup).2.1
    (List.nodup_append.mp ha'.nodup).2.1).mpr fun p => ?_⟩
  constructor
  · intro hp
    have hlive := (ha'.mem_live p).mp (ha.live_loose hp)
    have hmem := hlive.resolve_left (ha.fresh p (List.mem_append_right as hp))
    exact (List.mem_append.mp hmem).resolve_left (ha.not_mem_list hp)
  · intro hp
    have hlive := (ha.mem_live p).mp (ha'.live_loose hp)
    have hmem := hlive.resolve_left (ha'.fresh p (List.mem_append_right as hp))
    exact (List.mem_append.mp hmem).resolve_left (ha'.not_mem_list hp)

/-- One program after another. -/
theorem Adds.trans {h₁ : Heap α} {loose' : List Nat} (h₁₀ : Adds h₀ h₁ none [] loose)
    (ha : Adds h₁ h list as loose') : Adds h₀ h list as (loose' ++ loose) := by
  have hmem : ∀ p, p ∈ h₁.live ↔ p ∈ h₀.live ∨ p ∈ loose := h₁₀.mem_live
  refine ⟨ha.isList, ?_, fun p => ?_, fun p hp => ?_, fun p hp => ?_⟩
  · rw [← List.append_assoc]
    refine ha.nodup.append h₁₀.nodup fun p hp hloose => ?_
    exact ha.fresh p hp ((hmem p).mpr (.inr hloose))
  · rw [ha.mem_live p, hmem p, ← List.append_assoc, List.mem_append (s := as ++ loose'), or_assoc,
      or_comm (a := p ∈ loose)]
  · rw [← List.append_assoc, List.mem_append] at hp
    rcases hp with hp | hp
    · exact fun hlive => ha.fresh p hp ((hmem p).mpr (.inl hlive))
    · exact h₁₀.fresh p hp
  · rw [ha.rest p ((hmem p).mpr (.inl hp)), h₁₀.rest p hp]

/-- Changes in the loose nodes leave the list alone. -/
theorem Adds.congr (ha : Adds h₀ h list as loose) (h' : Heap α) (hlive : h'.live = h.live)
    (hn : ∀ q, q ∉ loose → h'.nodes q = h.nodes q) :
    Adds h₀ h' list as loose ∧ h'.nodes.payloads as = h.nodes.payloads as := by
  have has : ∀ q ∈ as, h'.nodes q = h.nodes q := fun q hq => hn q fun hmem =>
    ha.not_mem_list hmem hq
  refine ⟨⟨ha.isList.congr_mem fun q hq => by rw [has q hq], ha.nodup, ?_, ha.fresh, ?_⟩,
    Nodes.payloads_congr fun q hq => by rw [has q hq]⟩
  · rw [hlive]
    exact ha.mem_live
  · intro q hq
    rw [hn q fun hmem => ha.fresh q (List.mem_append_right as hmem) hq, ha.rest q hq]

/-! ## The rules -/

theorem Adds.malloc (hk : k.Answers) (ha : Adds h₀ h list as loose) :
    ∃ p h', h.malloc k = (some p, h') ∧ Adds h₀ h' list as (p :: loose) ∧ h'.nodes = h.nodes := by
  obtain ⟨p, hp⟩ := Option.isSome_iff_exists.mp (hk h.calls h.live)
  have hfresh := k.fresh hp
  rw [ha.mem_live p, not_or] at hfresh
  have hperm : (as ++ p :: loose).Perm (p :: (as ++ loose)) := List.perm_middle
  refine ⟨p, { h with live := insert p h.live, calls := h.calls + 1 }, by rw [Heap.malloc, hp],
    ⟨ha.isList, ?_, fun q => ?_, fun q hq => ?_, ha.rest⟩, rfl⟩
  · exact hperm.nodup_iff.mpr (List.nodup_cons.mpr ⟨hfresh.2, ha.nodup⟩)
  · rw [Finset.mem_insert, ha.mem_live q, hperm.mem_iff, List.mem_cons]
    tauto
  · rcases List.mem_cons.mp (hperm.mem_iff.mp hq) with rfl | hq
    · exact hfresh.1
    · exact ha.fresh q hq

theorem read_ok (hp : p ∈ h.live) : h.read p = .ok (h.nodes p) := if_pos hp

theorem Adds.modify {f : α → α} (ha : Adds h₀ h list as loose) (hp : p ∈ loose) :
    ∃ h', h.modify p f = .ok h' ∧ Adds h₀ h' list as loose ∧
      h'.nodes.payloads as = h.nodes.payloads as ∧
      h'.nodes p = { h.nodes p with payload := f (h.nodes p).payload } := by
  refine ⟨_, if_pos (ha.live_loose hp), ?_⟩
  obtain ⟨ha', hsame⟩ := ha.congr { h with nodes := h.nodes.setPayload p _ } rfl
    fun q hq => Nodes.setPayload_of_ne fun e => hq (e ▸ hp)
  exact ⟨ha', hsame, if_pos rfl⟩

theorem Adds.setNext (next : Option Nat) (ha : Adds h₀ h list as loose) (hp : p ∈ loose) :
    ∃ h', h.setNext p next = .ok h' ∧ Adds h₀ h' list as loose ∧
      h'.nodes.payloads as = h.nodes.payloads as ∧ h'.nodes p = { h.nodes p with next } := by
  refine ⟨_, if_pos (ha.live_loose hp), ?_⟩
  obtain ⟨ha', hsame⟩ := ha.congr { h with nodes := h.nodes.setNext p next } rfl
    fun q hq => Nodes.setNext_of_ne fun e => hq (e ▸ hp)
  exact ⟨ha', hsame, if_pos rfl⟩

/-- The walk along a list of allocated nodes ends at the last one. -/
theorem lastFrom_ok {fuel : Nat} (hl : h.nodes.IsList (some p) (front ++ [q]))
    (hlive : ∀ a ∈ front ++ [q], a ∈ h.live) (hfuel : front.length < fuel) :
    lastFrom fuel p h = .ok q := by
  induction front generalizing p fuel with
  | nil =>
    obtain ⟨hp, hnext⟩ := hl
    obtain rfl := Option.some.inj hp
    obtain _ | fuel := fuel
    · exact absurd hfuel (Nat.not_lt_zero _)
    rw [lastFrom, read_ok (hlive p (by simp)), Checked.ok_bind, show (h.nodes p).next = none from hnext]
    rfl
  | cons a front ih =>
    obtain ⟨hp, hl⟩ := hl
    obtain rfl := Option.some.inj hp
    obtain _ | fuel := fuel
    · exact absurd hfuel (Nat.not_lt_zero _)
    obtain ⟨next, hnext⟩ : ∃ next, (h.nodes p).next = some next := by
      cases front with
      | nil => exact ⟨_, hl.1⟩
      | cons b front => exact ⟨_, hl.1⟩
    rw [lastFrom, read_ok (hlive p (by simp)), Checked.ok_bind, hnext]
    rw [hnext] at hl
    exact ih hl (fun b hb => hlive b (List.mem_cons_of_mem p hb)) (Nat.lt_of_succ_lt_succ hfuel)

/-- A loose node that ends a list can be appended to the list. -/
theorem Adds.append (ha : Adds h₀ h list as (p :: loose)) (hnext : (h.nodes p).next = none) :
    ∃ head h', h.append list p = .ok (head, h') ∧ Adds h₀ h' head (as ++ [p]) loose ∧
      h'.nodes.payloads (as ++ [p]) = h.nodes.payloads as ++ [(h.nodes p).payload] := by
  have hp : p ∉ as := ha.not_mem_list List.mem_cons_self
  have hsplit : as ++ p :: loose = as ++ [p] ++ loose := by simp
  cases list with
  | none =>
    obtain rfl : as = [] := by
      cases as with
      | nil => rfl
      | cons a as => exact absurd ha.isList.1 (by simp)
    exact ⟨_, h, rfl, ⟨⟨rfl, hnext⟩, ha.nodup, ha.mem_live, ha.fresh, ha.rest⟩, rfl⟩
  | some head =>
    obtain ⟨front, last, rfl⟩ : ∃ front last, as = front ++ [last] := by
      rcases List.eq_nil_or_concat as with rfl | ⟨front, last, rfl⟩
      · exact absurd ha.isList (Option.some_ne_none head)
      · exact ⟨front, last, List.concat_eq_append⟩
    have hlive : ∀ a ∈ front ++ [last], a ∈ h.live := fun a => ha.live_list
    have hlast : lastFrom h.live.card head h = .ok last := by
      refine lastFrom_ok ha.isList hlive ?_
      have := ha.length_le
      simp only [List.length_append, List.length_singleton] at this
      omega
    refine ⟨some head, { h with nodes := h.nodes.setNext last (some p) }, ?_, ⟨?_, ?_, ?_, ?_, ?_⟩, ?_⟩
    · rw [Heap.append, hlast, Checked.ok_bind, Heap.setNext, if_pos (hlive last (by simp))]
      rfl
    · exact ha.isList.snoc hp hnext
    · exact hsplit ▸ ha.nodup
    · exact hsplit ▸ ha.mem_live
    · exact hsplit ▸ ha.fresh
    · intro q hq
      have hne : q ≠ last := fun e => ha.fresh q (by simp [e]) hq
      exact (Nodes.setNext_of_ne hne).trans (ha.rest q hq)
    · simp [Nodes.payloads]

theorem freeFrom_ok {fuel : Nat} (hl : h.nodes.IsList list as) (hlive : ∀ a ∈ as, a ∈ h.live)
    (hfuel : as.length ≤ fuel) :
    freeFrom fuel list h = .ok { h with live := h.live \ as.toFinset } := by
  have hnodup := hl.nodup
  induction as generalizing list h fuel with
  | nil =>
    obtain rfl : list = none := hl
    have hsame : h.live \ ([] : List Nat).toFinset = h.live := by simp
    rw [hsame]
    cases fuel <;> rfl
  | cons a as ih =>
    obtain ⟨rfl, hl⟩ := hl
    obtain _ | fuel := fuel
    · exact absurd hfuel (by simp)
    obtain ⟨ha, hnodup⟩ := List.nodup_cons.mp hnodup
    rw [freeFrom, read_ok (hlive a List.mem_cons_self), Checked.ok_bind, free,
      if_pos (hlive a List.mem_cons_self), Checked.pure_eq, Checked.ok_bind]
    rw [ih (h := { h with live := h.live.erase a }) hl (fun b hb => ?_)
      (Nat.le_of_succ_le_succ hfuel) hnodup]
    · congr 2
      ext q
      simp only [Finset.mem_sdiff, Finset.mem_erase, List.mem_toFinset, List.mem_cons, not_or]
      tauto
    · have hne : b ≠ a := fun e => ha (e ▸ hb)
      exact Finset.mem_erase.mpr ⟨hne, hlive b (List.mem_cons_of_mem a hb)⟩

/-- The list is freed, node by node, and nothing else. -/
theorem Adds.freeList (ha : Adds h₀ h list as loose) :
    ∃ h', h.freeList list = .ok h' ∧ Adds h₀ h' none [] loose := by
  refine ⟨_, freeFrom_ok ha.isList (fun a => ha.live_list) ha.length_le, rfl,
    (List.nodup_append.mp ha.nodup).2.1, fun p => ?_,
    fun p hp => ha.fresh p (List.mem_append_right as hp), ha.rest⟩
  rw [Finset.mem_sdiff, List.mem_toFinset, ha.mem_live p, List.mem_append, List.nil_append]
  constructor
  · tauto
  · rintro (hp | hp)
    · exact ⟨.inl hp, fun hmem => ha.fresh p (List.mem_append_left loose hmem) hp⟩
    · exact ⟨.inr (.inr hp), ha.not_mem_list hp⟩

/-! ## The sort -/

/-- An exchange of nodes, on allocated ones. -/
def onNodes (g : Nodes α → Nat → Nat → Checked (Nodes α)) (h : Heap α) (p q : Nat) :
    Checked (Heap α) :=
  if p ∈ h.live ∧ q ∈ h.live then do
    let nodes ← g h.nodes p q
    pure { h with nodes }
  else .fault

/-- `Nodes.pass` on a heap. -/
def pass (f : Heap α → Nat → Nat → Checked (Heap α)) :
    Nat → Nat → Option Nat → Heap α → Checked (Heap α)
  | _, _, none, h => pure h
  | 0, _, some _, _ => .fault
  | fuel + 1, cp, some jump, h => do
    let h ← f h cp jump
    let n ← h.read jump
    pass f fuel cp n.next h

/-- `Nodes.sortFrom` on a heap. -/
def sortFrom (f : Heap α → Nat → Nat → Checked (Heap α)) (size : Nat) :
    Nat → Nat → Heap α → Checked (Heap α)
  | 0, _, _ => .fault
  | fuel + 1, cp, h => do
    let n ← h.read cp
    match n.next with
    | none => pure h
    | some next => do
      let h ← pass f size cp (some next) h
      let n ← h.read cp
      match n.next with
      | none => .fault
      | some cp => sortFrom f size fuel cp h

/-- The heap with other nodes. -/
def withNodes (h : Heap α) (x : Checked (Nodes α)) : Checked (Heap α) := do
  let nodes ← x
  pure { h with nodes }

variable {g : Nodes α → Nat → Nat → Checked (Nodes α)} {nodes nodes' : Nodes α}

/-- `g` leaves the links alone. -/
def KeepsLinks (g : Nodes α → Nat → Nat → Checked (Nodes α)) : Prop :=
  ∀ nodes p q nodes', g nodes p q = .ok nodes' → ∀ r, (nodes' r).next = (nodes r).next

theorem pass_next (hg : KeepsLinks g) {fuel cp : Nat} {l : Option Nat}
    (hrun : Nodes.pass g fuel cp l nodes = .ok nodes') (r : Nat) :
    (nodes' r).next = (nodes r).next := by
  induction fuel generalizing l nodes with
  | zero =>
    cases l with
    | none =>
      cases hrun
      rfl
    | some jump => cases hrun
  | succ fuel ih =>
    cases l with
    | none =>
      cases hrun
      rfl
    | some jump =>
      obtain ⟨n, hn, hrun⟩ := Checked.bind_eq_ok.mp hrun
      exact (ih hrun).trans (hg _ _ _ _ hn r)

theorem pass_onNodes (hg : KeepsLinks g) {fuel cp : Nat} {l : Option Nat}
    (hl : h.nodes.IsList l as) (hlive : ∀ a ∈ as, a ∈ h.live) (hcp : cp ∈ h.live) :
    pass (onNodes g) fuel cp l h = withNodes h (Nodes.pass g fuel cp l h.nodes) := by
  induction as generalizing fuel l h with
  | nil =>
    obtain rfl : l = none := hl
    cases fuel <;> rfl
  | cons jump as ih =>
    obtain ⟨rfl, hl⟩ := hl
    obtain _ | fuel := fuel
    · rfl
    have hjump := hlive jump List.mem_cons_self
    rw [pass, Nodes.pass, onNodes, if_pos ⟨hcp, hjump⟩]
    cases hrun : g h.nodes cp jump with
    | fault => rfl
    | ok nodes =>
      simp only [Checked.ok_bind, Checked.pure_eq]
      rw [read_ok (h := { h with nodes }) hjump, Checked.ok_bind]
      refine ih (h := { h with nodes }) ?_ (fun a ha => hlive a (List.mem_cons_of_mem jump ha)) hcp
      simp only [hg _ _ _ _ hrun jump]
      exact hl.congr (hg _ _ _ _ hrun)

/-- On a list of allocated nodes the sort is the sort of the nodes. -/
theorem sortFrom_onNodes (hg : KeepsLinks g) {fuel size cp : Nat}
    (hl : h.nodes.IsList (some cp) (cp :: as)) (hlive : ∀ a ∈ cp :: as, a ∈ h.live) :
    sortFrom (onNodes g) size fuel cp h = withNodes h (Nodes.sortFrom g size fuel cp h.nodes) := by
  induction as generalizing fuel cp h with
  | nil =>
    obtain _ | fuel := fuel
    · rfl
    have hnext : (h.nodes cp).next = none := hl.2
    rw [sortFrom, Nodes.sortFrom, read_ok (hlive cp (by simp)), Checked.ok_bind, hnext]
    rfl
  | cons next as ih =>
    obtain _ | fuel := fuel
    · rfl
    have hcp := hlive cp List.mem_cons_self
    obtain ⟨-, hnext, hl⟩ := hl
    have htail : h.nodes.IsList (some next) (next :: as) := ⟨rfl, hl⟩
    rw [sortFrom, Nodes.sortFrom, read_ok hcp, Checked.ok_bind, hnext]
    simp only
    rw [pass_onNodes hg htail (fun a ha => hlive a (List.mem_cons_of_mem cp ha)) hcp]
    cases hrun : Nodes.pass g size cp (some next) h.nodes with
    | fault => rfl
    | ok nodes =>
      have hlinks := pass_next hg hrun
      simp only [withNodes, Checked.ok_bind, Checked.pure_eq]
      rw [read_ok (h := { h with nodes }) hcp, Checked.ok_bind, hlinks cp, hnext]
      exact ih (h := { h with nodes }) (htail.congr hlinks)
        fun a ha => hlive a (List.mem_cons_of_mem cp ha)

/-- After a sort there is the same list with other payloads. -/
theorem Adds.rewrites {out : List α} (ha : Adds h₀ h list as loose)
    (hrw : Nodes.Rewrites h.nodes nodes as out) : Adds h₀ { h with nodes } list as loose :=
  ⟨ha.isList.congr hrw.next, ha.nodup, ha.mem_live, ha.fresh, fun p hp =>
    (hrw.rest p fun hmem => ha.fresh p (List.mem_append_left loose hmem) hp).trans (ha.rest p hp)⟩

end Heap

end NmOtool
