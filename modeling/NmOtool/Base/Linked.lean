import NmOtool.Base.Exchange

/-!
# Exchange sort of a linked list

The nodes of a list lie at addresses and point to each other. A sort that exchanges what two nodes
carry, and walks by their pointers, does to the payloads what `exchangeSort` does to a list, and
leaves the pointers alone.
-/

namespace NmOtool

variable {α : Type}

/-- A node: what it carries, and the address of the next one. -/
structure Node (α : Type) where
  payload : α
  next : Option Nat

/-- The nodes by their addresses. -/
abbrev Nodes (α : Type) := Nat → Node α

namespace Nodes

def setPayload (h : Nodes α) (p : Nat) (a : α) : Nodes α :=
  fun q => if q = p then { h q with payload := a } else h q

/-- The nodes of the list at `p` have the addresses `as`. -/
def IsList (h : Nodes α) : Option Nat → List Nat → Prop
  | p, [] => p = none
  | p, a :: as => p = some a ∧ IsList h (h a).next as

def payloads (h : Nodes α) (as : List Nat) : List α := as.map fun a => (h a).payload

variable {h h' : Nodes α} {p q cp n fuel size : Nat} {a : α} {as bs : List Nat} {l : Option Nat}

@[simp] theorem next_setPayload : (h.setPayload p a q).next = (h q).next := by
  unfold setPayload
  split <;> rfl

@[simp] theorem payload_setPayload_self : (h.setPayload p a p).payload = a := by
  simp [setPayload]

theorem setPayload_of_ne (hq : q ≠ p) : h.setPayload p a q = h q := if_neg hq

@[simp] theorem setPayload_self : h.setPayload p (h p).payload = h := by
  funext q
  by_cases hq : q = p
  · rw [hq, setPayload, if_pos rfl]
  · exact setPayload_of_ne hq

@[simp] theorem setPayload_setPayload {b : α} :
    (h.setPayload p a).setPayload p b = h.setPayload p b := by
  funext q
  by_cases hq : q = p
  · simp [setPayload, hq]
  · rw [setPayload_of_ne hq, setPayload_of_ne hq, setPayload_of_ne hq]

theorem IsList.congr (hn : ∀ q, (h' q).next = (h q).next) (hl : IsList h l as) :
    IsList h' l as := by
  induction as generalizing l with
  | nil => exact hl
  | cons a as ih =>
    obtain ⟨rfl, hl⟩ := hl
    exact ⟨rfl, ih (hn a ▸ hl)⟩

theorem IsList.unique (hl : IsList h l as) (hl' : IsList h l bs) : as = bs := by
  induction as generalizing l bs with
  | nil =>
    cases bs with
    | nil => rfl
    | cons b bs => exact absurd (hl'.1.symm.trans hl) (Option.some_ne_none b)
  | cons a as ih =>
    cases bs with
    | nil => exact absurd (hl.1.symm.trans hl') (Option.some_ne_none a)
    | cons b bs =>
      obtain rfl : a = b := Option.some.inj (hl.1.symm.trans hl'.1)
      rw [ih hl.2 hl'.2]

theorem IsList.suffix {b : Nat} (hl : IsList h l (as ++ b :: bs)) : IsList h (some b) (b :: bs) := by
  induction as generalizing l with
  | nil => exact ⟨rfl, hl.2⟩
  | cons a as ih => exact ih hl.2

/-- A list that ends has no node twice. -/
theorem IsList.nodup (hl : IsList h l as) : as.Nodup := by
  induction as generalizing l with
  | nil => exact List.nodup_nil
  | cons a as ih =>
    refine List.nodup_cons.mpr ⟨fun hmem => ?_, ih hl.2⟩
    obtain ⟨front, back, rfl⟩ := List.append_of_mem hmem
    have htail : IsList h (some a) (a :: back) := IsList.suffix hl.2
    have hwhole : IsList h (some a) (a :: (front ++ a :: back)) := ⟨rfl, hl.2⟩
    have hlen := congrArg List.length (htail.unique hwhole)
    simp only [List.length_cons, List.length_append] at hlen
    omega

theorem payloads_setPayload (hp : p ∉ as) : (h.setPayload p a).payloads as = h.payloads as := by
  apply List.map_congr_left
  intro q hq
  have hne : q ≠ p := fun heq => hp (heq ▸ hq)
  rw [setPayload_of_ne hne]

/-! ## The two loops -/

/-- The node at `cp` against those from `l` on, by the exchange `f`. -/
def pass (f : Nodes α → Nat → Nat → Checked (Nodes α)) :
    Nat → Nat → Option Nat → Nodes α → Checked (Nodes α)
  | _, _, none, h => pure h
  | 0, _, some _, _ => .fault
  | fuel + 1, cp, some jump, h => do
    let h ← f h cp jump
    pass f fuel cp (h jump).next h

/-- The sort from the node at `cp` on; a null pointer in place of `cp` would be followed. -/
def sortFrom (f : Nodes α → Nat → Nat → Checked (Nodes α)) (size : Nat) :
    Nat → Nat → Nodes α → Checked (Nodes α)
  | 0, _, _ => .fault
  | fuel + 1, cp, h =>
    match (h cp).next with
    | none => pure h
    | some next => do
      let h ← pass f size cp (some next) h
      match (h cp).next with
      | none => .fault
      | some cp => sortFrom f size fuel cp h

/-! ## What they do to the payloads -/

variable {f : Nodes α → Nat → Nat → Checked (Nodes α)} {g : α → α → Checked (α × α)}

/-- On two nodes `f` does to the payloads what `g` does to two values, and nothing else. -/
def ActsAs (f : Nodes α → Nat → Nat → Checked (Nodes α)) (g : α → α → Checked (α × α)) : Prop :=
  ∀ h p q, p ≠ q → f h p q = g (h p).payload (h q).payload >>= fun r =>
    .ok ((h.setPayload p r.1).setPayload q r.2)

/-- `h'` has the links of `h`, the payloads `out` at `as`, and all else of `h`. -/
structure Rewrites (h h' : Nodes α) (as : List Nat) (out : List α) : Prop where
  next : ∀ q, (h' q).next = (h q).next
  payloads : h'.payloads as = out
  rest : ∀ q, q ∉ as → h' q = h q

theorem pass_acts (hf : ActsAs f g) {out : α × List α} :
    ∀ as fuel l h, IsList h l as → cp ∉ as → as.length ≤ fuel →
      exchangePass g (h cp).payload (h.payloads as) = .ok out →
      ∃ h', pass f fuel cp l h = .ok h' ∧ Rewrites h h' (cp :: as) (out.1 :: out.2) := by
  intro as
  induction as generalizing out with
  | nil =>
    rintro fuel l h rfl - - hpass
    cases hpass
    refine ⟨h, by cases fuel <;> rfl, fun _ => rfl, rfl, fun _ _ => rfl⟩
  | cons jump as ih =>
    rintro (_ | fuel) l h ⟨rfl, hl⟩ hcp hlen hpass
    · exact absurd hlen (by simp)
    have hne : cp ≠ jump := fun e => hcp (e ▸ List.mem_cons_self)
    have hcp' : cp ∉ as := fun hmem => hcp (List.mem_cons_of_mem _ hmem)
    have hlist : IsList h (some jump) (jump :: as) := ⟨rfl, hl⟩
    have hjump : jump ∉ as := (List.nodup_cons.mp hlist.nodup).1
    rw [payloads, List.map_cons, exchangePass] at hpass
    obtain ⟨⟨c, j⟩, hg, hpass⟩ := Checked.bind_eq_ok.mp hpass
    obtain ⟨⟨c', r⟩, hrest, hpass⟩ := Checked.bind_eq_ok.mp hpass
    cases hpass
    have hstep : f h cp jump = .ok ((h.setPayload cp c).setPayload jump j) := by
      rw [hf h cp jump hne, hg]
      rfl
    have hsame : ((h.setPayload cp c).setPayload jump j).payloads as = h.payloads as := by
      rw [payloads_setPayload hjump, payloads_setPayload hcp']
    have hcpVal : ((h.setPayload cp c).setPayload jump j cp).payload = c := by
      rw [setPayload_of_ne hne, payload_setPayload_self]
    have hlinks : IsList ((h.setPayload cp c).setPayload jump j)
        ((h.setPayload cp c).setPayload jump j jump).next as := by
      simp only [next_setPayload]
      exact hl.congr (by simp)
    obtain ⟨h', hrun, hrw⟩ := ih fuel _ _ hlinks hcp' (by simpa using hlen)
      (by rw [hcpVal, hsame]; exact hrest)
    have hjumpVal : h' jump = (h.setPayload cp c).setPayload jump j jump :=
      hrw.rest jump (by simp [hjump, hne.symm])
    refine ⟨h', by rw [pass, hstep]; exact hrun, fun q => ?_, ?_, fun q hq => ?_⟩
    · rw [hrw.next, next_setPayload, next_setPayload]
    · have hp := hrw.payloads
      simp only [payloads, List.map_cons, List.cons.injEq] at hp ⊢
      refine ⟨hp.1, ?_, hp.2⟩
      rw [hjumpVal, payload_setPayload_self]
    · simp only [List.mem_cons, not_or] at hq
      rw [hrw.rest q (by simp [hq.1, hq.2.2]), setPayload_of_ne hq.2.1, setPayload_of_ne hq.1]

theorem sortFrom_acts (hf : ActsAs f g) {out : List α} :
    ∀ as cp fuel n h, IsList h (some cp) (cp :: as) → as.length < fuel → as.length ≤ size →
      as.length < n → exchangeSortFrom g n (h.payloads (cp :: as)) = .ok out →
      ∃ h', sortFrom f size fuel cp h = .ok h' ∧ Rewrites h h' (cp :: as) out := by
  intro as
  induction as generalizing out with
  | nil =>
    rintro cp (_ | fuel) (_ | n) h ⟨-, hl⟩ hfuel - hn hsort
    · exact absurd hfuel (by simp)
    · exact absurd hfuel (by simp)
    · exact absurd hn (by simp)
    have hout : exchangeSortFrom g (n + 1) (h.payloads [cp]) = .ok (h.payloads [cp]) := by
      cases n <;> rfl
    obtain rfl := Checked.ok.inj (hout.symm.trans hsort)
    refine ⟨h, ?_, fun _ => rfl, rfl, fun _ _ => rfl⟩
    rw [sortFrom, show (h cp).next = none from hl]
    rfl
  | cons next as ih =>
    rintro cp (_ | fuel) (_ | n) h hlist hfuel hsize hn hsort
    · exact absurd hfuel (by simp)
    · exact absurd hfuel (by simp)
    · exact absurd hn (by simp)
    obtain ⟨-, hnext, hl⟩ := id hlist
    have hcp : cp ∉ next :: as := (List.nodup_cons.mp hlist.nodup).1
    rw [payloads, List.map_cons, exchangeSortFrom] at hsort
    obtain ⟨⟨c, rest⟩, hpass, hsort⟩ := Checked.bind_eq_ok.mp hsort
    obtain ⟨out', hrest, hsort⟩ := Checked.bind_eq_ok.mp hsort
    cases hsort
    obtain ⟨h₁, hrun₁, hrw₁⟩ := pass_acts hf (next :: as) size (some next) h ⟨rfl, hl⟩ hcp hsize hpass
    have hp₁ := hrw₁.payloads
    rw [payloads, List.map_cons, List.cons.injEq] at hp₁
    have hrest₁ : h₁.payloads (next :: as) = rest := hp₁.2
    have hlist₁ : IsList h₁ (some next) (next :: as) :=
      IsList.congr hrw₁.next (show IsList h (some next) (next :: as) from ⟨rfl, hl⟩)
    obtain ⟨h', hrun, hrw⟩ := ih next fuel n h₁ hlist₁ (by simpa using hfuel)
      (by simp only [List.length_cons] at hsize; omega) (by simpa using hn)
      (by rw [hrest₁]; exact hrest)
    refine ⟨h', ?_, fun q => (hrw.next q).trans (hrw₁.next q), ?_, fun q hq => ?_⟩
    · rw [sortFrom, hnext]
      simp only
      rw [hrun₁, Checked.ok_bind, hrw₁.next, hnext]
      exact hrun
    · have hpay := hrw.payloads
      unfold payloads at hpay
      rw [payloads, List.map_cons, hpay, hrw.rest cp hcp, hp₁.1]
    · simp only [List.mem_cons, not_or] at hq
      rw [hrw.rest q (by simp [hq.2]), hrw₁.rest q (by simp [hq])]

end Nodes

end NmOtool
