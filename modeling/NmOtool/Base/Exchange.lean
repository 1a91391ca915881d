import NmOtool.Base.Checked
import Mathlib.Data.List.Perm.Basic
import Mathlib.Data.List.Sort

/-!
# Exchange sort

The sort that compares each position with every later one and exchanges the two on the spot.
`exchangeSort f` runs it over a checked exchange `f`; `exchangeSortBy gt` is its meaning when
`f` exchanges exactly the pairs that `gt` orders wrongly. The result is a permutation, and it
commutes with every map that preserves `gt`. It is in order if `gt` finds every pair in the wrong
order (`Judges`), and no weaker condition will do for all arrangements of a list.
-/

namespace NmOtool

variable {α β : Type}

/-! ## The checked sort -/

/-- One position `cp` against the later ones, in order. -/
def exchangePass (f : α → α → Checked (α × α)) : α → List α → Checked (α × List α)
  | cp, [] => pure (cp, [])
  | cp, jump :: rest => do
    let (cp, jump) ← f cp jump
    let (cp, rest) ← exchangePass f cp rest
    pure (cp, jump :: rest)

def exchangeSortFrom (f : α → α → Checked (α × α)) : Nat → List α → Checked (List α)
  | 0, l => pure l
  | _ + 1, [] => pure []
  | n + 1, cp :: rest => do
    let (cp, rest) ← exchangePass f cp rest
    let rest ← exchangeSortFrom f n rest
    pure (cp :: rest)

def exchangeSort (f : α → α → Checked (α × α)) (l : List α) : Checked (List α) :=
  exchangeSortFrom f l.length l

/-! ## Its meaning -/

def exchangePassBy (gt : α → α → Bool) : α → List α → α × List α
  | cp, [] => (cp, [])
  | cp, jump :: rest =>
    let p := if gt cp jump then (jump, cp) else (cp, jump)
    let r := exchangePassBy gt p.1 rest
    (r.1, p.2 :: r.2)

def exchangeSortByFrom (gt : α → α → Bool) : Nat → List α → List α
  | 0, l => l
  | _ + 1, [] => []
  | n + 1, cp :: rest =>
    let r := exchangePassBy gt cp rest
    r.1 :: exchangeSortByFrom gt n r.2

def exchangeSortBy (gt : α → α → Bool) (l : List α) : List α := exchangeSortByFrom gt l.length l

section
variable {gt : α → α → Bool}

theorem exchangePassBy_perm (cp : α) (l : List α) :
    ((exchangePassBy gt cp l).1 :: (exchangePassBy gt cp l).2).Perm (cp :: l) := by
  induction l generalizing cp with
  | nil => rfl
  | cons jump rest ih =>
    simp only [exchangePassBy]
    split
    · have h := ih jump
      calc (exchangePassBy gt jump rest).1 :: cp :: (exchangePassBy gt jump rest).2
          |>.Perm (cp :: (exchangePassBy gt jump rest).1 :: (exchangePassBy gt jump rest).2) :=
            .swap ..
        _ |>.Perm (cp :: jump :: rest) := h.cons cp
    · have h := ih cp
      calc (exchangePassBy gt cp rest).1 :: jump :: (exchangePassBy gt cp rest).2
          |>.Perm (jump :: (exchangePassBy gt cp rest).1 :: (exchangePassBy gt cp rest).2) :=
            .swap ..
        _ |>.Perm (jump :: cp :: rest) := h.cons jump
        _ |>.Perm (cp :: jump :: rest) := .swap ..

theorem exchangeSortByFrom_perm (n : Nat) (l : List α) : (exchangeSortByFrom gt n l).Perm l := by
  induction n generalizing l with
  | zero => rfl
  | succ n ih =>
    cases l with
    | nil => rfl
    | cons cp rest => exact ((ih _).cons _).trans (exchangePassBy_perm cp rest)

theorem exchangeSortBy_perm (l : List α) : (exchangeSortBy gt l).Perm l :=
  exchangeSortByFrom_perm _ l

theorem exchangePassBy_mem (cp : α) (l : List α) : (exchangePassBy gt cp l).1 ∈ cp :: l :=
  (exchangePassBy_perm cp l).subset List.mem_cons_self

/-- An element that `gt` does not find greater than the copies of `a` passes them by. -/
theorem exchangePassBy_replicate {cp a : α} (h : gt cp a = true → cp = a) (k : Nat) (l : List α) :
    exchangePassBy gt cp (List.replicate k a ++ l) =
      ((exchangePassBy gt cp l).1, List.replicate k a ++ (exchangePassBy gt cp l).2) := by
  induction k with
  | zero => rfl
  | succ k ih =>
    have hpair : (if gt cp a then (a, cp) else (cp, a)) = (cp, a) := by
      by_cases hgt : gt cp a = true
      · rw [if_pos hgt, h hgt]
      · rw [if_neg hgt]
    simp only [List.replicate_succ, List.cons_append, exchangePassBy, hpair, ih]

/-! ## Maps -/

variable {gt' : β → β → Bool} {φ : α → β}

theorem exchangePassBy_map (cp : α) (l : List α)
    (h : ∀ a ∈ cp :: l, ∀ b ∈ cp :: l, gt a b = gt' (φ a) (φ b)) :
    exchangePassBy gt' (φ cp) (l.map φ) =
      (φ (exchangePassBy gt cp l).1, (exchangePassBy gt cp l).2.map φ) := by
  induction l generalizing cp with
  | nil => rfl
  | cons jump rest ih =>
    simp only [List.map_cons, exchangePassBy]
    rw [← h cp (by simp) jump (by simp)]
    split
    · rw [ih jump fun a ha b hb => h a (by simp_all) b (by simp_all)]
    · rw [ih cp fun a ha b hb => h a (by simp only [List.mem_cons] at ha ⊢; tauto) b
        (by simp only [List.mem_cons] at hb ⊢; tauto)]

theorem exchangeSortByFrom_map (n : Nat) (l : List α)
    (h : ∀ a ∈ l, ∀ b ∈ l, gt a b = gt' (φ a) (φ b)) :
    exchangeSortByFrom gt' n (l.map φ) = (exchangeSortByFrom gt n l).map φ := by
  induction n generalizing l with
  | zero => rfl
  | succ n ih =>
    cases l with
    | nil => rfl
    | cons cp rest =>
      have hp : (_ :: (exchangePassBy gt cp rest).2).Perm _ := exchangePassBy_perm cp rest
      simp only [List.map_cons, exchangeSortByFrom]
      rw [exchangePassBy_map cp rest h, ih]
      intro a ha b hb
      exact h a (hp.subset (List.mem_cons_of_mem _ ha)) b (hp.subset (List.mem_cons_of_mem _ hb))

/-- Sorting commutes with a map that preserves the comparison on the list. -/
theorem exchangeSortBy_map (l : List α) (h : ∀ a ∈ l, ∀ b ∈ l, gt a b = gt' (φ a) (φ b)) :
    exchangeSortBy gt' (l.map φ) = (exchangeSortBy gt l).map φ := by
  rw [exchangeSortBy, List.length_map]; exact exchangeSortByFrom_map _ l h

theorem exchangeSortBy_congr {gt' : α → α → Bool} (l : List α)
    (h : ∀ a ∈ l, ∀ b ∈ l, gt a b = gt' a b) : exchangeSortBy gt l = exchangeSortBy gt' l := by
  have hid : exchangeSortBy gt' (l.map id) = (exchangeSortBy gt l).map id := exchangeSortBy_map l h
  rw [List.map_id, List.map_id] at hid
  exact hid.symm

/-- An arrangement of the images is the image of an arrangement. -/
theorem exists_perm_map {l : List α} {p : List β} (hp : p.Perm (l.map φ)) :
    ∃ l' : List α, l'.Perm l ∧ l'.map φ = p := by
  have hmap : List.Forall₂ (fun b a => b = φ a) (l.map φ) l :=
    List.forall₂_map_left_iff.mpr (List.forall₂_same.mpr fun _ _ => rfl)
  obtain ⟨l', hfor, hperm⟩ := List.perm_comp_forall₂ hp hmap
  refine ⟨l', hperm, ?_⟩
  have heq : List.Forall₂ Eq p (l'.map φ) := List.forall₂_map_right_iff.mpr hfor
  exact (List.forall₂_eq_eq_eq ▸ heq : p = l'.map φ).symm

/-! ## Order -/

section
variable {κ : Type*} [LinearOrder κ] {key : α → κ}

/-- On the elements of `l`, `gt` tells a pair in the wrong order of the keys from one in the right
order. Of elements with equal keys nothing is asked. -/
def Judges (gt : α → α → Bool) (key : α → κ) (l : List α) : Prop :=
  ∀ a ∈ l, ∀ b ∈ l, key a < key b → gt b a = true ∧ gt a b = false

theorem Judges.mono {l l' : List α} (h : Judges gt key l) (hl : l' ⊆ l) : Judges gt key l' :=
  fun a ha b hb => h a (hl ha) b (hl hb)

theorem Judges.le_of_gt {l : List α} {a b : α} (h : Judges gt key l) (ha : a ∈ l) (hb : b ∈ l)
    (hgt : gt a b = true) : key b ≤ key a := by
  apply not_lt.mp
  intro hlt
  rw [(h a ha b hb hlt).2] at hgt
  exact absurd hgt (by decide)

theorem Judges.le_of_not_gt {l : List α} {a b : α} (h : Judges gt key l) (ha : a ∈ l)
    (hb : b ∈ l) (hgt : ¬ gt a b = true) : key a ≤ key b :=
  not_lt.mp fun hlt => hgt (h b hb a ha hlt).1

/-- A pass brings an element with the least key to the front. -/
theorem exchangePassBy_le (cp : α) (l : List α) (h : Judges gt key (cp :: l)) :
    key (exchangePassBy gt cp l).1 ≤ key cp ∧
      ∀ b ∈ (exchangePassBy gt cp l).2, key (exchangePassBy gt cp l).1 ≤ key b := by
  induction l generalizing cp with
  | nil => exact ⟨le_refl _, by simp [exchangePassBy]⟩
  | cons jump rest ih =>
    have hcp : cp ∈ cp :: jump :: rest := List.mem_cons_self
    have hjump : jump ∈ cp :: jump :: rest := List.mem_cons_of_mem _ List.mem_cons_self
    simp only [exchangePassBy]
    by_cases hgt : gt cp jump = true
    · rw [if_pos hgt]
      obtain ⟨h1, h2⟩ := ih jump (h.mono (List.subset_cons_self _ _))
      have hle := h1.trans (h.le_of_gt hcp hjump hgt)
      refine ⟨hle, fun b hb => ?_⟩
      rcases List.mem_cons.mp hb with rfl | hb
      · exact hle
      · exact h2 b hb
    · rw [if_neg hgt]
      have hsub : cp :: rest ⊆ cp :: jump :: rest :=
        List.cons_subset_cons _ (List.subset_cons_self _ _)
      obtain ⟨h1, h2⟩ := ih cp (h.mono hsub)
      refine ⟨h1, fun b hb => ?_⟩
      rcases List.mem_cons.mp hb with rfl | hb
      · exact h1.trans (h.le_of_not_gt hcp hjump hgt)
      · exact h2 b hb

theorem exchangeSortByFrom_sorted (n : Nat) (l : List α) (hn : l.length ≤ n)
    (h : Judges gt key l) :
    (exchangeSortByFrom gt n l).Pairwise fun a b => key a ≤ key b := by
  induction n generalizing l with
  | zero =>
    rw [List.length_eq_zero_iff.mp (Nat.le_zero.mp hn)]
    exact .nil
  | succ n ih =>
    cases l with
    | nil => exact .nil
    | cons cp rest =>
      have hp : (_ :: (exchangePassBy gt cp rest).2).Perm _ := exchangePassBy_perm cp rest
      have hrest : (exchangePassBy gt cp rest).2 ⊆ cp :: rest :=
        fun b hb => hp.subset (List.mem_cons_of_mem _ hb)
      have hlen := hp.length_eq
      simp only [List.length_cons] at hlen hn
      have hsorted := ih (exchangePassBy gt cp rest).2 (by omega) (h.mono hrest)
      have hle := (exchangePassBy_le cp rest h).2
      refine List.pairwise_cons.mpr ⟨fun b hb => ?_, hsorted⟩
      exact hle b ((exchangeSortByFrom_perm _ _).subset hb)

/-- The sort orders what `gt` judges rightly. -/
theorem exchangeSortBy_sorted (l : List α) (h : Judges gt key l) :
    (exchangeSortBy gt l).Pairwise fun a b => key a ≤ key b :=
  exchangeSortByFrom_sorted _ l (Nat.le_refl _) h

end

/-! Conversely, if every arrangement of a list comes out in order then `gt` judges it rightly. -/

section
variable {κ : Type} [LinearOrder κ] {gt : κ → κ → Bool}

/-- Every arrangement of the list comes out in order. -/
def SortsAll (gt : κ → κ → Bool) (l : List κ) : Prop :=
  ∀ l', l'.Perm l → (exchangeSortBy gt l').Pairwise (· ≤ ·)

/-- The head of a sorted arrangement is the least element. -/
theorem SortsAll.head {l p : List κ} {cp a : κ} (h : SortsAll gt l) (hp : (cp :: p).Perm l)
    (ha : a ∈ l) (hle : ∀ b ∈ l, a ≤ b) : (exchangePassBy gt cp p).1 = a := by
  have hsorted := h _ hp
  rw [exchangeSortBy, List.length_cons, exchangeSortByFrom] at hsorted
  have hpass : (_ :: (exchangePassBy gt cp p).2).Perm l := (exchangePassBy_perm cp p).trans hp
  refine le_antisymm ?_ (hle _ (hpass.subset List.mem_cons_self))
  rcases List.mem_cons.mp (hpass.symm.subset ha) with heq | hmem
  · exact heq ▸ le_refl _
  · exact (List.pairwise_cons.mp hsorted).1 a ((exchangeSortByFrom_perm _ _).symm.subset hmem)

/-- What `gt` says of the least element and a greater one. -/
theorem SortsAll.judges_head {a v : κ} {u : List κ} {k : Nat}
    (h : SortsAll gt (List.replicate (k + 1) a ++ v :: u)) (hv : a < v) (hu : ∀ b ∈ u, a < b) :
    gt v a = true ∧ gt a v = false := by
  have ha : a ∈ List.replicate (k + 1) a ++ v :: u := by simp
  have hle : ∀ b ∈ List.replicate (k + 1) a ++ v :: u, a ≤ b := by
    intro b hb
    rcases List.mem_append.mp hb with hb | hb
    · rw [List.eq_of_mem_replicate hb]
    · rcases List.mem_cons.mp hb with rfl | hb
      · exact hv.le
      · exact (hu b hb).le
  -- a pass that has `v` in hand behind the copies of `a` does not end with `a`
  have hlost : ¬ (exchangePassBy gt v u).1 = a := by
    intro heq
    have hmem : (exchangePassBy gt v u).1 ∈ v :: u := exchangePassBy_mem v u
    rcases List.mem_cons.mp hmem with hv' | hu'
    · exact hv.ne (heq ▸ hv')
    · exact absurd (hu _ hu') (by rw [heq]; exact lt_irrefl a)
  constructor
  · by_contra hgt
    have hp : (v :: (List.replicate (k + 1) a ++ u)).Perm (List.replicate (k + 1) a ++ v :: u) :=
      List.perm_middle.symm
    have hhead := h.head hp ha hle
    rw [exchangePassBy_replicate fun h => absurd h hgt] at hhead
    exact hlost hhead
  · by_contra hgt
    have hgt : gt a v = true := by simpa using hgt
    have hhead := h.head (List.Perm.refl (a :: (List.replicate k a ++ v :: u))) ha hle
    rw [exchangePassBy_replicate fun _ => rfl] at hhead
    simp only [exchangePassBy, hgt, if_true] at hhead
    exact hlost hhead

/-- Without its least element a list is still sorted in every arrangement. -/
theorem SortsAll.tail {a : κ} {l : List κ} (h : SortsAll gt (a :: l))
    (hl : ∀ b ∈ l, b = a ∨ gt a b = false) : SortsAll gt l := by
  intro p hp
  have hpass : exchangePassBy gt a p = (a, p) := by
    have hmem : ∀ b ∈ p, b = a ∨ gt a b = false := fun b hb => hl b (hp.subset hb)
    clear hp
    induction p with
    | nil => rfl
    | cons b p ih =>
      have hpair : (if gt a b then (b, a) else (a, b)) = (a, b) := by
        rcases hmem b List.mem_cons_self with rfl | hgt
        · exact ite_self _
        · rw [hgt]
          rfl
      simp only [exchangePassBy, hpair, ih fun b hb => hmem b (List.mem_cons_of_mem _ hb)]
  have hsorted := h (a :: p) (hp.cons a)
  rw [exchangeSortBy, List.length_cons, exchangeSortByFrom, hpass] at hsorted
  exact (List.pairwise_cons.mp hsorted).2

theorem SortsAll.perm {l l' : List κ} (h : SortsAll gt l) (hp : l.Perm l') : SortsAll gt l' :=
  fun p hp' => h p (hp'.trans hp.symm)

/-- The induction takes the least element off a list in order. -/
theorem SortsAll.judges_of_sorted {l : List κ} (hl : l.Pairwise (· ≤ ·)) (h : SortsAll gt l) :
    Judges gt id l := by
  induction l with
  | nil => simp [Judges]
  | cons a t ih =>
    obtain ⟨hle, ht⟩ := List.pairwise_cons.mp hl
    have hhead : ∀ v ∈ t, a < v → gt v a = true ∧ gt a v = false := by
      intro v hv hlt
      have hu : v ∈ t.filter fun b => ¬ b = a := by simpa [hv] using hlt.ne'
      have hfilter := List.filter_append_perm (fun b => decide (b = a)) t
      rw [List.filter_eq] at hfilter
      have harrange : (a :: t).Perm (List.replicate (t.count a + 1) a ++
          v :: (t.filter fun b => ¬ b = a).erase v) := by
        calc a :: t |>.Perm (a :: (List.replicate (t.count a) a ++ t.filter fun b => ¬ b = a)) :=
              by simpa using hfilter.symm.cons a
          _ |>.Perm (List.replicate (t.count a + 1) a ++
              v :: (t.filter fun b => ¬ b = a).erase v) :=
            ((List.perm_cons_erase hu).append_left _).cons a
      refine (h.perm harrange).judges_head hlt fun b hb => ?_
      have hb := List.mem_filter.mp (List.mem_of_mem_erase hb)
      exact lt_of_le_of_ne (hle b hb.1) fun heq => by simp [heq] at hb
    have htail : Judges gt id t := by
      refine ih ht (h.tail fun b hb => ?_)
      rcases (hle b hb).eq_or_lt with heq | hlt
      · exact .inl heq.symm
      · exact .inr (hhead b hb hlt).2
    intro p hp q hq hlt
    rcases List.mem_cons.mp hq with rfl | hqt
    · rcases List.mem_cons.mp hp with rfl | hpt
      · exact absurd hlt (lt_irrefl _)
      · exact absurd hlt (not_lt.mpr (hle p hpt))
    · rcases List.mem_cons.mp hp with rfl | hpt
      · exact hhead q hqt hlt
      · exact htail p hpt q hqt hlt

theorem SortsAll.judges {l : List κ} (h : SortsAll gt l) : Judges gt id l := by
  have hp := List.perm_insertionSort (· ≤ ·) l
  exact (judges_of_sorted (List.pairwise_insertionSort (· ≤ ·) l) (h.perm hp.symm)).mono
    hp.symm.subset

/-- A sort that compares keys orders every arrangement of a list by them if and only if it judges
its keys rightly. -/
theorem sorts_perms_iff {key : α → κ} {cmp : α → α → Bool} {l : List α}
    (hcmp : ∀ a ∈ l, ∀ b ∈ l, cmp a b = gt (key a) (key b)) :
    (∀ l' : List α, l'.Perm l → (exchangeSortBy cmp l').Pairwise fun a b => key a ≤ key b) ↔
      Judges cmp key l := by
  constructor
  · intro h
    have hall : SortsAll gt (l.map key) := by
      intro p hp
      obtain ⟨l', hperm, rfl⟩ := exists_perm_map hp
      rw [exchangeSortBy_map l' fun a ha b hb => hcmp a (hperm.subset ha) b (hperm.subset hb)]
      exact List.pairwise_map.mpr (h l' hperm)
    intro a ha b hb hlt
    have hjudge := hall.judges (key a) (List.mem_map_of_mem ha) (key b) (List.mem_map_of_mem hb) hlt
    rw [hcmp a ha b hb, hcmp b hb a ha]
    exact hjudge
  · intro h l' hp
    exact exchangeSortBy_sorted l' (h.mono hp.subset)

end

/-! ## The checked sort computes its meaning -/

variable {f : α → α → Checked (α × α)} {P : α → Prop} {Q : α → α → Prop}

theorem exchangePass_ok (hf : ∀ a b, Q a b → f a b = .ok (if gt a b then (b, a) else (a, b)))
    (cp : α) (l : List α) (hl : (cp :: l).Pairwise Q) :
    exchangePass f cp l = .ok (exchangePassBy gt cp l) := by
  induction l generalizing cp with
  | nil => rfl
  | cons jump rest ih =>
    obtain ⟨hcp, hrest⟩ := List.pairwise_cons.mp hl
    simp only [exchangePass, exchangePassBy]
    rw [hf cp jump (hcp jump List.mem_cons_self)]
    split
    · simp only [Checked.ok_bind]
      rw [ih jump hrest]; rfl
    · simp only [Checked.ok_bind]
      rw [ih cp (hl.sublist ((List.sublist_cons_self _ _).cons_cons _))]; rfl

theorem exchangeSortFrom_ok
    (hf : ∀ a b, Q a b → f a b = .ok (if gt a b then (b, a) else (a, b)))
    (hsym : ∀ a b, Q a b → Q b a) (n : Nat) (l : List α) (hl : l.Pairwise Q) :
    exchangeSortFrom f n l = .ok (exchangeSortByFrom gt n l) := by
  induction n generalizing l with
  | zero => rfl
  | succ n ih =>
    cases l with
    | nil => rfl
    | cons cp rest =>
      have hp : (_ :: (exchangePassBy gt cp rest).2).Perm _ := exchangePassBy_perm cp rest
      have hpair := (hp.pairwise_iff fun {a b} => hsym a b).mpr hl
      simp only [exchangeSortFrom, exchangeSortByFrom, exchangePass_ok hf cp rest hl,
        Checked.ok_bind]
      rw [ih _ (List.pairwise_cons.mp hpair).2]; rfl

/-- A checked exchange that decides by `gt` on any two elements of the list sorts it by `gt`. -/
theorem exchangeSort_ok_of_pairwise
    (hf : ∀ a b, Q a b → f a b = .ok (if gt a b then (b, a) else (a, b)))
    (hsym : ∀ a b, Q a b → Q b a) {l : List α} (hl : l.Pairwise Q) :
    exchangeSort f l = .ok (exchangeSortBy gt l) :=
  exchangeSortFrom_ok hf hsym _ l hl

theorem exchangeSort_ok
    (hf : ∀ a b, P a → P b → f a b = .ok (if gt a b then (b, a) else (a, b)))
    (l : List α) (hl : ∀ a ∈ l, P a) : exchangeSort f l = .ok (exchangeSortBy gt l) := by
  have hpair : l.Pairwise fun a b => P a ∧ P b :=
    List.pairwise_of_forall_mem_list fun a ha b hb => ⟨hl a ha, hl b hb⟩
  exact exchangeSort_ok_of_pairwise (fun a b h => hf a b h.1 h.2) (fun _ _ h => ⟨h.2, h.1⟩) hpair

end

/-! ## Pairs that cannot be compared

The pass compares only what it holds with each later element, but a sort that returns has no two
elements that clash, if what stands between two that clash in the order of the keys clashes with one
of them. -/

section
variable {κ : Type*} [LinearOrder κ] {key : α → κ} {gt : α → α → Bool}
  {f : α → α → Checked (α × α)} {clash : α → α → Prop} {cp c : α} {l out : List α}

/-- `f` decides by `gt` where it does not fault, and it faults on two that clash. -/
def DecidesBy (f : α → α → Checked (α × α)) (gt : α → α → Bool) (clash : α → α → Prop) : Prop :=
  ∀ a b r, f a b = .ok r → ¬ clash a b ∧ r = if gt a b then (b, a) else (a, b)

/-- Between two that clash each element clashes with one of them. -/
structure Convex (clash : α → α → Prop) (key : α → κ) : Prop where
  symm : ∀ a b, clash a b → clash b a
  between : ∀ a x b, key a ≤ key x → key x ≤ key b → clash a b → clash a x ∨ clash x b

theorem Convex.toDual (h : Convex clash key) : Convex clash (OrderDual.toDual ∘ key) where
  symm := h.symm
  between a x b hax hxb hab :=
    (h.between b x a hxb hax (h.symm a b hab)).symm.imp (h.symm x a) (h.symm b x)

theorem DecidesBy.exchangePass_eq (hf : DecidesBy f gt clash) {r : α × List α}
    (h : exchangePass f cp l = .ok r) : r = exchangePassBy gt cp l := by
  induction l generalizing cp r with
  | nil => exact (Checked.ok.inj h).symm
  | cons jump rest ih =>
    unfold exchangePass at h
    obtain ⟨⟨a, b⟩, hab, h⟩ := Checked.bind_eq_ok.mp h
    obtain ⟨⟨e, tail⟩, hrest, h⟩ := Checked.bind_eq_ok.mp h
    cases h
    simp only [exchangePassBy]
    rw [← (hf _ _ _ hab).2, ← ih hrest]

/-- What a pass leaves in front clashes with nothing behind it. -/
theorem DecidesBy.exchangePass_clear (hf : DecidesBy f gt clash) (hc : Convex clash key)
    (hj : Judges gt key (cp :: l)) (h : exchangePass f cp l = .ok (c, out)) :
    ∀ e ∈ out, ¬ clash c e := by
  induction l generalizing cp c out with
  | nil =>
    cases h
    simp
  | cons jump rest ih =>
    unfold exchangePass at h
    obtain ⟨⟨a, b⟩, hab, h⟩ := Checked.bind_eq_ok.mp h
    obtain ⟨⟨e, tail⟩, hrest, h⟩ := Checked.bind_eq_ok.mp h
    cases h
    obtain ⟨hclear, hpair⟩ := hf _ _ _ hab
    have hcp : cp ∈ cp :: jump :: rest := List.mem_cons_self
    have hjump : jump ∈ cp :: jump :: rest := List.mem_cons_of_mem _ List.mem_cons_self
    -- `a` stays in hand
    obtain ⟨hle, hab, hsub⟩ : key a ≤ key b ∧ ¬ clash a b ∧ a :: rest ⊆ cp :: jump :: rest := by
      by_cases hgt : gt cp jump = true
      · rw [if_pos hgt] at hpair
        cases hpair
        exact ⟨hj.le_of_gt hcp hjump hgt, fun h => hclear (hc.symm _ _ h), List.subset_cons_self _ _⟩
      · rw [if_neg hgt] at hpair
        cases hpair
        exact ⟨hj.le_of_not_gt hcp hjump hgt, hclear,
          List.cons_subset_cons _ (List.subset_cons_self _ _)⟩
    have hby := hf.exchangePass_eq hrest
    have hperm : (exchangePassBy gt a rest).1 :: (exchangePassBy gt a rest).2 |>.Perm (a :: rest) :=
      exchangePassBy_perm a rest
    have hlea := (exchangePassBy_le a rest (hj.mono hsub)).1
    rw [← hby] at hperm hlea
    have htail := ih (hj.mono hsub) hrest
    intro d hd
    rcases List.mem_cons.mp hd with rfl | hd
    · intro hcd
      rcases List.mem_cons.mp (hperm.symm.subset List.mem_cons_self) with rfl | hmem
      · exact hab hcd
      · exact (hc.between _ a _ hlea hle hcd).elim (htail a hmem) hab
    · exact htail d hd

theorem DecidesBy.exchangeSortFrom_clear (hf : DecidesBy f gt clash) (hc : Convex clash key) {n : Nat}
    (hn : l.length ≤ n) (hj : Judges gt key l) (h : exchangeSortFrom f n l = .ok out) :
    l.Pairwise fun a b => ¬ clash a b := by
  induction n generalizing l out with
  | zero =>
    rw [List.length_eq_zero_iff.mp (Nat.le_zero.mp hn)]
    exact .nil
  | succ n ih =>
    cases l with
    | nil => exact .nil
    | cons cp rest =>
      unfold exchangeSortFrom at h
      obtain ⟨⟨c, tail⟩, hpass, h⟩ := Checked.bind_eq_ok.mp h
      obtain ⟨sorted, hsort, -⟩ := Checked.bind_eq_ok.mp h
      have hperm : (_ :: (exchangePassBy gt cp rest).2).Perm _ := exchangePassBy_perm cp rest
      rw [← hf.exchangePass_eq hpass] at hperm
      have hlen := hperm.length_eq
      simp only [List.length_cons] at hlen hn
      have htail : tail ⊆ cp :: rest := fun b hb => hperm.subset (List.mem_cons_of_mem _ hb)
      have hpair : (c :: tail).Pairwise fun a b => ¬ clash a b :=
        List.pairwise_cons.mpr ⟨hf.exchangePass_clear hc hj hpass,
          ih (by omega) (hj.mono htail) hsort⟩
      exact (hperm.pairwise_iff fun {a b} hab h => hab (hc.symm _ _ h)).mp hpair

/-- In a list that is sorted no two elements clash. -/
theorem DecidesBy.exchangeSort_clear (hf : DecidesBy f gt clash) (hc : Convex clash key)
    (hj : Judges gt key l) (h : exchangeSort f l = .ok out) :
    l.Pairwise fun a b => ¬ clash a b :=
  hf.exchangeSortFrom_clear hc (Nat.le_refl _) hj h

end

/-! ## One sort after another

A sort whose exchanges are the images of those of another sorts the image of a list as the other
sorts the list. -/

section
variable {f : α → α → Checked (α × α)} {g : β → β → Checked (β × β)} {φ : α → β}

theorem exchangePass_image (hfg : ∀ a b c d, f a b = .ok (c, d) → g (φ a) (φ b) = .ok (φ c, φ d))
    (l : List α) {cp c : α} {out : List α} (h : exchangePass f cp l = .ok (c, out)) :
    exchangePass g (φ cp) (l.map φ) = .ok (φ c, out.map φ) := by
  induction l generalizing cp c out with
  | nil =>
    cases h
    rfl
  | cons jump rest ih =>
    unfold exchangePass at h
    obtain ⟨⟨a, b⟩, hab, h⟩ := Checked.bind_eq_ok.mp h
    obtain ⟨⟨e, tail⟩, hrest, h⟩ := Checked.bind_eq_ok.mp h
    cases h
    rw [List.map_cons, exchangePass, hfg _ _ _ _ hab, Checked.ok_bind]
    simp only
    rw [ih hrest]
    rfl

theorem exchangeSortFrom_image
    (hfg : ∀ a b c d, f a b = .ok (c, d) → g (φ a) (φ b) = .ok (φ c, φ d)) (n : Nat)
    {l out : List α} (h : exchangeSortFrom f n l = .ok out) :
    exchangeSortFrom g n (l.map φ) = .ok (out.map φ) := by
  induction n generalizing l out with
  | zero =>
    cases h
    rfl
  | succ n ih =>
    cases l with
    | nil =>
      cases h
      rfl
    | cons cp rest =>
      unfold exchangeSortFrom at h
      obtain ⟨⟨c, tail⟩, hpass, h⟩ := Checked.bind_eq_ok.mp h
      obtain ⟨sorted, hsort, h⟩ := Checked.bind_eq_ok.mp h
      cases h
      rw [List.map_cons, exchangeSortFrom, exchangePass_image hfg _ hpass, Checked.ok_bind]
      simp only
      rw [ih hsort]
      rfl

theorem exchangeSort_image
    (hfg : ∀ a b c d, f a b = .ok (c, d) → g (φ a) (φ b) = .ok (φ c, φ d)) {l out : List α}
    (h : exchangeSort f l = .ok out) : exchangeSort g (l.map φ) = .ok (out.map φ) := by
  unfold exchangeSort
  rw [List.length_map]
  exact exchangeSortFrom_image hfg _ h

end

end NmOtool
