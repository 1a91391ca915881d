import NmOtool.Base.Exchange

/-!
# Exchange sort: the arrangement of the input

When the result of an exchange sort does not depend on how its input is arranged. `Settled` says of
a list that the comparison finds each of its elements before the later ones, and finds no two that
differ alike. A settled list is what every arrangement of it is sorted to, and nothing else is.
-/

namespace NmOtool

variable {α : Type} {gt gt' : α → α → Bool} {a b cp : α} {l s : List α}

/-- `gt` puts `a` before `b`, or they are the same. -/
def Precedes (gt : α → α → Bool) (a b : α) : Prop := a = b ∨ gt b a = true ∧ gt a b = false

/-- Of two positions of the list, `gt` puts the first before the second. -/
def Settled (gt : α → α → Bool) (l : List α) : Prop := l.Pairwise (Precedes gt)

instance [DecidableEq α] : Decidable (Precedes gt a b) := by unfold Precedes; infer_instance

instance [DecidableEq α] : Decidable (Settled gt l) := by unfold Settled; infer_instance

theorem Precedes.eq_of_gt (h : Precedes gt a b) (hgt : gt a b = true) : a = b := by
  rcases h with heq | ⟨-, hf⟩
  · exact heq
  · rw [hgt] at hf
    exact Bool.noConfusion hf

theorem Precedes.eq_of_not_gt (h : Precedes gt a b) (hgt : ¬ gt b a = true) : a = b :=
  h.resolve_right fun hb => hgt hb.1

/-! ## A settled list is the result -/

/-- A pass ends with the element that precedes all. -/
theorem exchangePassBy_first (hmem : a ∈ cp :: l) (h : ∀ b ∈ cp :: l, Precedes gt a b) :
    (exchangePassBy gt cp l).1 = a := by
  induction l generalizing cp with
  | nil => exact (List.mem_singleton.mp hmem).symm
  | cons jump rest ih =>
    have hcp := h cp List.mem_cons_self
    have hjump := h jump (List.mem_cons_of_mem _ List.mem_cons_self)
    have hrest : ∀ b ∈ rest, Precedes gt a b := fun b hb =>
      h b (List.mem_cons_of_mem _ (List.mem_cons_of_mem _ hb))
    simp only [exchangePassBy]
    by_cases hgt : gt cp jump = true
    · rw [if_pos hgt]
      refine ih ?_ (List.forall_mem_cons.mpr ⟨hjump, hrest⟩)
      rcases List.mem_cons.mp hmem with rfl | hmem
      · -- `a` is given up for `jump` only if the two are the same
        rw [← hjump.eq_of_gt hgt]
        exact List.mem_cons_self
      · exact hmem
    · rw [if_neg hgt]
      refine ih ?_ (List.forall_mem_cons.mpr ⟨hcp, hrest⟩)
      rcases List.mem_cons.mp hmem with rfl | hmem
      · exact List.mem_cons_self
      · rcases List.mem_cons.mp hmem with rfl | hmem
        · rw [hcp.eq_of_not_gt hgt]
          exact List.mem_cons_self
        · exact List.mem_cons_of_mem _ hmem

theorem exchangeSortBy_cons (p : List α) : exchangeSortBy gt (cp :: p) =
    (exchangePassBy gt cp p).1 :: exchangeSortBy gt (exchangePassBy gt cp p).2 := by
  have hlen : (_ :: (exchangePassBy gt cp p).2).length = _ := (exchangePassBy_perm cp p).length_eq
  simp only [List.length_cons, Nat.add_right_cancel_iff] at hlen
  rw [exchangeSortBy, List.length_cons, exchangeSortByFrom, exchangeSortBy, hlen]

/-- Every arrangement of a settled list is sorted to it. -/
theorem exchangeSortBy_settled (hs : Settled gt s) (hp : l.Perm s) : exchangeSortBy gt l = s := by
  induction s generalizing l with
  | nil =>
    rw [hp.eq_nil]
    rfl
  | cons a t ih =>
    obtain ⟨hfirst, ht⟩ := List.pairwise_cons.mp hs
    cases l with
    | nil => exact absurd hp.length_eq (Nat.succ_ne_zero _).symm
    | cons cp p =>
      have hall : ∀ b ∈ cp :: p, Precedes gt a b := by
        intro b hb
        rcases List.mem_cons.mp (hp.subset hb) with rfl | hb
        · exact .inl rfl
        · exact hfirst b hb
      have hhead : (exchangePassBy gt cp p).1 = a :=
        exchangePassBy_first (hp.symm.subset List.mem_cons_self) hall
      have hpass : ((exchangePassBy gt cp p).1 :: (exchangePassBy gt cp p).2).Perm (a :: t) :=
        (exchangePassBy_perm cp p).trans hp
      rw [hhead] at hpass
      rw [exchangeSortBy_cons, hhead, ih ht hpass.cons_inv]

/-! ## Nothing else is -/

section
variable [DecidableEq α]

/-- The list with the copies of one element to the front, and one of the others after them. -/
theorem perm_copies {v : α} (hv : v ∈ l) (hne : v ≠ a) : ∃ u : List α, a ∉ u ∧
    (List.replicate (l.count a) a ++ v :: u).Perm l := by
  have hfilter := List.filter_append_perm (fun b => decide (b = a)) l
  rw [List.filter_eq] at hfilter
  have hmem : v ∈ l.filter fun b => ¬ b = a := by simpa [hv] using hne
  refine ⟨(l.filter fun b => ¬ b = a).erase v, fun ha => ?_, ?_⟩
  · simpa using List.of_mem_filter (List.mem_of_mem_erase ha)
  · calc List.replicate (l.count a) a ++ v :: (l.filter fun b => ¬ b = a).erase v
        |>.Perm (List.replicate (l.count a) a ++ l.filter fun b => ¬ b = a) :=
          ((List.perm_cons_erase hmem).symm).append_left _
      _ |>.Perm l := by simpa using hfilter

/-- The element that every arrangement brings to the front precedes the others. -/
theorem precedes_of_first {v : α} {t : List α}
    (h : ∀ cp p, (cp :: p).Perm (a :: t) → (exchangePassBy gt cp p).1 = a) (hv : v ∈ t) :
    Precedes gt a v := by
  by_cases hav : a = v
  · exact .inl hav
  obtain ⟨u, hu, hperm⟩ :=
    perm_copies (a := a) (List.mem_cons_of_mem a hv) fun heq => hav heq.symm
  rw [List.count_cons_self, List.replicate_succ, List.cons_append] at hperm
  -- once `v` is taken behind the copies of `a`, no `a` comes any more
  have hlost : (exchangePassBy gt v u).1 ≠ a := by
    intro heq
    have hmem : (exchangePassBy gt v u).1 ∈ v :: u := exchangePassBy_mem v u
    rw [heq] at hmem
    rcases List.mem_cons.mp hmem with hmem | hmem
    · exact hav hmem
    · exact hu hmem
  right
  constructor
  · by_contra hgt
    have hmiddle : (v :: ((a :: List.replicate (t.count a) a) ++ u)).Perm
        ((a :: List.replicate (t.count a) a) ++ v :: u) := List.perm_middle.symm
    have hfirst := h v (a :: (List.replicate (t.count a) a ++ u)) (hmiddle.trans hperm)
    have hpass : exchangePassBy gt v (a :: (List.replicate (t.count a) a ++ u)) = _ :=
      exchangePassBy_replicate (fun hv => absurd hv hgt) (t.count a + 1) u
    rw [hpass] at hfirst
    exact hlost hfirst
  · by_contra hgt
    have hfirst := h a (List.replicate (t.count a) a ++ v :: u) hperm
    rw [exchangePassBy_replicate fun _ => rfl] at hfirst
    simp only [exchangePassBy, Bool.not_eq_false _ |>.mp hgt, if_true] at hfirst
    exact hlost hfirst

theorem settled_of_arrangements (h : ∀ l, l.Perm s → exchangeSortBy gt l = s) : Settled gt s := by
  induction s with
  | nil => exact .nil
  | cons a t ih =>
    have hfirst : ∀ b ∈ t, Precedes gt a b := by
      intro b hb
      refine precedes_of_first (fun cp p hp => ?_) hb
      have hsort := h (cp :: p) hp
      rw [exchangeSortBy_cons] at hsort
      exact List.head_eq_of_cons_eq hsort
    refine List.pairwise_cons.mpr ⟨hfirst, ih fun p hp => ?_⟩
    -- with `a` in front of it an arrangement of the tail is passed over
    have hpass : exchangePassBy gt a p = (a, p) := by
      have hmem : ∀ b ∈ p, Precedes gt a b := fun b hb => hfirst b (hp.subset hb)
      clear hp
      induction p with
      | nil => rfl
      | cons b p ihp =>
        obtain ⟨hb, hp⟩ := List.forall_mem_cons.mp hmem
        have hpair : (if gt a b then (b, a) else (a, b)) = (a, b) := by
          split
          · next hgt => rw [hb.eq_of_gt hgt]
          · rfl
        simp only [exchangePassBy, hpair, ihp hp]
    have hsort := h (a :: p) (hp.cons a)
    rw [exchangeSortBy_cons, hpass] at hsort
    exact List.tail_eq_of_cons_eq hsort

/-- All arrangements of a list are sorted alike exactly if the result is settled. -/
theorem exchangeSortBy_arrangements :
    (∀ l', l'.Perm l → exchangeSortBy gt l' = exchangeSortBy gt l) ↔
      Settled gt (exchangeSortBy gt l) := by
  refine ⟨fun h => settled_of_arrangements fun l' hp => ?_, fun hs l' hp => ?_⟩
  · exact h l' (hp.trans (exchangeSortBy_perm l))
  · exact exchangeSortBy_settled hs (hp.trans (exchangeSortBy_perm l).symm)

end

/-! ## Settled lists -/

theorem Settled.eq_of_perm (hs : Settled gt s) (hl : Settled gt l) (hp : l.Perm s) : l = s := by
  have hsame : exchangeSortBy gt l = s := exchangeSortBy_settled hs hp
  rw [← hsame, exchangeSortBy_settled hl (List.Perm.refl l)]

/-- A comparison that reverses what `gt` settles settles the reversed list. -/
theorem Settled.reverse (hs : Settled gt s)
    (h : ∀ a ∈ s, ∀ b ∈ s, Precedes gt a b → Precedes gt' b a) : Settled gt' s.reverse :=
  List.pairwise_reverse.mpr (List.Pairwise.imp_of_mem (fun ha hb hab => h _ ha _ hb hab) hs)

theorem exchangeSortBy_reverse (hs : Settled gt (exchangeSortBy gt l))
    (h : ∀ a ∈ l, ∀ b ∈ l, Precedes gt a b → Precedes gt' b a) :
    exchangeSortBy gt' l = (exchangeSortBy gt l).reverse := by
  have hperm : (exchangeSortBy gt l).Perm l := exchangeSortBy_perm l
  exact exchangeSortBy_settled
    (hs.reverse fun a ha b hb => h a (hperm.subset ha) b (hperm.subset hb))
    (hperm.symm.trans (List.reverse_perm _).symm)

/-- A comparison that judges by a key is settled where no two elements share one. -/
theorem settled_of_judges {κ : Type*} [LinearOrder κ] {key : α → κ} (h : Judges gt key l)
    (hkey : ∀ a ∈ l, ∀ b ∈ l, key a = key b → a = b) : Settled gt (exchangeSortBy gt l) := by
  have hperm : (exchangeSortBy gt l).Perm l := exchangeSortBy_perm l
  refine List.Pairwise.imp_of_mem (fun ha hb hab => ?_) (exchangeSortBy_sorted l h)
  rcases hab.eq_or_lt with heq | hlt
  · exact .inl (hkey _ (hperm.subset ha) _ (hperm.subset hb) heq)
  · exact .inr (h _ (hperm.subset ha) _ (hperm.subset hb) hlt)

end NmOtool
