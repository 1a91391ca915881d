import NmOtool.Base.Buffer

/-!
# Footprints

The regions of a buffer that a run reads and writes. A run is local to its footprint if on every
buffer with the same bytes in the regions it reads it has the same value, and changes nothing but
the regions it writes. Runs of which none writes what a later one reads have, one behind the other,
the values that each of them has on the buffer they start from.
-/

namespace NmOtool

/-! ## Regions -/

/-- The bytes `[start, start + length)`. -/
structure Region where
  start : Nat
  length : Nat
  deriving DecidableEq, Repr

namespace Region

def Contains (r : Region) (q : Nat) : Prop := r.start ≤ q ∧ q < r.start + r.length

/-- No byte lies in both regions. -/
def Separate (a b : Region) : Prop :=
  min (a.start + a.length) (b.start + b.length) ≤ max a.start b.start

instance (a b : Region) : Decidable (a.Separate b) := inferInstanceAs (Decidable (_ ≤ _))

theorem separate_iff {a b : Region} : a.Separate b ↔ ∀ q, a.Contains q → ¬ b.Contains q := by
  unfold Separate Contains
  refine ⟨fun h q ha hb => by omega, fun h => ?_⟩
  by_contra hlt
  exact h (max a.start b.start) (by omega) (by omega)

end Region

/-! ## Footprints -/

/-- What a run reads, and what of it the run writes. -/
structure Footprint where
  reads : List Region
  writes : List Region
  written : writes ⊆ reads

namespace Footprint

variable {f g : Footprint} {p n q : Nat}

def empty : Footprint := ⟨[], [], List.Subset.refl _⟩

instance : Append Footprint := ⟨fun f g => ⟨f.reads ++ g.reads, f.writes ++ g.writes,
  List.append_subset.mpr ⟨List.subset_append_of_subset_left _ f.written,
    List.subset_append_of_subset_right _ g.written⟩⟩⟩

/-- The `n` bytes at `p`, read. -/
def read (p n : Nat) : Footprint := ⟨[⟨p, n⟩], [], List.nil_subset _⟩

/-- The `n` bytes at `p`, read and written. -/
def rewrite (p n : Nat) : Footprint := ⟨[⟨p, n⟩], [⟨p, n⟩], List.Subset.refl _⟩

/-- The `n` bytes at `p`, rewritten if `s`. -/
def rewriteIf (s : Bool) (p n : Nat) : Footprint := if s then rewrite p n else empty

def Reads (f : Footprint) (q : Nat) : Prop := ∃ r ∈ f.reads, r.Contains q

def Writes (f : Footprint) (q : Nat) : Prop := ∃ r ∈ f.writes, r.Contains q

theorem Writes.reads (h : f.Writes q) : f.Reads q :=
  h.imp fun _ hr => ⟨f.written hr.1, hr.2⟩

theorem writes_rewrite : (rewrite p n).Writes q ↔ p ≤ q ∧ q < p + n := by
  simp [Writes, rewrite, Region.Contains]

theorem reads_append : (f ++ g).Reads q ↔ f.Reads q ∨ g.Reads q := by
  change (∃ r ∈ f.reads ++ g.reads, r.Contains q) ↔ _
  simp only [List.mem_append, or_and_right, exists_or]
  rfl

theorem writes_append : (f ++ g).Writes q ↔ f.Writes q ∨ g.Writes q := by
  change (∃ r ∈ f.writes ++ g.writes, r.Contains q) ↔ _
  simp only [List.mem_append, or_and_right, exists_or]
  rfl

/-- `f` writes nothing that `g` reads. -/
def Apart (f g : Footprint) : Prop := ∀ a ∈ f.writes, ∀ b ∈ g.reads, a.Separate b

instance (f g : Footprint) : Decidable (Apart f g) :=
  inferInstanceAs (Decidable (∀ a ∈ _, ∀ b ∈ _, _))

theorem apart_iff : f.Apart g ↔ ∀ q, f.Writes q → ¬ g.Reads q := by
  refine ⟨fun h q ⟨a, ha, haq⟩ ⟨b, hb, hbq⟩ => Region.separate_iff.mp (h a ha b hb) q haq hbq,
    fun h a ha b hb => ?_⟩
  exact Region.separate_iff.mpr fun q haq hbq => h q ⟨a, ha, haq⟩ ⟨b, hb, hbq⟩

theorem apart_rewrite_read {k : Nat} :
    (rewrite p n).Apart (read q k) ↔ min (p + n) (q + k) ≤ max p q := by
  simp [Apart, rewrite, read, Region.Separate]

/-! ## Bounds of a footprint -/

/-- `f` reads in `R` only, and writes in `W` only. -/
structure Within (R W : Nat → Prop) (f : Footprint) : Prop where
  reads : ∀ q, f.Reads q → R q
  writes : ∀ q, f.Writes q → W q

theorem within_self : f.Within f.Reads f.Writes := ⟨fun _ h => h, fun _ h => h⟩

section
variable {R W : Nat → Prop}

@[simp] theorem within_empty : empty.Within R W :=
  ⟨fun _ ⟨_, h, _⟩ => absurd h List.not_mem_nil, fun _ ⟨_, h, _⟩ => absurd h List.not_mem_nil⟩

@[simp] theorem within_append : (f ++ g).Within R W ↔ f.Within R W ∧ g.Within R W := by
  refine ⟨fun h => ⟨⟨fun q hq => ?_, fun q hq => ?_⟩, fun q hq => ?_, fun q hq => ?_⟩,
    fun ⟨h1, h2⟩ => ⟨fun q hq => ?_, fun q hq => ?_⟩⟩
  · exact h.reads q (reads_append.mpr (.inl hq))
  · exact h.writes q (writes_append.mpr (.inl hq))
  · exact h.reads q (reads_append.mpr (.inr hq))
  · exact h.writes q (writes_append.mpr (.inr hq))
  · exact (reads_append.mp hq).elim (h1.reads q) (h2.reads q)
  · exact (writes_append.mp hq).elim (h1.writes q) (h2.writes q)

theorem within_region {S : Nat → Prop} :
    (∀ q, (∃ r ∈ [(⟨p, n⟩ : Region)], r.Contains q) → S q) ↔ ∀ k, k < n → S (p + k) := by
  simp only [List.mem_singleton, exists_eq_left, Region.Contains]
  refine ⟨fun h k hk => h _ ⟨by omega, by omega⟩, fun h q ⟨h1, h2⟩ => ?_⟩
  obtain ⟨k, rfl⟩ := Nat.exists_eq_add_of_le h1
  exact h k (by omega)

@[simp] theorem within_read : (read p n).Within R W ↔ ∀ k, k < n → R (p + k) :=
  ⟨fun h => within_region.mp h.reads, fun h =>
    ⟨within_region.mpr h, fun _ ⟨_, h, _⟩ => absurd h List.not_mem_nil⟩⟩

@[simp] theorem within_rewrite :
    (rewrite p n).Within R W ↔ (∀ k, k < n → R (p + k)) ∧ ∀ k, k < n → W (p + k) :=
  ⟨fun h => ⟨within_region.mp h.reads, within_region.mp h.writes⟩, fun h =>
    ⟨within_region.mpr h.1, within_region.mpr h.2⟩⟩

theorem within_rewriteIf {s : Bool} :
    (rewriteIf s p n).Within R W ↔ (s = true → (rewrite p n).Within R W) := by
  cases s <;> simp [rewriteIf]

end

end Footprint

/-- What `f` reads, but for the `n` bytes at `p`. -/
def Footprint.Beside (f : Footprint) (p n q : Nat) : Prop :=
  f.Reads q ∧ ¬ (Footprint.rewrite p n).Writes q

theorem Footprint.Within.beside {f g : Footprint} {p n : Nat} (h : g.Within f.Reads f.Writes)
    (hg : (Footprint.rewrite p n).Apart g) : g.Within (f.Beside p n) (f.Beside p n) := by
  have hout : ∀ q, g.Reads q → ¬ (Footprint.rewrite p n).Writes q :=
    fun q hq hw => Footprint.apart_iff.mp hg q hw hq
  exact ⟨fun q hq => ⟨h.reads q hq, hout q hq⟩,
    fun q hq => ⟨h.reads q hq.reads, hout q hq.reads⟩⟩

/-! ## Runs side by side -/

/-- Where a run on a second buffer, `m₂`, has come to when one on the first has come to `m`: to a
buffer `m'` with the bytes of `m` in `R`, and those of `m₂` outside `W`. -/
structure Follows (R W : Nat → Prop) (m₂ m m' : Buffer) : Prop where
  agree : Buffer.AgreeOn R m m'
  keep : Buffer.AgreeOn (fun q => ¬ W q) m₂ m'

namespace Follows

variable {R W : Nat → Prop} {m m' m₂ : Buffer} {p n p' n' v : Nat}

theorem start (h : Buffer.AgreeOn R m m₂) : Follows R W m₂ m m₂ := ⟨h, .refl⟩

theorem le (h : Follows R W m₂ m m') (hR : ∀ k, k < n → R (p + k)) : m'.le n p = m.le n p :=
  h.agree.le hR

/-- Both runs store the same value. -/
theorem put (h : Follows R W m₂ m m') (hw : (Footprint.rewrite p n).Within R W) :
    Follows R W m₂ (m.put n p v) (m'.put n p v) := by
  have hW := (Footprint.within_rewrite.mp hw).2
  refine ⟨⟨h.agree.size, fun q hq => ?_⟩, h.keep.trans (Buffer.agreeOn_put fun q hq => ?_)⟩
  · simp only [Buffer.put]
    rw [h.agree.byte q hq]
  · by_contra hin
    obtain ⟨k, rfl⟩ := Nat.exists_eq_add_of_le (show p ≤ q by omega)
    exact hq (hW k (by omega))

/-- Both runs reverse the same bytes. -/
theorem reverse (h : Follows R W m₂ m m') (hw : (Footprint.rewrite p n).Within R W)
    (hp : p ≤ p') (hn : p' + n' ≤ p + n) :
    Follows R W m₂ (m.reverse p' n') (m'.reverse p' n') := by
  obtain ⟨hR, hW⟩ := Footprint.within_rewrite.mp hw
  obtain ⟨d, rfl⟩ := Nat.exists_eq_add_of_le hp
  refine ⟨⟨h.agree.size, fun q hq => ?_⟩, h.keep.trans (Buffer.agreeOn_reverse fun q hq => ?_)⟩
  · simp only [Buffer.reverse]
    split
    · have hin := hR (d + (p + d + n' - 1 - q)) (by omega)
      rw [← Nat.add_assoc] at hin
      rw [h.agree.byte _ hin]
    · rw [h.agree.byte q hq]
  · by_contra hin
    obtain ⟨k, rfl⟩ := Nat.exists_eq_add_of_le (show p ≤ q by omega)
    exact hq (hW k (by omega))

end Follows

/-! ## Runs one behind the other -/

section
variable {α : Type} {run : Nat → Buffer → Checked (α × Buffer)} {a : Nat → α} {f : Nat → Footprint}
  {m m₁ : Buffer} {m' : Nat → Buffer} {i n : Nat}

/-- On every buffer that agrees with `m` where `f` reads, `run` has the value `a`, and follows the
run on `m`, which ends with `m'`. -/
def Footprint.Bounds (f : Footprint) (run : Buffer → Checked (α × Buffer)) (m : Buffer) (a : α)
    (m' : Buffer) : Prop :=
  ∀ m₁, Buffer.AgreeOn f.Reads m m₁ →
    ∃ m₂, run m₁ = .ok (a, m₂) ∧ Follows f.Reads f.Writes m₁ m' m₂

theorem Follows.apart {f g : Footprint} {R : Nat → Prop} {m m' m₂ : Buffer}
    (h : Follows R f.Writes m₂ m m') (hg : f.Apart g) : Buffer.AgreeOn g.Reads m₂ m' :=
  h.keep.mono fun q hq hw => Footprint.apart_iff.mp hg q hw hq

/-- The runs `i`, …, `i + n - 1`. -/
def runAll (run : Nat → Buffer → Checked (α × Buffer)) :
    Nat → Nat → Buffer → Checked (List α × Buffer)
  | 0, _, m => pure ([], m)
  | n + 1, i, m => do
    let (a, m) ← run i m
    let (as, m) ← runAll run n (i + 1) m
    pure (a :: as, m)

/-- Runs apart have the values that each of them has on `m`, and follow what they do there. -/
theorem runAll_apart (hb : ∀ k, i ≤ k → k < i + n → (f k).Bounds (run k) m (a k) (m' k))
    (ha : ∀ j k, i ≤ j → j < k → k < i + n → (f j).Apart (f k))
    (hm : ∀ k, i ≤ k → k < i + n → Buffer.AgreeOn (f k).Reads m m₁) :
    ∃ M : Nat → Buffer, M i = m₁ ∧
      runAll run n i m₁ = .ok ((List.range' i n).map a, M (i + n)) ∧
      ∀ k, i ≤ k → k < i + n → Follows (f k).Reads (f k).Writes (M k) (m' k) (M (k + 1)) := by
  induction n generalizing i m₁ with
  | zero => exact ⟨fun _ => m₁, rfl, rfl, fun k h1 h2 => by omega⟩
  | succ n ih =>
    obtain ⟨m₂, hrun, hfol⟩ := hb i (Nat.le_refl _) (by omega) m₁ (hm i (Nat.le_refl _) (by omega))
    have hnext : ∀ k, i + 1 ≤ k → k < i + 1 + n → Buffer.AgreeOn (f k).Reads m m₂ :=
      fun k h1 h2 => (hm k (by omega) (by omega)).trans
        (hfol.apart (ha i k (Nat.le_refl _) (by omega) (by omega)))
    obtain ⟨M, hM, hrest, hfols⟩ := ih (fun k h1 h2 => hb k (by omega) (by omega))
      (fun j k h1 h2 h3 => ha j k (by omega) h2 (by omega)) hnext
    refine ⟨fun k => if k = i then m₁ else M k, if_pos rfl, ?_, fun k h1 h2 => ?_⟩
    · rw [runAll, hrun, Checked.ok_bind]
      simp only
      rw [hrest, if_neg (by omega), List.range'_succ, Nat.add_right_comm i 1 n]
      rfl
    · simp only
      rw [if_neg (show ¬ k + 1 = i by omega)]
      by_cases hk : k = i
      · subst hk
        rw [if_pos rfl, hM]
        exact hfol
      · rw [if_neg hk]
        exact hfols k (by omega) (by omega)

/-- A row of runs leaves alone what each of them is apart from. -/
theorem agreeOn_apart {M : Nat → Buffer} {g : Footprint} {j k : Nat} (hjk : j ≤ k)
    (h : ∀ i, j ≤ i → i < k → Follows (f i).Reads (f i).Writes (M i) (m' i) (M (i + 1)))
    (hg : ∀ i, j ≤ i → i < k → (f i).Apart g) : Buffer.AgreeOn g.Reads (M j) (M k) := by
  induction k, hjk using Nat.le_induction with
  | base => exact .refl
  | succ k hjk ih =>
    exact (ih (fun i h1 h2 => h i h1 (by omega)) fun i h1 h2 => hg i h1 (by omega)).trans
      ((h k hjk (by omega)).apart (hg k hjk (by omega)))

end

end NmOtool
