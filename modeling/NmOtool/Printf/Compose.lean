import NmOtool.Base.Relocate
import NmOtool.Printf.Length

/-!
# ft_printf: formats one after the other

A directive is read up to its letter and no further, so what it does is the same in every format
that holds it. A finished format therefore does in front of any text what it does alone, and the
run goes on behind it with the arguments that it leaves.
-/

namespace NmOtool

open MachO Checked

variable {mem : Memory} {m m' : Buffer} {p p' f f' k fuel : Nat} {s t w u u' body : List UInt8}
  {c : UInt8} {args : VaList} {r r' : FlagsRound}

/-- The arguments behind the first `k`. -/
def VaList.drop (args : VaList) (k : Nat) : VaList := fun n => args (n + k)

@[simp] theorem VaList.drop_zero : args.drop 0 = args := rfl

@[simp] theorem VaList.rest_drop : (args.drop k).rest = args.drop (k + 1) := by
  funext n
  simp only [VaList.rest, VaList.drop]
  congr 1
  omega

@[simp] theorem VaList.drop_drop {j : Nat} : (args.drop k).drop j = args.drop (k + j) := by
  funext n
  simp only [VaList.drop]
  congr 1
  omega

/-! ## A letter ends what is read -/

/-- A byte that is part of no number. -/
def Stops (c : UInt8) : Prop :=
  isDigit c = false ∧ isSpace c = false ∧ c ≠ '-'.toUInt8 ∧ c ≠ '+'.toUInt8

theorem stops_of_not_inDirective (hc : ¬ InDirective c) : Stops c := by
  have hletter : ∀ c ∈ ascii "sSpdDioOuUxXcCb%", isDigit c = false ∧ isSpace c = false ∧
      c ≠ '-'.toUInt8 ∧ c ≠ '+'.toUInt8 := by decide +kernel
  refine hletter c ?_
  by_cases hper : c = '%'.toUInt8
  · subst hper
    decide
  · have hF : isF c = true := by
      by_contra hF
      exact hc ⟨Bool.eq_false_iff.mpr hF, hper⟩
    rw [isF, List.contains_iff_mem] at hF
    exact List.mem_append_left (ascii "%") hF

theorem takeWhile_stop {q : UInt8 → Bool} (hc : q c = false) :
    (w ++ c :: u).takeWhile q = w.takeWhile q := by
  induction w with
  | nil => exact List.takeWhile_cons_of_neg (by simp [hc])
  | cons b w ih =>
    rw [List.cons_append, List.takeWhile_cons, List.takeWhile_cons, ih]

theorem dropWhile_stop {q : UInt8 → Bool} (hc : q c = false) :
    (w ++ c :: u).dropWhile q = w.dropWhile q ++ c :: u := by
  induction w with
  | nil => exact List.dropWhile_cons_of_neg (by simp [hc])
  | cons b w ih =>
    rw [List.cons_append, List.dropWhile_cons, List.dropWhile_cons, ih]
    split <;> rfl

theorem atoiDigits_stop (hc : isDigit c = false) (n : Int) :
    atoi.atoiDigits (w ++ c :: u) n = atoi.atoiDigits w n := by
  induction w generalizing n with
  | nil => simp [atoi.atoiDigits, hc]
  | cons b w ih =>
    rw [List.cons_append, atoi.atoiDigits, atoi.atoiDigits]
    split
    · exact ih _
    · rfl

/-- A number in front of the letter is what it is without the letter. -/
theorem atoi_stop (hc : Stops c) : atoi (w ++ c :: u) = atoi w := by
  obtain ⟨hdigit, hspace, hminus, hplus⟩ := hc
  unfold atoi
  simp only [dropWhile_stop hspace]
  cases w.dropWhile isSpace with
  | nil =>
    have hm : (c == '-'.toUInt8) = false := beq_false_of_ne hminus
    have hp : (c == '+'.toUInt8) = false := beq_false_of_ne hplus
    simp only [List.nil_append, List.getD_cons_zero, hm, hp, Bool.or_self, Bool.false_eq_true,
      if_false]
    rw [show c :: u = [] ++ c :: u from rfl, atoiDigits_stop hdigit]
    rfl
  | cons b v =>
    have hnum : ∀ signed : Bool,
        atoi.atoiDigits (if signed then v ++ c :: u else b :: v ++ c :: u) 0 =
          atoi.atoiDigits (if signed then v else b :: v) 0 := by
      intro signed
      cases signed
      · exact atoiDigits_stop hdigit 0
      · exact atoiDigits_stop hdigit 0
    simp only [List.cons_append, List.getD_cons_zero, List.drop_succ_cons, List.drop_zero] at hnum ⊢
    rw [hnum]

/-! ## A directive in two formats -/

section
variable (hc : Stops c) (h : TextAt m f (w ++ c :: u)) (h' : TextAt m' f' (w ++ c :: u'))
include h h'

theorem load_same (hk : k ≤ w.length) : m.load (f + k) = m'.load (f' + k) := by
  rw [h.load k (by simp; omega), h'.load k (by simp; omega)]
  congr 1
  rcases Nat.eq_or_lt_of_le hk with rfl | hlt
  · simp
  · rw [List.getD_append _ _ _ _ hlt, List.getD_append _ _ _ _ hlt]

theorem ftStrnchr_same {b : UInt8} (hb : b ≠ 0) (hk : k ≤ w.length) :
    ftStrnchr m b k f = ftStrnchr m' b k f' := by
  have htake : ∀ u, (w ++ c :: u).take (k + 1) = (w ++ [c]).take (k + 1) := by
    intro u
    rw [show w ++ c :: u = (w ++ [c]) ++ u by simp, List.take_append_of_le_length (by simp; omega)]
  rw [ftStrnchr_ok h hb (by simp; omega), ftStrnchr_ok h' hb (by simp; omega), htake u, htake u']

theorem setCast_same (data : TData) : setCast data m f w.length = setCast data m' f' w.length := by
  rw [setCast_ok h (by simp), setCast_ok h' (by simp)]
  have htake : ∀ u, (w ++ c :: u).take w.length = w := fun u => List.take_left
  have htake' : ∀ u, (w ++ c :: u).take (w.length + 1) = w ++ [c] := fun u => by
    rw [show w ++ c :: u = (w ++ [c]) ++ u by simp]
    exact List.take_left' (by simp)
  unfold castOf
  simp only [htake, htake']

include hc

theorem ftAtoi_same (hk : k ≤ w.length) : ftAtoi m (f + k) = ftAtoi m' (f' + k) := by
  have hdrop : ∀ u, (w ++ c :: u).drop k = w.drop k ++ c :: u :=
    fun u => List.drop_append_of_le_length hk
  rw [ftAtoi_ok (h.drop k (by simp; omega)), ftAtoi_ok (h'.drop k (by simp; omega)), hdrop, hdrop,
    atoi_stop hc, atoi_stop hc]

theorem nbDigit_same (hk : k ≤ w.length) : nbDigit m (f + k) = nbDigit m' (f' + k) := by
  have hdrop : ∀ u, (w ++ c :: u).drop k = w.drop k ++ c :: u :=
    fun u => List.drop_append_of_le_length hk
  rw [nbDigit_ok (h.drop k (by simp; omega)), nbDigit_ok (h'.drop k (by simp; omega)), hdrop, hdrop,
    takeWhile_stop hc.1, takeWhile_stop hc.1]

/-- A round reads the byte it is at, the one behind it, and what a number there leads to. -/
theorem setFlagsRound_same (hi : r.i < w.length) :
    setFlagsRound m f r = setFlagsRound m' f' r := by
  have hnext : f + r.i + 1 = f + (r.i + 1) ∧ f' + r.i + 1 = f' + (r.i + 1) := by omega
  have hskip : f + 1 + r.i = f + (r.i + 1) ∧ f' + 1 + r.i = f' + (r.i + 1) := by omega
  unfold setFlagsRound flagsStar setZeroFlag
  rw [hnext.1, hnext.2, hskip.1, hskip.2, load_same h h' (Nat.le_of_lt hi),
    load_same h h' (Nat.succ_le_of_lt hi), ftStrnchr_same h h' (by decide) (Nat.le_of_lt hi),
    ftAtoi_same hc h h' (Nat.le_of_lt hi), ftAtoi_same hc h h' (Nat.succ_le_of_lt hi),
    nbDigit_same hc h h' (Nat.le_of_lt hi), nbDigit_same hc h h' (Nat.succ_le_of_lt hi)]

theorem setFlagsFrom_same :
    setFlagsFrom m f w.length fuel r = setFlagsFrom m' f' w.length fuel r := by
  induction fuel generalizing r with
  | zero => rfl
  | succ fuel ih =>
    rw [setFlagsFrom, setFlagsFrom]
    split
    · next hround => rw [setFlagsRound_same hc h h' hround.1]; simp only [ih]
    · rfl

theorem setData_same (args : VaList) :
    setData m f w.length args = setData m' f' w.length args := by
  rw [setData, setData, setFlags, setFlags, setFlagsFrom_same hc h h']
  simp only [setCast_same h h']

/-- Every conversion of the table does the same in both formats. -/
theorem iniSet_same (args : VaList) :
    ∀ e ∈ iniSet mem, e.2 m f w.length args = e.2 m' f' w.length args := by
  have hdata := setData_same hc h h'
  simp only [iniSet, List.forall_mem_cons]
  refine ⟨?s, ?S, ?o, ?O, ?d, ?D, ?i, ?c, ?C, ?u, ?U, ?per, ?p, ?x, ?X, ?b, List.forall_mem_nil _⟩
  case s => rw [conS, conS, hdata]
  case S => rw [conBigs, conBigs, hdata]
  case c => rw [conC, conC, hdata]
  case C => rw [conBigc, conBigc, hdata]
  case per => rw [conPer, conPer, hdata]
  case p => rw [conP, conP, hdata]
  case d | i => rw [conD, conSigned, conSigned, hdata]
  case D => rw [conBigd, conSigned, conSigned, hdata]
  case o => rw [conO, conUnsigned, conUnsigned, hdata]
  case O => rw [conBigo, conUnsigned, conUnsigned, hdata]
  case u => rw [conU, conUnsigned, conUnsigned, hdata]
  case U => rw [conBigu, conUnsigned, conUnsigned, hdata]
  case x => rw [conX, conUnsigned, conUnsigned, hdata]
  case X => rw [conBigx, conUnsigned, conUnsigned, hdata]
  case b => rw [conB, conUnsigned, conUnsigned, hdata]

end

/-- A directive does the same in every format that holds it. -/
theorem ftPrintfDirective_same (hbody : ∀ b ∈ body, InDirective b) (hc : ¬ InDirective c)
    (h : TextAt m p ('%'.toUInt8 :: (body ++ c :: u)))
    (h' : TextAt m' p' ('%'.toUInt8 :: (body ++ c :: u'))) :
    ftPrintfDirective mem m p args = ftPrintfDirective mem m' p' args := by
  have hw : TextAt m p (('%'.toUInt8 :: body) ++ c :: u) := h
  have hw' : TextAt m' p' (('%'.toUInt8 :: body) ++ c :: u') := h'
  have hlen : ('%'.toUInt8 :: body).length = body.length + 1 := rfl
  rw [ftPrintfDirective, ftPrintfDirective, moveIFrom_percent h, moveIFrom_percent h',
    directiveBody_append hbody hc, directiveBody_append hbody hc]
  split
  · rw [ok_bind, ok_bind, ← hlen, load_same hw hw' (Nat.le_refl _)]
    refine then_congr fun b _ => ?_
    cases hcon : (iniSet mem).lookup b with
    | none => rfl
    | some con =>
      obtain ⟨before, after, htable, -⟩ := List.lookup_eq_some_iff.mp hcon
      have hmem : (_, con) ∈ iniSet mem := htable ▸ List.mem_append_right before List.mem_cons_self
      have hsame := iniSet_same (stops_of_not_inDirective hc) hw hw' args _ hmem
      simp only at hsame ⊢
      rw [hsame]
  · rfl

/-! ## The arguments that a directive takes -/

/-- Two states of `set_flags` that differ in numbers and arguments only. -/
structure Alike (r r' : FlagsRound) : Prop where
  i : r'.i = r.i
  j : r'.j = r.j
  flags : r'.data.flags = r.data.flags

/-- A step of `set_flags` from `r` takes as many arguments as from every state that is alike. -/
def TakesAlike (step : FlagsRound → Checked FlagsRound) (r : FlagsRound) : Prop :=
  ∀ s, step r = .ok s → ∃ k, s.args = r.args.drop k ∧
    ∀ r', Alike r r' → ∃ s', step r' = .ok s' ∧ Alike s s' ∧ s'.args = r'.args.drop k

theorem Alike.flag (h : Alike r r') (c : UInt8) : Alike (r.flag c) (r'.flag c) := by
  unfold FlagsRound.flag
  rw [h.flags]
  split
  · exact h
  · exact ⟨h.i, by simp only [h.j], rfl⟩

theorem FlagsRound.flag_args (c : UInt8) : (r.flag c).args = r.args := by
  unfold FlagsRound.flag
  split <;> rfl

theorem takesAlike_setZeroFlag : TakesAlike (setZeroFlag m f) r := by
  intro s hs
  obtain ⟨c, hc, hs⟩ := bind_eq_ok.mp hs
  refine ⟨0, ?_⟩
  split_ifs at hs with hdot hflag
  · obtain ⟨precison, hprecison, hs⟩ := bind_eq_ok.mp hs
    obtain ⟨n, hn, hs⟩ := bind_eq_ok.mp hs
    cases hs
    refine ⟨rfl, fun r' h => ?_⟩
    rw [setZeroFlag, h.i, hc, ok_bind, if_pos hdot, hprecison, ok_bind, hn, ok_bind]
    exact ⟨_, rfl, ⟨rfl, h.j, h.flags⟩, rfl⟩
  · cases hs
    refine ⟨FlagsRound.flag_args c, fun r' h => ?_⟩
    rw [setZeroFlag, h.i, hc, ok_bind, if_neg hdot, if_pos hflag]
    have hsame := h.flag c
    exact ⟨_, rfl, ⟨by simp only [hsame.i], hsame.j, hsame.flags⟩, FlagsRound.flag_args c⟩
  · cases hs
    refine ⟨rfl, fun r' h => ?_⟩
    rw [setZeroFlag, h.i, hc, ok_bind, if_neg hdot, if_neg hflag]
    exact ⟨_, rfl, ⟨by simp only [h.i], h.j, h.flags⟩, rfl⟩

theorem takesAlike_flagsStar : TakesAlike (flagsStar m f) r := by
  intro s hs
  obtain ⟨c, hc, hs⟩ := bind_eq_ok.mp hs
  refine ⟨1, ?_⟩
  simp only at hs
  by_cases hstar : c = '*'.toUInt8
  · rw [if_pos hstar] at hs
    cases hs
    refine ⟨rfl, fun r' h => ?_⟩
    rw [flagsStar, h.i, hc, ok_bind]
    simp only
    rw [if_pos hstar]
    exact ⟨_, rfl, ⟨rfl, h.j, h.flags⟩, rfl⟩
  · rw [if_neg hstar] at hs
    cases hs
    refine ⟨rfl, fun r' h => ?_⟩
    rw [flagsStar, h.i, hc, ok_bind]
    simp only
    rw [if_neg hstar]
    exact ⟨_, rfl, ⟨rfl, h.j, h.flags⟩, rfl⟩

theorem takesAlike_star (star : Bool) :
    TakesAlike (fun r => if star then flagsStar m f r else setZeroFlag m f r) r := by
  cases star
  · exact takesAlike_setZeroFlag
  · exact takesAlike_flagsStar

theorem takesAlike_round : TakesAlike (setFlagsRound m f) r := by
  intro s hs
  obtain ⟨c, hc, hs⟩ := bind_eq_ok.mp hs
  have hround : ∀ r', Alike r r' → m.load (f + r'.i) = .ok c := fun r' h => h.i ▸ hc
  by_cases h0 : c = '0'.toUInt8
  · rw [if_pos h0] at hs
    cases hs
    refine ⟨0, FlagsRound.flag_args _, fun r' h => ?_⟩
    rw [setFlagsRound, hround r' h, ok_bind, if_pos h0]
    have hsame := h.flag '0'.toUInt8
    exact ⟨_, rfl, ⟨by simp only [hsame.i], hsame.j, hsame.flags⟩, FlagsRound.flag_args _⟩
  rw [if_neg h0] at hs
  obtain ⟨dot, hdot, hs⟩ := bind_eq_ok.mp hs
  by_cases hwidth : (!dot && decide ('0'.toUInt8 < c) && decide (c ≤ '9'.toUInt8)) = true
  · rw [if_pos hwidth] at hs
    obtain ⟨width, hw, hs⟩ := bind_eq_ok.mp hs
    obtain ⟨n, hn, hs⟩ := bind_eq_ok.mp hs
    cases hs
    refine ⟨0, rfl, fun r' h => ?_⟩
    rw [setFlagsRound, hround r' h, ok_bind, if_neg h0, h.i, hdot, ok_bind, if_pos hwidth, hw,
      ok_bind, hn, ok_bind]
    exact ⟨_, rfl, ⟨rfl, h.j, h.flags⟩, rfl⟩
  rw [if_neg hwidth] at hs
  -- what is left is one of two steps, chosen by `c` and the byte behind it
  obtain ⟨star, hs, hstep⟩ : ∃ star : Bool,
      (if star then flagsStar m f r else setZeroFlag m f r) = .ok s ∧ ∀ r', Alike r r' →
        setFlagsRound m f r' = if star then flagsStar m f r' else setZeroFlag m f r' := by
    have hround' : ∀ r', Alike r r' → setFlagsRound m f r' = _ := fun r' h => by
      rw [setFlagsRound, hround r' h, ok_bind, if_neg h0, h.i, hdot, ok_bind, if_neg hwidth]
    simp only at hs hround'
    by_cases hstar : c = '*'.toUInt8
    · rw [if_pos hstar] at hs
      exact ⟨true, hs, fun r' h => by rw [hround' r' h, if_pos hstar]; rfl⟩
    · rw [if_neg hstar] at hs
      by_cases hpoint : c = '.'.toUInt8
      · rw [if_pos hpoint] at hs
        obtain ⟨d, hd, hs⟩ := bind_eq_ok.mp hs
        refine ⟨d == '*'.toUInt8, hs, fun r' h => ?_⟩
        rw [hround' r' h, if_neg hstar, if_pos hpoint, hd]
        rfl
      · rw [if_neg hpoint] at hs
        exact ⟨false, hs, fun r' h => by rw [hround' r' h, if_neg hstar, if_neg hpoint]; rfl⟩
  obtain ⟨k, hk, hall⟩ := takesAlike_star star s hs
  refine ⟨k, hk, fun r' h => ?_⟩
  rw [hstep r' h]
  exact hall r' h

theorem takesAlike_from {size : Nat} : TakesAlike (setFlagsFrom m f size fuel) r := by
  induction fuel generalizing r with
  | zero =>
    intro s hs
    cases hs
  | succ fuel ih =>
    intro s hs
    unfold setFlagsFrom at hs
    by_cases hgo : r.i < size ∧ r.j < 10
    · rw [if_pos hgo] at hs
      obtain ⟨s₁, hs₁, hs⟩ := bind_eq_ok.mp hs
      obtain ⟨k₁, hk₁, hall₁⟩ := takesAlike_round s₁ hs₁
      obtain ⟨k, hk, hall⟩ := ih s hs
      refine ⟨k₁ + k, by rw [hk, hk₁, VaList.drop_drop], fun r' h => ?_⟩
      obtain ⟨s₁', hs₁', hsame₁, hk₁'⟩ := hall₁ r' h
      obtain ⟨s', hs', hsame, hk'⟩ := hall s₁' hsame₁
      refine ⟨s', ?_, hsame, by rw [hk', hk₁', VaList.drop_drop]⟩
      rw [setFlagsFrom, h.i, h.j, if_pos hgo, hs₁']
      exact hs'
    · rw [if_neg hgo] at hs
      cases hs
      refine ⟨0, rfl, fun r' h => ⟨r', ?_, h, rfl⟩⟩
      rw [setFlagsFrom, h.i, h.j, if_neg hgo]
      rfl

/-- `set_flags` takes a number of arguments that is the directive's own. -/
theorem setData_takes {n : Nat} : ∃ k, ∀ args data rest,
    setData m f n args = .ok (data, rest) → rest = args.drop k := by
  -- the number is the one of any run that returns
  by_cases href : ∃ args r, setData m f n args = .ok r
  · obtain ⟨args₀, r₀, h₀⟩ := href
    obtain ⟨⟨data₀, rest₀⟩, hflags₀, -⟩ := bind_eq_ok.mp h₀
    obtain ⟨s₀, hs₀, -⟩ := bind_eq_ok.mp hflags₀
    obtain ⟨k, -, hall⟩ := takesAlike_from s₀ hs₀
    refine ⟨k, fun args data rest h => ?_⟩
    obtain ⟨⟨data₁, rest₁⟩, hflags, hdata⟩ := bind_eq_ok.mp h
    obtain ⟨s, hs, hpair⟩ := bind_eq_ok.mp hflags
    obtain ⟨data₂, hcast, hpure⟩ := bind_eq_ok.mp hdata
    obtain ⟨s', hs', -, hk⟩ := hall ⟨1, 0, .init, args⟩ ⟨rfl, rfl, rfl⟩
    rw [hs] at hs'
    cases hs'
    cases hpair
    cases hpure
    exact hk
  · exact ⟨0, fun args data rest h => absurd ⟨args, _, h⟩ href⟩

/-- A conversion takes the same number of arguments in every run. -/
def TakesArgs (con : VaList → Checked (List UInt8 × TData × VaList)) (k : Nat) : Prop :=
  ∀ args out data rest, con args = .ok (out, data, rest) → rest = args.drop k

theorem takesArgs_bind {size k j : Nat} {con : VaList → Checked (List UInt8 × TData × VaList)}
    {g : TData × VaList → Checked (List UInt8 × TData × VaList)}
    (hk : ∀ args data rest, setData m f size args = .ok (data, rest) → rest = args.drop k)
    (hcon : ∀ args, con args = setData m f size args >>= g)
    (hg : ∀ data args out data' rest, g (data, args) = .ok (out, data', rest) →
      rest = args.drop j) : TakesArgs con (k + j) := by
  intro args out data rest h
  rw [hcon] at h
  obtain ⟨⟨data₁, args₁⟩, hdata, h⟩ := bind_eq_ok.mp h
  rw [hg _ _ _ _ _ h, hk _ _ _ hdata, VaList.drop_drop]

/-- Every conversion but `%%` takes one argument behind those of its field. -/
theorem iniSet_takes {n : Nat}
    (hk : ∀ args data rest, setData m f n args = .ok (data, rest) → rest = args.drop k) :
    ∀ e ∈ iniSet mem, TakesArgs (e.2 m f n) (k + if e.1 = '%'.toUInt8 then 0 else 1) := by
  have hrest : ∀ numeral, TakesArgs (conSigned numeral m f n) (k + 1) := fun numeral =>
    takesArgs_bind hk (fun _ => rfl) fun _ _ _ _ _ h => by cases h; rfl
  have hrest' : ∀ numeral preFix, TakesArgs (conUnsigned numeral preFix m f n) (k + 1) :=
    fun numeral preFix => takesArgs_bind hk (fun _ => rfl) fun _ _ _ _ _ h => by
      obtain ⟨l, -, h⟩ := bind_eq_ok.mp h
      cases h
      rfl
  simp only [iniSet, List.forall_mem_cons]
  refine ⟨?s, ?S, ?o, ?O, ?d, ?D, ?i, ?c, ?C, ?u, ?U, ?per, ?p, ?x, ?X, ?b, List.forall_mem_nil _⟩
  case s => exact takesArgs_bind hk (fun _ => rfl) fun _ _ _ _ _ h => by cases h; rfl
  case S =>
    intro args out data rest h
    obtain ⟨⟨data₁, args₁⟩, hdata, h⟩ := bind_eq_ok.mp h
    cases h
    rw [hk _ _ _ hdata, if_neg (by decide), Nat.add_comm, ← VaList.drop_drop]
    rfl
  case c | C =>
    refine takesArgs_bind hk (fun _ => rfl) fun _ _ _ _ _ h => ?_
    exact (congrArg (fun r => r.2.2) (Checked.ok.inj h)).symm
  case per => exact takesArgs_bind hk (fun _ => rfl) fun _ _ _ _ _ h => by cases h; rfl
  case p =>
    refine takesArgs_bind hk (fun _ => rfl) fun _ _ _ _ _ h => ?_
    obtain ⟨l, -, h⟩ := bind_eq_ok.mp h
    simp only at h
    split at h <;> cases h <;> rfl
  case d | i | D => exact hrest _
  case o | O | u | U | x | X | b => exact hrest' _ _

/-- The number of arguments that a directive takes is its own: it depends on the format only. -/
theorem ftPrintfDirective_takes (m : Buffer) (p : Nat) : ∃ k, ∀ mem args i out len rest,
    ftPrintfDirective mem m p args = .ok (i, out, len, rest) → rest = args.drop k := by
  cases hmove : moveIFrom m p (m.size + 1) 0 false with
  | fault =>
    refine ⟨0, fun mem args i out len rest h => ?_⟩
    rw [ftPrintfDirective, hmove] at h
    cases h
  | ok i₀ =>
    cases hload : m.load (p + i₀) with
    | fault =>
      refine ⟨0, fun mem args i out len rest h => ?_⟩
      rw [ftPrintfDirective, hmove, ok_bind, hload] at h
      cases h
    | ok c =>
      have hkeys : ∀ mem : Memory, (iniSet mem).map Prod.fst = ascii "sSoOdDicCuU%pxXb" :=
        fun mem => rfl
      by_cases hc : c ∈ ascii "sSoOdDicCuU%pxXb"
      · obtain ⟨k, hk⟩ := setData_takes (m := m) (f := p) (n := i₀)
        refine ⟨k + if c = '%'.toUInt8 then 0 else 1, fun mem args i out len rest h => ?_⟩
        rw [ftPrintfDirective, hmove, ok_bind, hload, ok_bind] at h
        cases hcon : (iniSet mem).lookup c with
        | none =>
          rw [← hkeys mem] at hc
          obtain ⟨e, he, rfl⟩ := List.mem_map.mp hc
          exact absurd (List.lookup_eq_none_iff.mp hcon e he) (by simp)
        | some con =>
          rw [hcon] at h
          obtain ⟨before, after, htable, -⟩ := List.lookup_eq_some_iff.mp hcon
          have hmem : (c, con) ∈ iniSet mem :=
            htable ▸ List.mem_append_right before List.mem_cons_self
          obtain ⟨⟨out₁, data, rest₁⟩, hrun, h⟩ := bind_eq_ok.mp h
          cases h
          exact iniSet_takes hk _ hmem _ _ _ _ hrun
      · refine ⟨0, fun mem args i out len rest h => ?_⟩
        have hnone : (iniSet mem).lookup c = none := by
          refine List.lookup_eq_none_iff.mpr fun e he => ?_
          rw [bne_iff_ne]
          rintro rfl
          exact hc (hkeys mem ▸ List.mem_map_of_mem he)
        rw [ftPrintfDirective, hmove, ok_bind, hload, ok_bind, hnone] at h
        cases h
        rfl

/-! ## Formats -/

/-- The bytes `out` in front of what is written. -/
def behind (out : List UInt8) (r : List UInt8 × Int) : Checked (List UInt8 × Int) :=
  pure (out ++ r.1, r.2)

theorem behind_behind (out out' : List UInt8) (x : Checked (List UInt8 × Int)) :
    (x >>= behind out') >>= behind out = x >>= behind (out ++ out') := by
  cases x with
  | fault => rfl
  | ok r =>
    rw [ok_bind, ok_bind, behind, behind, pure_eq, ok_bind, behind, List.append_assoc]

/-- In front of every text a run over `s` writes `out`, counts `len` and takes `k` arguments; then it
goes on with the text. -/
def RunsTo (mem : Memory) (s : List UInt8) (k : Nat) (args : VaList) (out : List UInt8)
    (len : Int) : Prop :=
  ∀ m p t fuel nbr, TextAt m p (s ++ t) → (s ++ t).length < fuel → ∃ fuel', t.length < fuel' ∧
    ftPrintfFrom mem m fuel p (int32 nbr) args =
      ftPrintfFrom mem m fuel' (p + s.length) (int32 (nbr + len)) (args.drop k) >>= behind out

/-- In front of every text a run over `s` faults. -/
def Faults (mem : Memory) (s : List UInt8) (args : VaList) : Prop :=
  ∀ m p t fuel nbr, TextAt m p (s ++ t) → ftPrintfFrom mem m fuel p nbr args = .fault

/-- A run over `s` goes on behind it, with the same arguments whatever the memory is, or faults in
it. -/
def GoesOn (s : List UInt8) (k : Nat) : Prop :=
  ∀ mem args, (∃ out len, RunsTo mem s k args out len) ∨ Faults mem s args

theorem goesOn_nil : GoesOn [] 0 := by
  refine fun mem args => .inl ⟨[], 0, fun m p t fuel nbr _ hfuel => ⟨fuel, hfuel, ?_⟩⟩
  rw [Int.add_zero]
  cases hrun : ftPrintfFrom mem m fuel p (int32 nbr) args with
  | fault => exact hrun.symm ▸ rfl
  | ok r => exact hrun.symm ▸ rfl

theorem goesOn_char (hc : c ≠ '%'.toUInt8) (hs : GoesOn s k) : GoesOn (c :: s) k := by
  intro mem args
  rcases hs mem args with ⟨out, len, hrun⟩ | hfault
  · refine .inl ⟨c :: out, 1 + len, fun m p t fuel nbr h hfuel => ?_⟩
    rw [List.cons_append] at h hfuel
    cases fuel with
    | zero => exact absurd hfuel (Nat.not_lt_zero _)
    | succ fuel =>
      obtain ⟨fuel', hfuel', hgo⟩ :=
        hrun m (p + 1) t fuel (nbr + 1) h.tail (Nat.lt_of_succ_lt_succ hfuel)
      refine ⟨fuel', hfuel', ?_⟩
      rw [ftPrintfFrom, h.head, ok_bind, List.getD_cons_zero,
        if_neg (h.ne_zero c List.mem_cons_self), if_neg hc, int32_add, hgo, List.length_cons,
        Nat.add_assoc p, Nat.add_comm 1, Int.add_assoc]
      exact behind_behind [c] out _
  · refine .inr fun m p t fuel nbr h => ?_
    rw [List.cons_append] at h
    cases fuel with
    | zero => rfl
    | succ fuel =>
      rw [ftPrintfFrom, h.head, ok_bind, List.getD_cons_zero,
        if_neg (h.ne_zero c List.mem_cons_self), if_neg hc, hfault m (p + 1) t fuel _ h.tail]
      rfl

theorem goesOn_directive (hbody : ∀ b ∈ body, InDirective b) (hc : ¬ InDirective c)
    (hne : ∀ b ∈ '%'.toUInt8 :: (body ++ [c]), b ≠ 0) (hs : GoesOn s k) :
    ∃ j, GoesOn ('%'.toUInt8 :: (body ++ c :: s)) j := by
  have h₀ := textAt_formatOf hne
  obtain ⟨k₀, hk₀⟩ := ftPrintfDirective_takes (formatOf ('%'.toUInt8 :: (body ++ [c]))) 0
  have hsplit : ∀ t, '%'.toUInt8 :: (body ++ c :: s) ++ t =
      '%'.toUInt8 :: (body ++ c :: (s ++ t)) := fun t => by simp
  -- a round at the directive, in any format that goes on behind it
  have hround : ∀ (mem : Memory) (args : VaList) (m : Buffer) (p fuel : Nat) (t : List UInt8)
      (nbr : Int), TextAt m p ('%'.toUInt8 :: (body ++ c :: (s ++ t))) →
      ftPrintfFrom mem m (fuel + 1) p nbr args =
        ftPrintfDirective mem (formatOf ('%'.toUInt8 :: (body ++ [c]))) 0 args >>= fun r =>
          ftPrintfFrom mem m fuel (p + r.1 + 1) (int32 (nbr + r.2.2.1)) r.2.2.2 >>=
            behind r.2.1 := by
    intro mem args m p fuel t nbr h
    rw [ftPrintfFrom, h.head, ok_bind, List.getD_cons_zero, if_neg (by decide), if_pos rfl,
      ftPrintfDirective_same hbody hc h h₀]
    rfl
  refine ⟨k₀ + k, fun mem args => ?_⟩
  cases hdir : ftPrintfDirective mem (formatOf ('%'.toUInt8 :: (body ++ [c]))) 0 args with
  | fault =>
    refine .inr fun m p t fuel nbr h => ?_
    rw [hsplit] at h
    cases fuel with
    | zero => rfl
    | succ fuel =>
      rw [hround mem args m p fuel t nbr h, hdir]
      rfl
  | ok r =>
    obtain ⟨i, out₀, len₀, rest₀⟩ := r
    obtain rfl := hk₀ _ _ _ _ _ _ hdir
    obtain ⟨-, rfl⟩ := ftPrintfDirective_index h₀ hdir
    rw [directiveBody_append hbody hc] at hdir
    have hbehind : ∀ (m : Buffer) (p : Nat) (t : List UInt8),
        TextAt m p ('%'.toUInt8 :: (body ++ c :: (s ++ t))) →
        TextAt m (p + (body.length + 1) + 1) (s ++ t) := by
      intro m p t h
      have hdrop : ('%'.toUInt8 :: (body ++ c :: (s ++ t))).drop (body.length + 1 + 1) = s ++ t := by
        simp
      have hbehind := h.drop (body.length + 1 + 1) (by simp)
      rwa [hdrop] at hbehind
    rcases hs mem (args.drop k₀) with ⟨out, len, hrun⟩ | hfault
    · refine .inl ⟨out₀ ++ out, len₀ + len, fun m p t fuel nbr h hfuel => ?_⟩
      rw [hsplit] at h hfuel
      cases fuel with
      | zero => exact absurd hfuel (Nat.not_lt_zero _)
      | succ fuel =>
        obtain ⟨fuel', hfuel', hgo⟩ := hrun m _ t fuel (nbr + len₀) (hbehind m p t h)
          (by simp only [List.length_cons, List.length_append] at hfuel ⊢; omega)
        refine ⟨fuel', hfuel', ?_⟩
        have hpos : p + (body.length + 1) + 1 + s.length =
            p + ('%'.toUInt8 :: (body ++ c :: s)).length := by
          simp only [List.length_cons, List.length_append]
          omega
        rw [hround mem args m p fuel t _ h, hdir, ok_bind]
        simp only
        rw [int32_add, hgo, hpos, VaList.drop_drop, Int.add_assoc]
        exact behind_behind out₀ out _
    · refine .inr fun m p t fuel nbr h => ?_
      rw [hsplit] at h
      cases fuel with
      | zero => rfl
      | succ fuel =>
        rw [hround mem args m p fuel t nbr h, hdir, ok_bind]
        simp only
        rw [hfault m _ t fuel _ (hbehind m p t h)]
        rfl

theorem goesOn_of_finished (hs : Finished s) (hne : ∀ b ∈ s, b ≠ 0) : ∃ k, GoesOn s k := by
  induction hs with
  | nil => exact ⟨0, goesOn_nil⟩
  | char hc _ ih =>
    obtain ⟨k, hk⟩ := ih fun b hb => hne b (List.mem_cons_of_mem _ hb)
    exact ⟨k, goesOn_char hc hk⟩
  | @directive body c t hbody hc hlen _ ih =>
    obtain ⟨k, hk⟩ := ih fun b hb => hne b (by simp [hb])
    refine goesOn_directive hbody hc (fun b hb => hne b ?_) hk
    simp only [List.mem_cons, List.mem_append, List.not_mem_nil, or_false] at hb ⊢
    tauto

theorem RunsTo.alone {out : List UInt8} {len : Int} (hrun : RunsTo mem s k args out len)
    (h : TextAt m p s) (hfuel : s.length < fuel) (nbr : Int) :
    ftPrintfFrom mem m fuel p (int32 nbr) args = .ok (out, int32 (nbr + len)) := by
  obtain ⟨fuel', hfuel', hgo⟩ := hrun m p [] fuel nbr (by rwa [List.append_nil]) (by simpa)
  have hend := h.drop s.length (Nat.le_refl _)
  rw [List.drop_length] at hend
  rw [hgo]
  cases fuel' with
  | zero => exact absurd hfuel' (Nat.not_lt_zero _)
  | succ fuel' =>
    rw [ftPrintfFrom, hend.head, ok_bind, List.getD_nil, if_pos rfl, pure_eq, ok_bind, behind,
      List.append_nil]
    rfl

theorem Faults.alone (hfault : Faults mem s args) (h : TextAt m p s) (fuel : Nat) (nbr : Int) :
    ftPrintfFrom mem m fuel p nbr args = .fault :=
  hfault m p [] fuel nbr (by rwa [List.append_nil])

theorem ftPrintf_of_runsTo {out : List UInt8} {len : Int} (hrun : RunsTo mem s k args out len)
    (hne : ∀ b ∈ s, b ≠ 0) : ftPrintf mem s args = .ok (out, int32 len) := by
  have halone := hrun.alone (textAt_formatOf hne) (Nat.lt_succ_self _) 0
  rwa [Int.zero_add] at halone

/-- What follows a run over `s`, at a place where `t` stands alone. -/
theorem ftPrintfFrom_rest {len : Int} (h : TextAt m p t) (hm : m.size = p + t.length + 1)
    (hfuel : t.length < fuel) (ht : ∀ b ∈ t, b ≠ 0) :
    ftPrintfFrom mem m fuel p (int32 len) args =
      ftPrintf mem t args >>= fun r => pure (r.1, int32 (len + r.2)) := by
  by_cases hfinished : Finished t
  · obtain ⟨k, hgo⟩ := goesOn_of_finished hfinished ht
    rcases hgo mem args with ⟨out, len', hrun⟩ | hfault
    · rw [hrun.alone h hfuel, ftPrintf_of_runsTo hrun ht, ok_bind, pure_eq, Int.add_comm len,
        Int.add_comm len, int32_add]
    · rw [hfault.alone h, ftPrintf, hfault.alone (textAt_formatOf ht)]
      rfl
  · -- neither run comes to the end of the text
    have hfault : ∀ x : Checked (List UInt8 × Int), (∀ r, x ≠ .ok r) → x = .fault := by
      intro x hx
      cases x with
      | ok r => exact absurd rfl (hx r)
      | fault => rfl
    rw [hfault _ fun r hok => hfinished (finished_of_ftPrintfFrom h hm hok),
      hfault _ fun r hok => hfinished (finished_of_ftPrintf ht hok)]
    rfl

/-- Every finished format takes a number of arguments of its own, and a run over it and another text
is a run over it, and then one over the text with the arguments that are left: what is written is
put together, and the numbers returned are added as `int`s. -/
theorem ftPrintf_append (hs : Finished s) (hne : ∀ b ∈ s, b ≠ 0) :
    ∃ k, ∀ (mem : Memory) t args, (∀ b ∈ t, b ≠ 0) →
      ftPrintf mem (s ++ t) args = (ftPrintf mem s args >>= fun r =>
        ftPrintf mem t (args.drop k) >>= fun r' => pure (r.1 ++ r'.1, int32 (r.2 + r'.2))) := by
  obtain ⟨k, hgo⟩ := goesOn_of_finished hs hne
  refine ⟨k, fun mem t args ht => ?_⟩
  have hst : ∀ b ∈ s ++ t, b ≠ 0 := fun b hb => (List.mem_append.mp hb).elim (hne b) (ht b)
  have htext := textAt_formatOf hst
  rcases hgo mem args with ⟨out, len, hrun⟩ | hfault
  · have hbehind := htext.drop s.length (by simp)
    rw [List.drop_left] at hbehind
    have hsize : (formatOf (s ++ t)).size = 0 + s.length + t.length + 1 := by
      rw [formatOf, Buffer.ofBytes, List.length_append, Nat.zero_add]
    obtain ⟨fuel, hfuel, hrest⟩ := hrun _ _ _ _ 0 htext (Nat.lt_succ_self _)
    rw [ftPrintf_of_runsTo hrun hne, ok_bind]
    refine Eq.trans hrest ?_
    rw [ftPrintfFrom_rest hbehind hsize hfuel ht, Int.zero_add]
    cases ftPrintf mem t (args.drop k) with
    | fault => rfl
    | ok r =>
      rw [ok_bind, ok_bind, pure_eq, ok_bind, behind, int32_add]
  · rw [ftPrintf, ftPrintf, hfault _ _ t _ _ htext, hfault.alone (textAt_formatOf hne)]
    rfl

/-- "%5d," and then "%d". -/
theorem ftPrintf_append_width : ∃ k, ∀ mem args,
    ftPrintf mem (ascii "%5d," ++ ascii "%d") args = (ftPrintf mem (ascii "%5d,") args >>= fun r =>
      ftPrintf mem (ascii "%d") (VaList.drop args k) >>= fun r' =>
        pure (r.1 ++ r'.1, int32 (r.2 + r'.2))) := by
  have hs : Finished (ascii "%5d,") :=
    @Finished.directive (ascii "5") 'd'.toUInt8 (ascii ",") (by decide +kernel) (by decide)
      (by decide) (.char (by decide) .nil)
  obtain ⟨k, hk⟩ := ftPrintf_append hs (by decide +kernel)
  exact ⟨k, fun mem args => hk mem _ args (by decide +kernel)⟩

end NmOtool
