import NmOtool.Base.Fill
import NmOtool.Nm.Main
import Mathlib.Data.FinEnum
import Mathlib.Data.List.Perm.Subperm
import Mathlib.Data.List.TakeWhile

/-!
# ft_nm: the options

`set_flag.c`. The strings of `argv` are their bytes before the NUL, and the list ends where `argv`
has its null pointer. `flags` is a buffer of 10 bytes that is also a string: the test for an option
seen before, `ft_strchr`, reads it up to its NUL.
-/

namespace NmOtool.Nm

open MachO Checked

def isFlag (c : UInt8) : Bool :=
  c == 'g'.toUInt8 || c == 'p'.toUInt8 || c == 'r'.toUInt8 || c == 'u'.toUInt8 ||
    c == 'U'.toUInt8 || c == 'j'.toUInt8

/-- What `put_usage` writes; `c` is the character that `*av` points to. -/
def putUsage (c : UInt8) : List UInt8 :=
  ascii "ft_nm: illegal option -- " ++ [c] ++ ascii "\n" ++
    ascii "usage: ft_nm [-gpruUj] [file ...]\n"

/-- `ft_strchr` from `p` on, whether it finds the byte. -/
def ftStrchrFrom (m : Buffer) (c : UInt8) : Nat → Nat → Checked Bool
  | 0, _ => .fault
  | fuel + 1, p => do
    let b ← m.load p
    if c ≠ b ∧ b ≠ 0 then ftStrchrFrom m c fuel (p + 1) else pure (c == b)

/-- `flags` and `i`, with the indices stored to so far. -/
structure FlagLoop where
  flags : Buffer
  i : Nat
  written : List Nat

/-- The body of the loop for the option `c`. -/
def addFlag (s : FlagLoop) (c : UInt8) : Checked FlagLoop := do
  if ← ftStrchrFrom s.flags c (s.flags.size + 1) 0 then pure s
  else do
    let flags ← s.flags.store s.i c
    pure { flags, i := s.i + 1, written := s.written ++ [s.i] }

/-- The loop over the characters of an argument, and what it leaves of them. -/
def setFlagsArg : List UInt8 → FlagLoop → Checked (FlagLoop × List UInt8)
  | [], s => pure (s, [])
  | c :: av, s =>
    if isFlag c then do
      let s ← addFlag s c
      setFlagsArg av s
    else
      pure (s, c :: av)

/-- `(*av)[0] == '-' && (*av)[1]`. -/
def isOption (av : List UInt8) : Bool := av.getD 0 0 == '-'.toUInt8 && av.getD 1 0 != 0

/-- What `set_flags_nm` returns and writes, and the `argv` it leaves. -/
structure FlagResult where
  ret : Int
  loop : FlagLoop
  argv : List (List UInt8)
  err : List UInt8

/-- The loop over the arguments; `ct` counts them. -/
def setFlagsFrom : List (List UInt8) → Int → FlagLoop → Checked FlagResult
  | [], ct, s => pure { ret := ct, loop := s, argv := [], err := [] }
  | av :: rest, ct, s =>
    if isOption av then do
      let (s, left) ← setFlagsArg (av.drop 1) s
      match left with
      | [] => do
        let r ← setFlagsFrom rest (ct + 1) s
        pure { r with argv := [] :: r.argv }
      | c :: left => pure { ret := -1, loop := s, argv := (c :: left) :: rest, err := putUsage c }
    else
      pure { ret := ct, loop := s, argv := av :: rest, err := [] }

/-- `set_flags_nm` on `argv`, whose first string is `name`. -/
def setFlagsNm (name : List UInt8) (argv : List (List UInt8)) : Checked FlagResult := do
  let r ← setFlagsFrom argv 1 { flags := .ofBytes 10 [], i := 0, written := [] }
  pure { r with argv := name :: r.argv }

/-! ## The buffer -/

variable {c : UInt8} {seen ds cs : List UInt8} {s : FlagLoop} {args : List (List UInt8)}
  {ct : Int}

theorem isFlag_mem (h : isFlag c = true) : c ∈ ascii "gpruUj" := by
  unfold isFlag at h
  simp only [Bool.or_eq_true, beq_iff_eq] at h
  obtain ((((rfl | rfl) | rfl) | rfl) | rfl) | rfl := h <;> decide

theorem isFlag_ne_zero (h : isFlag c = true) : c ≠ 0 := by
  rintro rfl
  exact absurd h (by decide)

/-- On a buffer that holds a string, `ft_strchr` looks through the string. -/
theorem ftStrchrFrom_ofBytes {n : Nat} (hc : c ≠ 0) (hds : ∀ b ∈ ds, b ≠ 0) (hn : ds.length < n) :
    ∀ fuel p t, ds.drop p = t → p ≤ ds.length → ds.length < fuel + p →
      ftStrchrFrom (.ofBytes n ds) c fuel p = .ok (decide (c ∈ t)) := by
  intro fuel
  induction fuel with
  | zero => intro p t _ _ h; omega
  | succ fuel ih =>
    intro p t ht hp hf
    have hload : (Buffer.ofBytes n ds).load p = .ok (ds.getD p 0) :=
      Buffer.load_ok (show p < n by omega)
    rw [ftStrchrFrom, hload, ok_bind]
    cases t with
    | nil =>
      rw [getD_of_drop_nil ht, if_neg (by simp)]
      simp [hc]
    | cons b t =>
      obtain ⟨hb, htail⟩ := getD_of_drop ht
      have hmem : b ∈ ds := List.mem_of_mem_drop (ht ▸ List.mem_cons_self)
      have hlt : p < ds.length := by
        by_contra hge
        rw [List.drop_of_length_le (by omega)] at ht
        cases ht
      rw [hb]
      by_cases he : c = b
      · rw [if_neg (by simp [he])]
        simp [he]
      · rw [if_pos ⟨he, hds b hmem⟩, ih (p + 1) t htail hlt (by omega)]
        simp [he]

theorem ofBytes_store {n : Nat} (h : ds.length < n) :
    (Buffer.ofBytes n ds).store ds.length c = .ok (.ofBytes n (ds ++ [c])) := by
  have hbyte : (fun q => if q = ds.length then c else ds.getD q 0) =
      fun q => (ds ++ [c]).getD q 0 := by
    funext q
    simp only [List.getD_eq_getElem?_getD]
    rcases Nat.lt_trichotomy q ds.length with hq | rfl | hq
    · rw [if_neg (by omega), List.getElem?_append_left hq]
    · simp
    · rw [if_neg (by omega), List.getElem?_eq_none (by omega),
        List.getElem?_eq_none (by rw [List.length_append, List.length_singleton]; omega)]
  rw [Buffer.store, if_pos (show ds.length < (Buffer.ofBytes n ds).size from h)]
  exact congrArg (fun byte => Checked.ok (Buffer.mk n byte)) hbyte

/-! ## Options seen so far -/

theorem nodup_eraseDups (cs : List UInt8) : cs.eraseDups.Nodup := by
  induction h : cs.length using Nat.strong_induction_on generalizing cs with
  | _ n ih =>
    cases cs with
    | nil => exact List.nodup_nil
    | cons c cs =>
      rw [List.eraseDups_cons, List.nodup_cons, List.mem_eraseDups]
      refine ⟨by simp, ih _ ?_ _ rfl⟩
      have hle := List.length_filter_le (fun b => !b == c) cs
      rw [← h, List.length_cons]
      omega

theorem eraseDups_snoc :
    (cs ++ [c]).eraseDups = if c ∈ cs then cs.eraseDups else cs.eraseDups ++ [c] := by
  rw [List.eraseDups_append]
  by_cases h : c ∈ cs <;> simp [h, List.removeAll, List.eraseDups_cons]

/-- There are six options. -/
theorem length_eraseDups_le (h : ∀ c ∈ cs, isFlag c = true) : cs.eraseDups.length ≤ 6 := by
  have hsub : cs.eraseDups ⊆ ascii "gpruUj" := by
    intro c hc
    exact isFlag_mem (h c (List.mem_eraseDups.mp hc))
  exact ((nodup_eraseDups cs).subperm hsub).length_le

/-- The loop after the options `seen`: `flags` is the string of the distinct ones, and each was
stored behind the one before. -/
structure SeenFlags (seen : List UInt8) (s : FlagLoop) : Prop where
  options : ∀ c ∈ seen, isFlag c = true
  flags : s.flags = .ofBytes 10 seen.eraseDups
  index : s.i = seen.eraseDups.length
  written : s.written = List.range s.i

theorem SeenFlags.next (h : SeenFlags seen s) (hc : isFlag c = true) :
    ∃ t, addFlag s c = .ok t ∧ SeenFlags (seen ++ [c]) t := by
  have hlen := length_eraseDups_le h.options
  have hfound : ftStrchrFrom s.flags c (s.flags.size + 1) 0 = .ok (decide (c ∈ seen)) := by
    have hds : ∀ b ∈ seen.eraseDups, b ≠ 0 := fun b hb =>
      isFlag_ne_zero (h.options b (List.mem_eraseDups.mp hb))
    rw [h.flags, ftStrchrFrom_ofBytes (n := 10) (isFlag_ne_zero hc) hds (by omega) _ 0
      seen.eraseDups List.drop_zero (by omega) (by change _ < 10 + 1 + 0; omega)]
    simp
  have hall : ∀ b ∈ seen ++ [c], isFlag b = true := by
    intro b hb
    obtain hb | hb := List.mem_append.mp hb
    · exact h.options b hb
    · rwa [List.mem_singleton.mp hb]
  rw [addFlag, hfound, ok_bind]
  by_cases hmem : c ∈ seen
  · rw [if_pos (by simpa using hmem)]
    refine ⟨s, rfl, hall, ?_, ?_, h.written⟩
    · rw [eraseDups_snoc, if_pos hmem, h.flags]
    · rw [eraseDups_snoc, if_pos hmem, h.index]
  · rw [if_neg (by simpa using hmem), h.flags, h.index, ofBytes_store (by omega)]
    refine ⟨_, rfl, hall, ?_, ?_, ?_⟩
    · simp only [eraseDups_snoc, if_neg hmem]
    · simp [eraseDups_snoc, hmem]
    · simp only
      rw [h.written, h.index, List.range_succ]

/-- The options up to the first that is not one, and what is left from there. -/
theorem setFlagsArg_ok (cs : List UInt8) (h : SeenFlags seen s) :
    ∃ t, setFlagsArg cs s = .ok (t, cs.dropWhile isFlag) ∧
      SeenFlags (seen ++ cs.takeWhile isFlag) t := by
  induction cs generalizing seen s with
  | nil => exact ⟨s, rfl, by simpa using h⟩
  | cons c cs ih =>
    unfold setFlagsArg
    by_cases hc : isFlag c = true
    · obtain ⟨t, ht, hnext⟩ := h.next hc
      obtain ⟨u, hu, hrest⟩ := ih hnext
      rw [if_pos hc, ht, ok_bind, hu, List.dropWhile_cons_of_pos hc, List.takeWhile_cons_of_pos hc]
      refine ⟨u, rfl, ?_⟩
      rwa [List.append_assoc] at hrest
    · rw [if_neg hc, List.dropWhile_cons_of_neg hc, List.takeWhile_cons_of_neg hc]
      exact ⟨s, rfl, by simpa using h⟩

/-- The number of leading arguments that are options, and their characters after the '-'. -/
def optionCount (argv : List (List UInt8)) : Nat := (argv.takeWhile isOption).length

def optionChars (argv : List (List UInt8)) : List UInt8 :=
  (argv.takeWhile isOption).flatMap (·.drop 1)

theorem setFlagsFrom_ok (args : List (List UInt8)) (ct : Int) (h : SeenFlags seen s) :
    ∃ r flags, setFlagsFrom args ct s = .ok r ∧ SeenFlags flags r.loop ∧
      if ∀ c ∈ optionChars args, isFlag c = true then
        r.ret = ct + optionCount args ∧ flags = seen ++ optionChars args ∧
          r.argv.drop (optionCount args) = args.drop (optionCount args) ∧ r.err = []
      else r.ret = -1 := by
  induction args generalizing seen s ct with
  | nil =>
    refine ⟨_, seen, rfl, h, ?_⟩
    simp [optionChars, optionCount]
  | cons av rest ih =>
    unfold setFlagsFrom
    by_cases ho : isOption av = true
    · have hchars : optionChars (av :: rest) = av.drop 1 ++ optionChars rest := by
        simp [optionChars, ho]
      have hcount : optionCount (av :: rest) = optionCount rest + 1 := by
        simp [optionCount, ho]
      obtain ⟨t, ht, hseen⟩ := setFlagsArg_ok (av.drop 1) h
      rw [if_pos ho, ht, ok_bind, hchars, hcount]
      cases hleft : (av.drop 1).dropWhile isFlag with
      | nil =>
        have hall := List.dropWhile_eq_nil_iff.mp hleft
        rw [List.takeWhile_eq_self_iff.mpr hall] at hseen
        obtain ⟨r, flags, hr, hflags, hret⟩ := ih (ct + 1) hseen
        simp only
        rw [hr, ok_bind]
        refine ⟨_, flags, rfl, hflags, ?_⟩
        by_cases hrest : ∀ c ∈ optionChars rest, isFlag c = true
        · rw [if_pos hrest] at hret
          obtain ⟨h1, h2, h3, h4⟩ := hret
          rw [if_pos fun c hc => (List.mem_append.mp hc).elim (hall c) (hrest c)]
          refine ⟨?_, ?_, ?_, h4⟩
          · simp only
            rw [h1]
            omega
          · rw [h2, List.append_assoc]
          · rw [List.drop_succ_cons, List.drop_succ_cons, h3]
        · rw [if_neg hrest] at hret
          rw [if_neg fun hc => hrest fun c hmem => hc c (List.mem_append_right _ hmem)]
          exact hret
      | cons c left =>
        refine ⟨_, _, rfl, hseen, ?_⟩
        rw [if_neg]
        intro hall
        have hnil : (av.drop 1).dropWhile isFlag = [] :=
          List.dropWhile_eq_nil_iff.mpr fun c hc => hall c (List.mem_append_left _ hc)
        rw [hleft] at hnil
        cases hnil
    · have hcount : optionCount (av :: rest) = 0 := by simp [optionCount, ho]
      have hchars : optionChars (av :: rest) = [] := by simp [optionChars, ho]
      rw [if_neg ho, hcount, hchars]
      refine ⟨_, seen, rfl, h, ?_⟩
      simp

theorem setFlagsNm_ok (name : List UInt8) (argv : List (List UInt8)) :
    ∃ r flags, setFlagsNm name argv = .ok r ∧ SeenFlags flags r.loop ∧
      if ∀ c ∈ optionChars argv, isFlag c = true then
        r.ret = optionCount argv + 1 ∧ flags = optionChars argv ∧
          r.argv.drop (optionCount argv + 1) = argv.drop (optionCount argv) ∧ r.err = []
      else r.ret = -1 := by
  have hstart : SeenFlags [] { flags := .ofBytes 10 [], i := 0, written := [] } :=
    ⟨fun c hc => absurd hc List.not_mem_nil, rfl, rfl, rfl⟩
  obtain ⟨r, flags, hr, hflags, hret⟩ := setFlagsFrom_ok argv 1 hstart
  rw [setFlagsNm, hr, ok_bind]
  refine ⟨_, flags, rfl, hflags, ?_⟩
  by_cases hall : ∀ c ∈ optionChars argv, isFlag c = true
  · rw [if_pos hall] at hret ⊢
    obtain ⟨h1, h2, h3, h4⟩ := hret
    refine ⟨?_, h2, ?_, h4⟩
    · simp only
      omega
    · rw [List.drop_succ_cons, h3]
  · rw [if_neg hall] at hret ⊢
    exact hret

/-- The options are parsed up to the first argument that is none. All of them are known exactly if
the return is not -1, and then `flags` holds the distinct ones in order of first occurrence, the
operands are as they were, and no more than the first six bytes of `flags` are written. -/
theorem setFlagsNm_spec (name : List UInt8) (argv : List (List UInt8)) :
    ∃ r, setFlagsNm name argv = .ok r ∧ (∀ i ∈ r.loop.written, i ≤ 5) ∧
      if ∀ c ∈ optionChars argv, isFlag c = true then
        r.ret = optionCount argv + 1 ∧
          r.loop.flags = .ofBytes 10 (optionChars argv).eraseDups ∧
          r.argv.drop (optionCount argv + 1) = (name :: argv).drop (optionCount argv + 1)
      else r.ret = -1 := by
  obtain ⟨r, flags, hr, hflags, hret⟩ := setFlagsNm_ok name argv
  have hlen := length_eraseDups_le hflags.options
  refine ⟨r, hr, ?_, ?_⟩
  · intro i hi
    rw [hflags.written, hflags.index, List.mem_range] at hi
    omega
  · by_cases hall : ∀ c ∈ optionChars argv, isFlag c = true
    · rw [if_pos hall] at hret ⊢
      obtain ⟨h1, rfl, h3, -⟩ := hret
      exact ⟨h1, hflags.flags, h3⟩
    · rw [if_neg hall] at hret ⊢
      exact hret

example : (setFlagsNm (ascii "ft_nm") [ascii "-ru", ascii "-ur", ascii "-", ascii "a.o"]).bind
    (fun r => .ok (r.ret, r.loop.flags.bytes 0 10, r.argv.drop 3)) =
      .ok (3, ascii "ru" ++ List.replicate 8 0, [ascii "-", ascii "a.o"]) := by decide

/-- `flags` is the string of the options. -/
theorem cstr_ofBytes {n : Nat} (hds : ∀ b ∈ ds, b ≠ 0) (hn : ds.length < n) :
    (Buffer.ofBytes n ds).cstr 0 = ds := by
  have hlen : 0 + ds.length < (Buffer.ofBytes n ds).size := by
    rw [Nat.zero_add]
    exact hn
  have hnul : (Buffer.ofBytes n ds).byte (0 + ds.length) = 0 := by
    rw [Nat.zero_add]
    exact getD_of_drop_nil List.drop_length
  apply Buffer.cstr_of_bytes hds hlen
  rw [Buffer.bytes_add, (Buffer.holds_ofBytes (Nat.le_of_lt hn)).2, Buffer.bytes_succ, hnul,
    Buffer.bytes_zero]

end NmOtool.Nm
