import Mathlib.Algebra.Group.Nat.Defs
import NmOtool.Base.Checked
import NmOtool.Base.Segments
import NmOtool.MachO.Layout

/-!
# libft: the word splitters

`ft_strsplit` and `ft_split` count the words of a string, allocate the table, and fill it in a second
pass. A string is the list of its bytes. `ft_split` counts in `int`, where an overflow is a fault, and
`ft_strsplit` in `unsigned int`; an entry is written into the table only where it was allocated.
-/

namespace NmOtool

open MachO Checked

/-! ## The table -/

/-- A table of pointers: what was allocated, and the entries written, `none` for the NULL. -/
structure Table where
  alloc : Nat
  entries : List (Option (List UInt8))
  deriving DecidableEq

/-- The next entry. -/
def Table.push (table : Table) (entry : Option (List UInt8)) : Checked Table :=
  if table.entries.length < table.alloc then
    .ok { table with entries := table.entries ++ [entry] }
  else .fault

/-- `i + 1` for an `int`. -/
def intSucc (i : Nat) : Checked Nat := if i + 1 < 2 ^ 31 then .ok (i + 1) else .fault

/-! ## `ft_split.c` -/

def checkInclude (charset : List UInt8) (a : UInt8) : Bool := decide (a ∈ charset)

/-- The outer loop of `number_word`. -/
def numberWordFrom (charset : List UInt8) : Nat → List UInt8 → Nat → Checked Nat
  | 0, _, _ => .fault
  | fuel + 1, str, i =>
    if str = [] then .ok i
    else do
      let str := str.dropWhile (checkInclude charset)
      let i ← if str ≠ [] then intSucc i else pure i
      numberWordFrom charset fuel (str.dropWhile (!checkInclude charset ·)) i

def numberWord (str charset : List UInt8) : Checked Nat :=
  numberWordFrom charset (str.length + 1) str 0

/-- The outer loop of `ft_split`. The index `k` passes the word and `length + 1` is allocated. -/
def ftSplitFrom (charset : List UInt8) : Nat → List UInt8 → Table → Checked Table
  | 0, _, _ => .fault
  | fuel + 1, str, result =>
    if str = [] then .ok result
    else
      let str := str.dropWhile (checkInclude charset)
      if str = [] then .ok result
      else do
        let word := str.takeWhile (!checkInclude charset ·)
        let _ ← intSucc word.length
        let result ← result.push (some word)
        ftSplitFrom charset fuel (str.drop word.length) result

def ftSplit (str charset : List UInt8) : Checked Table := do
  let words ← numberWord str charset
  let alloc ← intSucc words
  let result ← ftSplitFrom charset (str.length + 1) str ⟨alloc, []⟩
  result.push none

/-! ## `ft_strsplit.c` -/

/-- `ft_nbwords` -/
def ftNbwords (s : List UInt8) (c : UInt8) : Nat := (s.takeWhile (!(· == c) ·)).length % 2 ^ 32

/-- `ft_fillwords` -/
def ftFillwords (l : Nat) (str : List UInt8) : List UInt8 := str.take l

/-- The outer loop of `wc`. -/
def wcFrom (c : UInt8) : Nat → List UInt8 → Nat → Checked Nat
  | 0, _, _ => .fault
  | fuel + 1, s, count =>
    if s = [] then .ok count
    else
      let s := s.dropWhile (· == c)
      if s ≠ [] then wcFrom c fuel (s.dropWhile (!(· == c) ·)) ((count + 1) % 2 ^ 32)
      else wcFrom c fuel s count

def wc (s : List UInt8) (c : UInt8) : Checked Nat := wcFrom c (s.length + 1) s 0

/-- The loop of `ft_strsplit` from the counter `i`. -/
def ftStrsplitFrom (c : UInt8) (y : Nat) : Nat → Nat → List UInt8 → Table → Checked Table
  | 0, _, _, _ => .fault
  | fuel + 1, i, s, as =>
    if i < y ∧ s ≠ [] then do
      let s := s.dropWhile (· == c)
      let len := ftNbwords s c
      let as ← as.push (some (ftFillwords len s))
      ftStrsplitFrom c y fuel ((i + 1) % 2 ^ 32) (s.drop len) as
    else .ok as

def ftStrsplit (s : List UInt8) (c : UInt8) : Checked Table := do
  let y ← wc s c
  let words ← wc s c
  let as ← ftStrsplitFrom c y (s.length + 1) 0 s ⟨(words + 1) % 2 ^ 32, []⟩
  as.push none

/-! ## The specification -/

/-- The table of some words, with its NULL, in the memory that it fills. -/
def tableOf (words : List (List UInt8)) : Table := ⟨words.length + 1, words.map some ++ [none]⟩

/-- What an `int` can count: the words with the NULL, and the bytes of each with its NUL. -/
structure Countable (words : List (List UInt8)) : Prop where
  number : words.length + 1 < 2 ^ 31
  bytes : ∀ word ∈ words, word.length + 1 < 2 ^ 31

variable {charset s str : List UInt8} {c : UInt8} {p : UInt8 → Bool} {fuel i n y : Nat} {t : Table}

/-! ## The next word -/

theorem segmentsOf_none (h : s.dropWhile p = []) : segmentsOf p s = [] := by
  rw [← segmentsOf_dropWhile, h, segmentsOf_nil]

/-- Behind the separators in front, one round of either splitter passes the first segment. -/
theorem segmentsOf_next (h : s.dropWhile p ≠ []) :
    segmentsOf p s = (s.dropWhile p).takeWhile (!p ·) ::
        segmentsOf p ((s.dropWhile p).dropWhile (!p ·)) ∧
      ((s.dropWhile p).dropWhile (!p ·)).length < s.length := by
  have hhead : ∀ a ∈ (s.dropWhile p).head?, p a = false := by
    intro a ha
    have hnot := List.head?_dropWhile_not p s
    rw [Option.mem_def.mp ha] at hnot
    simpa using hnot
  obtain ⟨hne, hsegments⟩ := segmentsOf_word h hhead
  rw [segmentsOf_dropWhile] at hsegments
  refine ⟨hsegments, ?_⟩
  have hlen : (s.dropWhile p).length ≤ s.length := List.length_dropWhile_le p s
  have hword := congrArg List.length
    (List.takeWhile_append_dropWhile (p := (!p ·)) (l := s.dropWhile p))
  have hpos := List.length_pos_iff.mpr hne
  rw [List.length_append] at hword
  omega

/-! ## `ft_split` -/

/-- `number_word` is the number of segments, if it is an `int`. -/
theorem numberWordFrom_eq (hf : str.length < fuel) (hi : i < 2 ^ 31) :
    numberWordFrom charset fuel str i =
      if i + (segmentsOf (checkInclude charset) str).length < 2 ^ 31 then
        .ok (i + (segmentsOf (checkInclude charset) str).length)
      else .fault := by
  induction fuel generalizing str i with
  | zero => exact absurd hf (Nat.not_lt_zero _)
  | succ fuel ih =>
    unfold numberWordFrom
    split
    · next hstr =>
      rw [hstr, segmentsOf_nil, List.length_nil, Nat.add_zero, if_pos hi]
    · next hstr =>
      simp only
      split
      · next hword =>
        obtain ⟨hsegments, hlen⟩ := segmentsOf_next hword
        rw [hsegments, List.length_cons, intSucc]
        by_cases hi' : i + 1 < 2 ^ 31
        · rw [if_pos hi', ok_bind, ih (by omega) hi']
          simp only [Nat.add_comm _ 1, Nat.add_assoc, Nat.add_left_comm]
        · rw [if_neg hi', fault_bind, if_neg (by omega)]
      · next hword =>
        rw [not_not] at hword
        have hpos := List.length_pos_iff.mpr hstr
        rw [pure_eq, ok_bind, hword, List.dropWhile_nil, segmentsOf_none hword,
          ih (by rw [List.length_nil]; omega) hi, segmentsOf_nil]

theorem ftSplitFrom_eq (hf : str.length < fuel)
    (hroom : t.entries.length + (segmentsOf (checkInclude charset) str).length ≤ t.alloc) :
    ftSplitFrom charset fuel str t =
      if ∀ word ∈ segmentsOf (checkInclude charset) str, word.length + 1 < 2 ^ 31 then
        .ok { t with
          entries := t.entries ++ (segmentsOf (checkInclude charset) str).map some }
      else .fault := by
  induction fuel generalizing str t with
  | zero => exact absurd hf (Nat.not_lt_zero _)
  | succ fuel ih =>
    unfold ftSplitFrom
    split
    · next hstr =>
      rw [hstr, segmentsOf_nil, if_pos (by simp), List.map_nil, List.append_nil]
    · simp only
      split
      · next hword =>
        rw [segmentsOf_none hword, if_pos (by simp), List.map_nil, List.append_nil]
      · next hword =>
        obtain ⟨hsegments, hlen⟩ := segmentsOf_next hword
        rw [hsegments, List.length_cons] at hroom
        rw [hsegments, drop_takeWhile, intSucc]
        simp only [List.forall_mem_cons]
        split
        · next hshort =>
          rw [ok_bind, Table.push, if_pos (by omega), ok_bind, ih (by omega)
            (by simp only [List.length_append, List.length_singleton]; omega)]
          simp only [List.map_cons, List.append_assoc, List.singleton_append, hshort, true_and]
        · next hlong =>
          rw [fault_bind, if_neg fun h => hlong h.1]

/-- `ft_split` gives the segments in exactly the table that it allocates, or overflows. -/
theorem ftSplit_ok (h : Countable (segmentsOf (checkInclude charset) str)) :
    ftSplit str charset = .ok (tableOf (segmentsOf (checkInclude charset) str)) := by
  have hnumber := h.number
  have hwords : numberWordFrom charset (str.length + 1) str 0 = _ :=
    numberWordFrom_eq (Nat.lt_succ_self str.length) (by decide)
  rw [Nat.zero_add, if_pos (by omega)] at hwords
  rw [ftSplit, numberWord, hwords, ok_bind, intSucc, if_pos hnumber, ok_bind,
    ftSplitFrom_eq (Nat.lt_succ_self _) (by simp), if_pos h.bytes, ok_bind, Table.push,
    if_pos (by simp)]
  rfl

theorem ftSplit_fault (h : ¬ Countable (segmentsOf (checkInclude charset) str)) :
    ftSplit str charset = .fault := by
  have hwords : numberWordFrom charset (str.length + 1) str 0 = _ :=
    numberWordFrom_eq (Nat.lt_succ_self str.length) (by decide)
  rw [Nat.zero_add] at hwords
  rw [ftSplit, numberWord, hwords]
  split
  · rw [ok_bind, intSucc]
    split
    · next hnumber =>
      rw [ok_bind, ftSplitFrom_eq (Nat.lt_succ_self _) (by simp),
        if_neg fun hbytes => h ⟨hnumber, hbytes⟩, fault_bind]
    · rfl
  · rfl

theorem ftSplit_ok_iff : ftSplit str charset = .ok (tableOf (segmentsOf (checkInclude charset) str)) ↔
    Countable (segmentsOf (checkInclude charset) str) := by
  refine ⟨fun h => ?_, ftSplit_ok⟩
  by_contra hno
  rw [ftSplit_fault hno] at h
  cases h

/-! ## `ft_strsplit` -/

theorem wcFrom_eq (hf : s.length < fuel) (h : i + (segmentsOf (· == c) s).length < 2 ^ 32) :
    wcFrom c fuel s i = .ok (i + (segmentsOf (· == c) s).length) := by
  induction fuel generalizing s i with
  | zero => exact absurd hf (Nat.not_lt_zero _)
  | succ fuel ih =>
    unfold wcFrom
    split
    · next hs => rw [hs, segmentsOf_nil, List.length_nil, Nat.add_zero]
    · next hs =>
      simp only
      split
      · next hword =>
        obtain ⟨hsegments, hlen⟩ := segmentsOf_next hword
        rw [hsegments, List.length_cons] at h ⊢
        rw [Nat.mod_eq_of_lt (by omega), ih (by omega) (by omega)]
        congr 1
        omega
      · next hword =>
        rw [not_not] at hword
        have hpos := List.length_pos_iff.mpr hs
        rw [segmentsOf_none hword] at h ⊢
        rw [hword, ih (by rw [List.length_nil]; omega) h, segmentsOf_nil]

/-- The counter `i` and the segments that are left are the words counted before, so that the loop ends
with the last one. -/
theorem ftStrsplitFrom_eq (hf : s.length < fuel) (hy : i + (segmentsOf (· == c) s).length = y)
    (h32 : y < 2 ^ 32) (hbytes : ∀ word ∈ segmentsOf (· == c) s, word.length < 2 ^ 32)
    (hroom : t.entries.length + (segmentsOf (· == c) s).length ≤ t.alloc) :
    ftStrsplitFrom c y fuel i s t =
      .ok { t with entries := t.entries ++ (segmentsOf (· == c) s).map some } := by
  induction fuel generalizing s i t with
  | zero => exact absurd hf (Nat.not_lt_zero _)
  | succ fuel ih =>
    unfold ftStrsplitFrom
    split
    · next hloop =>
      have hword : s.dropWhile (· == c) ≠ [] := by
        intro hnone
        rw [segmentsOf_none hnone, List.length_nil] at hy
        omega
      obtain ⟨hsegments, hlen⟩ := segmentsOf_next hword
      rw [hsegments, List.length_cons] at hy hroom
      rw [hsegments, List.forall_mem_cons] at hbytes
      simp only
      rw [ftNbwords, Nat.mod_eq_of_lt hbytes.1, ftFillwords, drop_takeWhile,
        ← List.prefix_iff_eq_take.mp (List.takeWhile_prefix _), Table.push, if_pos (by omega), ok_bind,
        Nat.mod_eq_of_lt (by omega), ih (hlen.trans_le (Nat.le_of_lt_succ hf)) (by omega) hbytes.2
          (by simp only [List.length_append, List.length_singleton]; omega), hsegments]
      simp only [List.map_cons, List.append_assoc, List.singleton_append]
    · next hend =>
      have hnone : segmentsOf (· == c) s = [] := by
        by_cases hs : s = []
        · rw [hs, segmentsOf_nil]
        · have hle : ¬ i < y := fun hlt => hend ⟨hlt, hs⟩
          exact List.eq_nil_of_length_eq_zero (by omega)
      rw [hnone, List.map_nil, List.append_nil]

theorem ftStrsplit_ok (hnumber : (segmentsOf (· == c) s).length + 1 < 2 ^ 32)
    (hbytes : ∀ word ∈ segmentsOf (· == c) s, word.length < 2 ^ 32) :
    ftStrsplit s c = .ok (tableOf (segmentsOf (· == c) s)) := by
  have hwords := wcFrom_eq (i := 0) (Nat.lt_succ_self s.length)
    (show 0 + (segmentsOf (· == c) s).length < 2 ^ 32 by omega)
  rw [Nat.zero_add] at hwords
  rw [ftStrsplit, wc, hwords, ok_bind, ok_bind, Nat.mod_eq_of_lt hnumber,
    ftStrsplitFrom_eq (Nat.lt_succ_self _) (Nat.zero_add _) (by omega) hbytes (by simp), ok_bind,
    Table.push, if_pos (by simp)]
  rfl

/-! ## Agreement -/

theorem checkInclude_singleton (c : UInt8) : checkInclude [c] = (· == c) := by
  funext a
  rw [checkInclude, Bool.beq_eq_decide_eq]
  exact decide_eq_decide.mpr List.mem_singleton

/-- The two splitters give the segments, in a table of exactly the size allocated, if and only if an
`int` counts them and the bytes of each. -/
theorem splitters_agree (s : List UInt8) :
    (∀ c, (ftStrsplit s c = .ok (tableOf (segmentsOf (· == c) s)) ∧
          ftSplit s [c] = .ok (tableOf (segmentsOf (· == c) s))) ↔
        Countable (segmentsOf (· == c) s)) ∧
    (∀ charset, ftSplit s charset = .ok (tableOf (segmentsOf (checkInclude charset) s)) ↔
        Countable (segmentsOf (checkInclude charset) s)) := by
  refine ⟨fun c => ?_, fun charset => ftSplit_ok_iff⟩
  rw [← checkInclude_singleton, ftSplit_ok_iff]
  refine ⟨And.right, fun h => ⟨?_, h⟩⟩
  rw [checkInclude_singleton] at h ⊢
  exact ftStrsplit_ok (h.number.trans (by decide))
    fun word hmem => (Nat.lt_of_succ_lt (h.bytes word hmem)).trans (by decide)

example : ftSplit (ascii ",,ab,c,") (ascii ",") =
    .ok ⟨3, [some (ascii "ab"), some (ascii "c"), none]⟩ := by decide

theorem splitters_agree_twoWords :
    ftStrsplit (ascii "ab,c") ','.toUInt8 =
        .ok (tableOf (segmentsOf (· == ','.toUInt8) (ascii "ab,c"))) ∧
      ftSplit (ascii "ab,c") [','.toUInt8] =
        .ok (tableOf (segmentsOf (· == ','.toUInt8) (ascii "ab,c"))) :=
  ((splitters_agree (ascii "ab,c")).1 ','.toUInt8).mpr ⟨by decide, by decide⟩

theorem segmentsOf_replicate {a : UInt8} (hn : n ≠ 0) (h : a ≠ c) :
    segmentsOf (· == c) (List.replicate n a) = [List.replicate n a] := by
  apply segmentsOf_single
  · rwa [Ne, List.replicate_eq_nil_iff]
  · intro b hb
    rw [List.eq_of_mem_replicate hb]
    exact beq_eq_false_iff_ne.mpr h

/-- One word of `2 ^ 31` bytes: `ft_strsplit` returns it, and the `int`s of `ft_split` overflow. -/
theorem splitters_differ :
    ftStrsplit (List.replicate (2 ^ 31) 'a'.toUInt8) ','.toUInt8 =
        .ok (tableOf [List.replicate (2 ^ 31) 'a'.toUInt8]) ∧
      ftSplit (List.replicate (2 ^ 31) 'a'.toUInt8) [','.toUInt8] = .fault := by
  have hsegments := segmentsOf_replicate (n := 2 ^ 31) (by decide)
    (by decide : 'a'.toUInt8 ≠ ','.toUInt8)
  constructor
  · have hstrsplit := ftStrsplit_ok (c := ','.toUInt8) (s := List.replicate (2 ^ 31) 'a'.toUInt8)
    rw [hsegments] at hstrsplit
    apply hstrsplit
    · decide
    · intro word hmem
      rw [List.mem_singleton.mp hmem, List.length_replicate]
      decide
  · apply ftSplit_fault
    rw [checkInclude_singleton, hsegments]
    intro h
    have hbytes := h.bytes _ List.mem_cons_self
    rw [List.length_replicate] at hbytes
    exact absurd hbytes (by decide)

end NmOtool
