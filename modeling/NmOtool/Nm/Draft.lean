import Mathlib.Data.List.Flatten
import NmOtool.Nm.Readback

/-!
# The draft of nm

`nm.c` at the top of the sources: it takes 64-bit files in the order of the host only, checks
nothing, and prints the name of every symbol in the order of the table. `ft_nm -pj` prints these
names without those of the hidden symbols.
-/

namespace NmOtool.Nm.Draft

open MachO Checked

/-! ## The program -/

/-- A read at a pointer that went through an `int`. -/
def fieldAt (m : Buffer) (w : Nat) (p : Int) : Checked Nat :=
  if 0 ≤ p then m.field w p.toNat else .fault

/-- `printf("%s\n", p)`. -/
def printLine (m : Buffer) (p : Int) : Checked (List UInt8) :=
  if 0 ≤ p then do
    let s ← ftStr m p.toNat
    pure (s ++ ascii "\n")
  else .fault

/-- The loop of `printOutput` from symbol `i`, with `n` left. -/
def printOutputFrom (m : Buffer) (symoff stroff : Int) : Nat → Nat → Checked (List UInt8)
  | 0, _ => pure []
  | n + 1, i => do
    let strx ← fieldAt m 4 (symoff + i * nlistSize true)
    let line ← printLine m (stroff + strx)
    let rest ← printOutputFrom m symoff stroff n (i + 1)
    pure (line ++ rest)

def printOutput (m : Buffer) (nsyms symoff stroff : Int) : Checked (List UInt8) :=
  printOutputFrom m symoff stroff nsyms.toNat 0

/-- The loop of `handle64` from the load command at `lc`, with `n` left. -/
def handle64From (m : Buffer) : Nat → Nat → Checked (List UInt8)
  | 0, _ => pure []
  | n + 1, lc => do
    let cmd ← m.field 4 lc
    if cmd = LC_SYMTAB then do
      let nsyms ← m.field 4 (lc + 12)
      let symoff ← m.field 4 (lc + 8)
      let stroff ← m.field 4 (lc + 16)
      printOutput m (int32 nsyms) (int32 symoff) (int32 stroff)
    else do
      let cmdsize ← m.field 4 (lc + 4)
      handle64From m n (lc + cmdsize)

/-- `handle_64`; `ncmds` is an `int` there. -/
def handle64 (m : Buffer) : Checked (List UInt8) := do
  let ncmds ← m.field 4 16
  handle64From m (int32 ncmds).toNat (headerSize true)

def nm (m : Buffer) : Checked (List UInt8) := do
  let magicNumber ← m.field 4 0
  if magicNumber = MH_MAGIC_64 then handle64 m else pure []

/-! ## On well-formed files -/

variable {m : Buffer} {sym n lc : Nat} {d : Picture}

def nameLine (s : PictureSymbol) : List UInt8 := s.name ++ ascii "\n"

theorem printOutputFrom_ok (hwf : WellFormed m true 0 sym) (i : Nat) (hn : i + n = nsyms m sym) :
    printOutputFrom m (symoff m sym) (stroff m sym) n i =
      .ok ((List.range' i n).flatMap fun j => nameLine (symbolOf m true 0 sym j)) := by
  induction n generalizing i with
  | zero => rfl
  | succ n ih =>
    have hi : i < nsyms m sym := by omega
    have hent := nlistAt_add_le hwf.table hi
    have hpos : (symoff m sym : Int) + i * nlistSize true = (nlistAt m true 0 sym i : Nat) := by
      rw [nlistAt, Nat.zero_add]
      rfl
    have hname : (stroff m sym : Int) + (m.le 4 (nlistAt m true 0 sym i) : Nat) =
        (nameAt m true 0 sym i : Nat) := by
      rw [nameAt, Nat.zero_add, strx]
      rfl
    have hsize : nlistSize true = 16 := rfl
    rw [printOutputFrom, fieldAt, hpos, if_pos (Int.natCast_nonneg _), Int.toNat_natCast,
      Buffer.field_ok (by omega), ok_bind, printLine, hname, if_pos (Int.natCast_nonneg _),
      Int.toNat_natCast, ftStr_terminated (hwf.table.terminated hi), ok_bind, pure_eq, ok_bind,
      ih (i + 1) (by omega), ok_bind, List.range'_succ, List.flatMap_cons]
    rfl

/-- The tables of a file below 2 GiB have offsets and counts that are `int`s. -/
theorem printOutput_ok (hwf : WellFormed m true 0 sym) (hsz : m.size < 2 ^ 31)
    (h : Depicts m true sym d) : printOutput m (int32 (nsyms m sym)) (int32 (symoff m sym))
      (int32 (stroff m sym)) = .ok (d.symbols.flatMap nameLine) := by
  have hentries := hwf.table.entries
  have hstrings := hwf.table.strings
  have hsize : nlistSize true = 16 := rfl
  rw [hsize] at hentries
  rw [int32_of_lt (by omega), int32_of_lt (by omega), int32_of_lt (by omega), printOutput,
    Int.toNat_natCast, printOutputFrom_ok hwf 0 (Nat.zero_add _), ← h.picture, picture,
    List.flatMap_map, List.range_eq_range']

theorem handle64From_ok (hcmds : ∀ c ∈ commandsFrom m n lc, WfCommand m true c)
    (hsym : (commandsFrom m n lc).find? (fun c => cmd m c == LC_SYMTAB) = some sym)
    (hwf : WellFormed m true 0 sym) (hsz : m.size < 2 ^ 31) (h : Depicts m true sym d) :
    handle64From m n lc = .ok (d.symbols.flatMap nameLine) := by
  induction n generalizing lc with
  | zero => simp [commandsFrom] at hsym
  | succ n ih =>
    have hlc := (hcmds lc List.mem_cons_self).lt
    have h8 := (hcmds lc List.mem_cons_self).atLeast
    have hinside := (hcmds lc List.mem_cons_self).inside
    have hnext := fun c hc => hcmds c (List.mem_cons_of_mem lc hc)
    rw [handle64From, Buffer.field_ok (by omega), ok_bind]
    rw [commandsFrom, List.find?_cons] at hsym
    by_cases hc : cmd m lc = LC_SYMTAB
    · have heq : lc = sym := by simpa [hc] using hsym
      subst heq
      have hin := hwf.table.inside
      have h24 : symtabSize = 24 := rfl
      rw [if_pos (show m.le 4 lc = LC_SYMTAB from hc), Buffer.field_ok (by omega), ok_bind,
        Buffer.field_ok (by omega), ok_bind, Buffer.field_ok (by omega), ok_bind]
      exact printOutput_ok hwf hsz h
    · rw [beq_false_of_ne hc] at hsym
      rw [if_neg (show ¬ m.le 4 lc = LC_SYMTAB from hc), Buffer.field_ok (by omega), ok_bind]
      exact ih hnext hsym

theorem commandsFrom_le (hcmds : ∀ c ∈ commandsFrom m n lc, WfCommand m true c)
    (hlc : lc ≤ m.size) : lc + 8 * n ≤ m.size := by
  induction n generalizing lc with
  | zero => omega
  | succ n ih =>
    have h8 := (hcmds lc List.mem_cons_self).atLeast
    have hinside := (hcmds lc List.mem_cons_self).inside
    have hrest := ih (fun c hc => hcmds c (List.mem_cons_of_mem lc hc)) hinside
    omega

/-- The draft prints the names of all symbols, in the order of the table. -/
theorem nm_names (h : Depicts m true sym d) (hsz : m.size < 2 ^ 31) :
    nm m = .ok (d.symbols.flatMap nameLine) := by
  have hwf := h.wf
  have h32 := hwf.header
  have hle : 0 + headerSize true + 8 * ncmds m 0 ≤ m.size := commandsFrom_le hwf.command (by
    have : headerSize true = 32 := rfl
    omega)
  have hmagic : m.le 4 0 = MH_MAGIC_64 := hwf.magic
  rw [nm, Buffer.field_ok (by omega), ok_bind, if_pos hmagic, handle64,
    Buffer.field_ok (by omega), ok_bind, show m.le 4 16 = ncmds m 0 from rfl,
    int32_of_lt (by omega), Int.toNat_natCast]
  have hcmds := hwf.command
  have hsym := hwf.symtab
  rw [symtabCommand, commands, Nat.zero_add] at hsym
  rw [commands, Nat.zero_add] at hcmds
  exact handle64From_ok hcmds hsym hwf hsz h

/-! ## The draft and `ft_nm -pj` -/

/-- Whatever is left out is missing from the length. -/
theorem forall_of_flatMap_filter {α β : Type} {q : α → Bool} {f : α → List β}
    (hf : ∀ a, f a ≠ []) {l : List α} (h : (l.flatMap f).length = ((l.filter q).flatMap f).length) :
    ∀ a ∈ l, q a = true := by
  induction l with
  | nil => exact fun a ha => absurd ha List.not_mem_nil
  | cons a l ih =>
    have hle : ((l.filter q).flatMap f).length ≤ (l.flatMap f).length :=
      (List.filter_sublist.flatMap f).length_le
    have hpos : 0 < (f a).length := List.length_pos_of_ne_nil (hf a)
    by_cases hq : q a = true
    · rw [List.filter_cons_of_pos hq, List.flatMap_cons, List.flatMap_cons, List.length_append,
        List.length_append] at h
      exact List.forall_mem_cons.mpr ⟨hq, ih (by omega)⟩
    · rw [List.filter_cons_of_neg hq, List.flatMap_cons, List.length_append] at h
      omega

instance (s : PictureSymbol) : Decidable (Hidden s) := inferInstanceAs (Decidable (_ ∧ _))

theorem list_pj : d.list (ascii "pj") = (d.symbols.filter fun s => ¬ Hidden s).map d.show := by
  have hp : ftStrchr (ascii "pj") 'p'.toUInt8 = true := rfl
  rw [Picture.list, sortShown, if_pos hp, selectShown, List.filter_map]
  congr 2
  funext s
  have hshow : canShowList (d.show s).letter (ascii "pj") = !((d.show s).letter == '-'.toUInt8) := by
    rw [canShowList]
    cases (d.show s).letter == '-'.toUInt8 <;> rfl
  rw [Function.comp, hshow, decide_not, Bool.eq_iff_iff]
  simp only [Bool.not_eq_true', beq_eq_false_iff_ne, decide_eq_false_iff_not, ne_eq, show_hidden]

theorem lineOf_pj (h : Depicts m true sym d) (hsz : m.size < 2 ^ 31) {s : PictureSymbol}
    (hs : s ∈ d.symbols) : lineOf true (ascii "pj") (d.show s) = nameLine s := by
  have hlen : s.name.length < 2 ^ 31 := by
    rw [← h.picture] at hs
    obtain ⟨i, -, rfl⟩ := List.mem_map.mp hs
    have hle : (m.cstr (nameAt m true 0 sym i)).length ≤ m.size - nameAt m true 0 sym i :=
      length_cstrUpTo
    change (m.cstr (nameAt m true 0 sym i)).length < 2 ^ 31
    omega
  have hj : ftStrchr (ascii "pj") 'j'.toUInt8 = true := rfl
  rw [lineOf, hj, Bool.not_true, Bool.and_false, if_neg Bool.false_ne_true, List.nil_append,
    show (d.show s).name = s.name from rfl, ftPrintfS_eq hlen]
  rfl

/-- `ft_nm -pj` prints what the draft prints, but for the names of the hidden symbols; the two
outputs are the same exactly if there are none. -/
theorem draft_agrees (h : Depicts m true sym d) (hsz : m.size < 2 ^ 31) (hne : d.symbols ≠ [])
    (name : List UInt8) : ∃ o, Nm.nm m name ⟨false, true⟩ (ascii "pj") = .ok o ∧
      nm m = .ok (d.symbols.flatMap nameLine) ∧
      o.out = (d.symbols.filter fun s => ¬ Hidden s).flatMap nameLine ∧
      (nm m = .ok o.out ↔ ∀ s ∈ d.symbols, ¬ Hidden s) := by
  have hnames := nm_names h hsz
  have hout : (d.list (ascii "pj")).flatMap (lineOf true (ascii "pj")) =
      (d.symbols.filter fun s => ¬ Hidden s).flatMap nameLine := by
    rw [list_pj, List.flatMap_map]
    exact List.flatMap_congr fun s hs => lineOf_pj h hsz (List.mem_of_mem_filter hs)
  refine ⟨_, nm_depicts h hsz name ⟨false, true⟩, hnames, ?_, ?_⟩
  · rw [Picture.outcome, if_neg hne]
    exact hout
  · rw [hnames, Picture.outcome, if_neg hne]
    change ok _ = ok ((d.list (ascii "pj")).flatMap (lineOf true (ascii "pj"))) ↔ _
    rw [hout]
    constructor
    · intro hsame s hs
      have hlen := congrArg List.length (Checked.ok.inj hsame)
      have hkept := forall_of_flatMap_filter (fun a => List.append_ne_nil_of_right_ne_nil a.name
        (List.cons_ne_nil _ _)) hlen s hs
      simpa using hkept
    · intro hall
      rw [List.filter_eq_self.mpr fun s hs => by simpa using hall s hs]

/-- No symbol of the file is hidden: both print the two names. -/
theorem draft_agrees_smallFile : ∃ o,
    Nm.nm ((smallFile true).image .little true) (ascii "a.o") ⟨false, true⟩ (ascii "pj") = .ok o ∧
      nm ((smallFile true).image .little true) =
        .ok ((picture ((smallFile true).image .little true) true 0 184).symbols.flatMap nameLine) ∧
      o.out = ((picture ((smallFile true).image .little true) true 0 184).symbols.filter
        fun s => ¬ Hidden s).flatMap nameLine ∧
      (nm ((smallFile true).image .little true) = .ok o.out ↔
        ∀ s ∈ (picture ((smallFile true).image .little true) true 0 184).symbols, ¬ Hidden s) :=
  draft_agrees smallFile_depicts.2 (by decide +kernel) (by decide +kernel) (ascii "a.o")

end NmOtool.Nm.Draft
