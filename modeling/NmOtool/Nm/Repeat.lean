import NmOtool.Nm.Quiet

/-!
# ft_nm: one symbol after another

`list_symtab` calls `get_symbol_letter` once for each entry, on the image that the calls before
have left. Calls in host order, or quiet ones, leave the image as it was, so every letter is that
of a first call; a lookup in a swapped image rewrites the section header that it finds, and the
next symbol of the section gets another letter.
-/

namespace NmOtool.Nm

open MachO Checked

variable {m : Buffer} {s x : Bool} {ptr e : Nat} {es : List Nat}

/-- `get_symbol_letter` on the entries at the given addresses, in their order. -/
def symbolLetters (ptr : Nat) (s x : Bool) : List Nat → Buffer → Checked (List UInt8 × Buffer)
  | [], m => pure ([], m)
  | e :: es, m => do
    let (letter, m) ← getSymbolLetter m ptr e s x
    let (letters, m) ← symbolLetters ptr s x es m
    pure (letter :: letters, m)

/-- The letter of the entry at `e` on a first call. -/
def FirstLetter (m : Buffer) (ptr : Nat) (s x : Bool) (e : Nat) (letter : UInt8) : Prop :=
  ∃ m', getSymbolLetter m ptr e s x = .ok (letter, m')

/-- The calls on `es`, one after the other, give the letters of first calls. -/
def LettersStable (m : Buffer) (ptr : Nat) (s x : Bool) (es : List Nat) : Prop :=
  ∀ letters m', symbolLetters ptr s x es m = .ok (letters, m') →
    List.Forall₂ (FirstLetter m ptr s x) es letters

/-- The call on the entry at `e` changes nothing. -/
def CallQuiet (m : Buffer) (ptr : Nat) (s x : Bool) (e : Nat) : Prop :=
  s = true → SymbolQuiet m x ptr e

instance (m : Buffer) (ptr : Nat) (s x : Bool) (e : Nat) : Decidable (CallQuiet m ptr s x e) :=
  inferInstanceAs (Decidable (_ → _))

/-- One call. -/
theorem getSymbolLetter_callQuiet (h : CallQuiet m ptr s x e) {r : UInt8 × Buffer}
    (hr : getSymbolLetter m ptr e s x = .ok r) : r.2 = m := by
  cases s with
  | false =>
    have hkeep := getSymbolLetter_keep m ptr e x
    rw [hr] at hkeep
    exact congrArg Prod.snd (Checked.ok.inj hkeep)
  | true => exact getSymbolLetter_quiet_keep (h rfl) hr

/-- A run of calls all of which, but for the last, change nothing gives the letters of first
calls. -/
theorem symbolLetters_stable (h : ∀ e ∈ es.dropLast, CallQuiet m ptr s x e) :
    LettersStable m ptr s x es := by
  induction es with
  | nil =>
    intro letters m' hr
    cases hr
    exact .nil
  | cons e es ih =>
    intro letters m' hr
    obtain ⟨⟨letter, m₁⟩, hletter, hr⟩ := bind_eq_ok.mp hr
    obtain ⟨⟨rest, m₂⟩, hrest, hr⟩ := bind_eq_ok.mp hr
    cases hr
    refine .cons ⟨m₁, hletter⟩ ?_
    cases es with
    | nil =>
      cases hrest
      exact .nil
    | cons e' es =>
      rw [List.dropLast_cons_of_ne_nil (List.cons_ne_nil e' es)] at h
      have hkeep : m₁ = m := getSymbolLetter_callQuiet (h e List.mem_cons_self) hletter
      rw [hkeep] at hrest
      exact ih (fun e he => h e (List.mem_cons_of_mem _ he)) rest _ hrest

/-- A file with two symbols in its section `(__TEXT,__text)`. The high byte of `n_desc` is what
`swap_nlist` makes the section number of. -/
def twoTexts : ObjectFile where
  cpu := [CPU_TYPE_X86_64, 3, 1]
  flags := [0, 0]
  before := [.segment (name16 []) [0, 0, 0, 0] [7, 7] 0
    [{ sectname := name16 SECT_TEXT, segname := name16 SEG_TEXT, addr := 0x1000, size := 1,
       offset := 240, tail := List.replicate 7 0 }]]
  symoff := 208
  symbols := [⟨0, 0x0e, 1, 0x100, 0⟩, ⟨0, 0x0e, 1, 0x100, 0⟩, ⟨0, 0x01, 0, 0, 0⟩]
  stroff := 256
  strings := [0]
  after := []

/-- The big-endian file, swapped as `list_symtab` has it when it looks at the symbols. -/
def twoTextsSwapped : Buffer :=
  let m := headerImage true (twoTexts.image .big true) 0
  let m := symtabImage true (commandImage true (commandImage true m 32) 184) 184
  entryImage true true (entryImage true true (entryImage true true m 208) 224) 240

theorem symbolLetters_stable_twoTexts : LettersStable twoTextsSwapped 0 true true [240, 240, 208] :=
  symbolLetters_stable (by decide +kernel)

/-- The same section is another one for the second symbol. -/
theorem twoTexts_unstable : ¬ ∀ m ptr s x es, LettersStable m ptr s x es := by
  intro h
  have hrun : answer (symbolLetters 0 true true [208, 224] twoTextsSwapped) =
      some ['s'.toUInt8, 't'.toUInt8] := by decide +kernel
  have hfirst : answer (getSymbolLetter twoTextsSwapped 0 224 true true) =
      some 's'.toUInt8 := by decide +kernel
  obtain ⟨m', hrun⟩ := answer_eq_some.mp hrun
  have hall := h _ _ _ _ _ _ _ hrun
  simp only [List.forall₂_cons] at hall
  obtain ⟨m₁, h224⟩ := hall.2.1
  have hboth : 't'.toUInt8 = 's'.toUInt8 := Option.some.inj (by rw [← hfirst, h224]; rfl)
  exact absurd hboth (by decide)

end NmOtool.Nm
