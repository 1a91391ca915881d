import NmOtool.Otool.Args
import NmOtool.MachO.TextFile

/-!
# ft_otool: the status of a truncated dump

`dump_section` returns -1 when a line would start outside the map, and `put_text_section` when the
section header does not fit. Their callers go on without a look at what they return, so the walk to
them is repeated here for its answer only: does the run on this file give up a dump?
-/

namespace NmOtool.Otool

open MachO Checked
open Nm (TFat Outcome nfatArch initTFat)

/-! ## Giving up -/

/-- `dump_section` returns -1 on the section, or its header does not fit. A null pointer, of a file
without the section, is no header. -/
def putTextTruncates (m : Buffer) (sec : Option Nat) (shouldSwap is64 : Bool) (ptr : Nat) :
    Checked Bool :=
  match sec with
  | none => pure false
  | some sec =>
    if isSafe m (sec + sectionSize is64 : Nat) then do
      let m ← if shouldSwap then swapSection m sec is64 else pure m
      let size ← m.field (wordSize is64) (sec + 32 + wordSize is64)
      let offset ← m.field 4 (sec + 32 + 2 * wordSize is64)
      let (ret, _, _) ← dumpSection m (sec + 32) is64 { size, offset } ptr
      pure (ret == -1)
    else
      pure true

def handleNotFatTruncates (m : Buffer) (is64 shouldSwap : Bool) (ptr : Nat) : Checked Bool :=
  if isSafe m ptr then do
    let (lcInfo, m) ← getLc m is64 shouldSwap ptr
    match lcInfo with
    | none => pure false
    | some lcInfo => do
      let (sec, m) ← getTextSection lcInfo ptr shouldSwap is64 m
      putTextTruncates m sec shouldSwap is64 ptr
  else
    pure false

def handleEachArchTruncates (m : Buffer) (array ptr : Nat) (fat : TFat) : Checked Bool :=
  if isSafe m array then do
    let arch ← isHostarch m array fat.shouldSwap
    if arch = 0 then pure false
    else if fat.found64 ∧ arch = MY_CPU_I386 then pure false
    else do
      let offset ← getOffsizeArch m array fat.shouldSwap fat.is64
      let magicNumber ← m.field 4 (ptr + offset)
      if notValidHeader magicNumber then pure false
      else
        handleNotFatTruncates m (is64File magicNumber) (shouldSwapFile magicNumber) (ptr + offset)
  else
    pure false

/-- Some slice from entry `i` on gives up, in the image that the slices before it leave. -/
def handleFatTruncatesFrom (ptr size : Nat) : Nat → Nat → TFat → Buffer → Checked Bool
  | 0, _, _, _ => pure false
  | n + 1, i, fat, m => do
    let here ← handleEachArchTruncates m (ptr + i * size + fatHeaderSize) ptr fat
    let (_, _, m, fat) ← handleEachArch m (ptr + i * size + fatHeaderSize) ptr fat
    let later ← handleFatTruncatesFrom ptr size n (i + 1) fat m
    pure (here || later)

def handleFatTruncates (m : Buffer) (is64 shouldSwap : Bool) (ptr : Nat) : Checked Bool :=
  if isSafe m (ptr + fatHeaderSize : Nat) then do
    let nb ← nfatArch m shouldSwap ptr
    let fat ← initTFat m is64 shouldSwap ptr
    handleFatTruncatesFrom ptr (fatArchSize is64) nb 0 fat m
  else
    pure false

/-- The run of `otool` on the file gives up a dump. -/
def otoolTruncates (m : Buffer) : Checked Bool :=
  if isSafe m (32 : Nat) then do
    let magicNumber ← m.field 4 0
    if notValidFile magicNumber then pure false
    else
      let is64 := is64File magicNumber
      let shouldSwap := shouldSwapFile magicNumber
      if isFatFile magicNumber then handleFatTruncates m is64 shouldSwap 0
      else handleNotFatTruncates m is64 shouldSwap 0
  else
    pure false

/-- The file is thin or fat, and the dump of a section of it is given up. -/
def Truncated (m : Buffer) : Prop := otoolTruncates m = .ok true

instance (m : Buffer) : Decidable (Truncated m) := inferInstanceAs (Decidable (_ = _))

/-! ## What is returned -/

variable {m m' : Buffer} {is64 shouldSwap : Bool} {ptr : Nat} {ret : Int} {out name : List UInt8}

theorem handleNotFat_truncated (h : handleNotFat m is64 shouldSwap ptr = .ok (ret, out, m'))
    (ht : handleNotFatTruncates m is64 shouldSwap ptr = .ok true) : ret = 0 := by
  unfold handleNotFat at h
  unfold handleNotFatTruncates at ht
  by_cases hs : isSafe m ptr
  · rw [if_pos hs] at h ht
    obtain ⟨⟨lcInfo, m₁⟩, hlc, h⟩ := bind_eq_ok.mp h
    rw [hlc, ok_bind] at ht
    cases lcInfo with
    | none => cases ht
    | some lcInfo =>
      obtain ⟨⟨sec, m₂⟩, -, h⟩ := bind_eq_ok.mp h
      obtain ⟨⟨_, out, m₃⟩, -, h⟩ := bind_eq_ok.mp h
      cases h
      rfl
  · rw [if_neg hs] at ht
    cases ht

theorem handleFat_truncated (h : handleFat m is64 shouldSwap ptr = .ok (ret, out, m'))
    (ht : handleFatTruncates m is64 shouldSwap ptr = .ok true) : ret = 0 := by
  unfold handleFat at h
  unfold handleFatTruncates at ht
  by_cases hs : isSafe m (ptr + fatHeaderSize : Nat)
  · rw [if_pos hs] at h
    obtain ⟨nb, -, h⟩ := bind_eq_ok.mp h
    obtain ⟨fat, -, h⟩ := bind_eq_ok.mp h
    obtain ⟨⟨out, m₁⟩, -, h⟩ := bind_eq_ok.mp h
    cases h
    rfl
  · rw [if_neg hs] at ht
    cases ht

theorem otool_truncated {o : Outcome} (h : otool m name = .ok o) (ht : Truncated m) :
    o.ret = 0 := by
  unfold otool at h
  unfold Truncated otoolTruncates at ht
  by_cases hs : isSafe m (32 : Nat)
  · rw [if_pos hs] at h ht
    obtain ⟨magicNumber, hm, h⟩ := bind_eq_ok.mp h
    rw [hm, ok_bind] at ht
    by_cases hv : notValidFile magicNumber = true
    · rw [if_pos hv] at ht
      cases ht
    · rw [if_neg hv] at h ht
      obtain ⟨⟨ret, out, m₁⟩, hr, h⟩ := bind_eq_ok.mp h
      cases h
      unfold handleOtool at hr
      by_cases hf : isFatFile magicNumber = true
      · rw [if_pos hf] at hr ht
        exact handleFat_truncated hr ht
      · rw [if_neg hf] at hr ht
        exact handleNotFat_truncated hr ht
  · rw [if_neg hs] at ht
    cases ht

/-- The status of `ft_otool` on one file. -/
theorem main_maps {k : Kernel} {a : Answers} {p : Process} {o : Outcome} (ha : a.Maps m)
    (h : otool m name = .ok o) :
    ∃ p', main k (fun _ => a) [name] p =
      .ok (if 0 ≤ o.ret ∧ a.unmaps = true then EXIT_SUCCESS else EXIT_FAILURE, p') := by
  obtain ⟨p', hp⟩ : ∃ p', handleEachArgWith true (fun m => otool m name) k name a p =
      .ok (if 0 ≤ o.ret ∧ a.unmaps = true then EXIT_SUCCESS else EXIT_FAILURE, p') :=
    handleEachArgWith_maps ha h
  refine ⟨p', ?_⟩
  rw [main, handleArgs, if_neg (List.cons_ne_nil _ _), handleArgsFrom, handleEachArg, hp, ok_bind]
  simp only [handleArgsFrom, Nat.zero_or]
  rfl

/-- A dump that is given up is not reported: `otool` returns 0, and on one file the program exits
with success unless `munmap` fails. So the return is negative as it should be only where there is
nothing to report. -/
theorem truncation_unreported {o : Outcome} (h : otool m name = .ok o) :
    ((Truncated m → o.ret < 0) ↔ ¬ Truncated m) ∧
      (Truncated m → o.ret = 0 ∧ ∀ k a p, a.Maps m →
        ∃ p', main k (fun _ => a) [name] p =
          .ok (if a.unmaps then EXIT_SUCCESS else EXIT_FAILURE, p')) := by
  refine ⟨⟨fun hret ht => ?_, fun ht hc => absurd hc ht⟩, fun ht => ⟨otool_truncated h ht, ?_⟩⟩
  · have hzero := otool_truncated h ht
    have hneg := hret ht
    omega
  · intro k a p ha
    obtain ⟨p', hp⟩ := main_maps (k := k) (p := p) ha h
    refine ⟨p', ?_⟩
    rw [hp, otool_truncated h ht]
    simp

/-- A file whose text section lies behind its end. -/
def cutText : TextFile :=
  { smallText true with text := { (smallText true).text with offset := 400 } }

theorem cutText_otool : otool (cutText.image .little true) (ascii "a.o") =
    .ok ⟨0, ascii "a.o:\nContents of (__TEXT,__text) section\n", []⟩ := by decide +kernel

theorem cutText_truncated : Truncated (cutText.image .little true) := by decide +kernel

theorem truncation_unreported_cutText : ¬ (Truncated (cutText.image .little true) → (0 : Int) < 0) :=
  fun hret => (truncation_unreported cutText_otool).1.mp hret cutText_truncated

theorem truncation_claimed :
    ¬ ∀ m name o, otool m name = .ok o → Truncated m → o.ret < 0 := by
  intro h
  exact absurd (h _ _ _ cutText_otool cutText_truncated) (by decide)

end NmOtool.Otool
