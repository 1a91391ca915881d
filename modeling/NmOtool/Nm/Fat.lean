import NmOtool.Nm.Symtab

/-!
# ft_nm: the fat dispatcher

`handle_nm.c` and `handle_each_arch.c`. The dispatcher is written over the parser of a slice,
`parse`, so that its own accesses can be told from those of `handle_not_fat`; `handleFat` and
`handleEachArch` are the instances at `handleNotFat`.
-/

namespace NmOtool.Nm

open MachO

/-- The type of `handle_not_fat`: image, width, byte order and address of a slice. -/
abbrev Parser := Buffer → Bool → Bool → Nat → Checked (List TNm × Buffer)

/-- `t_fat`. -/
structure TFat where
  shouldSwap : Bool
  is64 : Bool
  found64 : Bool
  deriving DecidableEq, Repr

/-! ## `handle_each_arch` -/

def handleEachArchWith (parse : Parser) (m : Buffer) (array ptr : Nat) (fat : TFat) :
    Checked (List TNm × Buffer × TFat) :=
  if isSafe m array then do
    let arch ← isHostarch m array fat.shouldSwap
    if arch = 0 then pure ([], m, fat)
    else if fat.found64 ∧ arch = MY_CPU_I386 then pure ([], m, fat)
    else do
      let offset ← getOffsizeArch m array fat.shouldSwap fat.is64
      let magicNumber ← m.field 4 (ptr + offset)
      if notValidHeader magicNumber then pure ([], m, fat)
      else do
        let is64 := is64File magicNumber
        let shouldSwap := shouldSwapFile magicNumber
        let fat := if arch = MY_CPU_X86_64 then { fat with found64 := true } else fat
        let (list, m) ← parse m is64 shouldSwap (ptr + offset)
        pure (list, m, fat)
  else
    pure ([], m, fat)

def handleEachArch (m : Buffer) (array ptr : Nat) (fat : TFat) :
    Checked (List TNm × Buffer × TFat) :=
  handleEachArchWith handleNotFat m array ptr fat

/-! ## `handle_fat` -/

/-- The number of entries, as the fat header gives it. -/
def nfatArch (m : Buffer) (shouldSwap : Bool) (ptr : Nat) : Checked Nat := do
  let nb ← m.field 4 (ptr + 4)
  pure (if shouldSwap then (swapUint32 (.ofNat 32 nb)).toNat else nb)

/-- The loop of `initTFat` from entry `i`, with `n` entries left: is one of them x86_64? -/
def initTFatFrom (m : Buffer) (ptr size : Nat) (shouldSwap : Bool) : Nat → Nat → Checked Bool
  | 0, _ => pure false
  | n + 1, i => do
    let arch ← isHostarch m (ptr + i * size + fatHeaderSize) shouldSwap
    if arch = MY_CPU_X86_64 then pure true
    else initTFatFrom m ptr size shouldSwap n (i + 1)

def initTFat (m : Buffer) (is64 shouldSwap : Bool) (ptr : Nat) : Checked TFat := do
  let nb ← nfatArch m shouldSwap ptr
  let found64 ← initTFatFrom m ptr (fatArchSize is64) shouldSwap nb 0
  pure { shouldSwap, is64, found64 }

/-- The loop of `handleFatWith` from entry `i`, with `n` entries left. -/
def handleFatFrom (parse : Parser) (ptr size : Nat) :
    Nat → Nat → TFat → Buffer → Checked (List TNm × Buffer)
  | 0, _, _, m => pure ([], m)
  | n + 1, i, fat, m => do
    let (nmList, m, fat) ← handleEachArchWith parse m (ptr + i * size + fatHeaderSize) ptr fat
    if nmList ≠ [] then pure (nmList, m)
    else handleFatFrom parse ptr size n (i + 1) fat m

def handleFatWith (parse : Parser) (m : Buffer) (is64 shouldSwap : Bool) (ptr : Nat) :
    Checked (List TNm × Buffer) :=
  if isSafe m (ptr + fatHeaderSize : Nat) then do
    let nb ← nfatArch m shouldSwap ptr
    let fat ← initTFat m is64 shouldSwap ptr
    handleFatFrom parse ptr (fatArchSize is64) nb 0 fat m
  else
    pure ([], m)

def handleFat (m : Buffer) (is64 shouldSwap : Bool) (ptr : Nat) : Checked (List TNm × Buffer) :=
  handleFatWith handleNotFat m is64 shouldSwap ptr

def handleNm (m : Buffer) (isFat is64 shouldSwap : Bool) (ptr : Nat) :
    Checked (List TNm × Buffer) :=
  if isFat then handleFat m is64 shouldSwap ptr else handleNotFat m is64 shouldSwap ptr

end NmOtool.Nm
