import NmOtool.Nm.Letter

/-!
# ft_nm: the symbol list of a thin file

`handle_not_fat.c` with the helpers it calls (`get_nlist`, `init_one_nm`, `get_symbol_name`,
`add_list`). A `t_nm *` is the list of records it heads, so `NULL` is the empty list: the code
itself does not tell an empty symbol table from a failure. Lists that the code frees are dropped.
-/

namespace NmOtool.Nm

open MachO

/-- `t_nm`: a record of the symbol list; `add` and `name` point into the map. -/
structure TNm where
  is64 : Bool
  type : UInt8
  add : Nat
  name : Nat
  deriving DecidableEq, Repr

/-- `get_nlist`: the address of entry `i`; `sym` is the symtab command. -/
def getNlist (m : Buffer) (p i : Nat) (is64 : Bool) (sym : Nat) : Checked Nat := do
  let symoff ← m.field 4 (sym + 8)
  pure (p + symoff + i * nlistSize is64)

/-- `init_one_nm`; the name is filled in by the caller. -/
def initOneNm (m : Buffer) (ptr list : Nat) (shouldSwap is64 : Bool) : Checked (TNm × Buffer) := do
  let (type, m) ← getSymbolLetter m ptr list shouldSwap is64
  pure ({ is64, type, add := list + 8, name := 0 }, m)

/-- `get_symbol_name`: `n_strx` goes through an `int`, so the pointer may lie before the table. -/
def getSymbolName (m : Buffer) (stringtable list : Nat) : Checked Int := do
  let strx ← m.field 4 list
  pure (stringtable + int32 strx)

/-- `add_list`: append at the tail. -/
def addList : List TNm → TNm → List TNm
  | [], add => [add]
  | cp :: next, add => cp :: addList next add

/-- The loop of `listSymtab` from entry `i`. The counter stays below `nsyms < 2 ^ 32`, so
`2 ^ 32` rounds are enough. -/
def listSymtabFrom (sym ptr stringtable : Nat) (s x : Bool) :
    Nat → Nat → List TNm → Buffer → Checked (List TNm × Buffer)
  | 0, _, _, _ => .fault
  | fuel + 1, i, list, m => do
    let nsyms ← m.field 4 (sym + 12)
    if i < nsyms then
      if isSafe m stringtable then do
        let nlist ← getNlist m ptr i x sym
        if isSafe m nlist then do
          let m ← if s then swapNlist m nlist x else pure m
          let nlist ← getNlist m ptr i x sym
          let (add, m) ← initOneNm m ptr nlist s x
          let nlist ← getNlist m ptr i x sym
          let name ← getSymbolName m stringtable nlist
          if isSafe m name then
            listSymtabFrom sym ptr stringtable s x fuel (i + 1)
              (addList list { add with name := name.toNat }) m
          else
            pure ([], m)
        else
          pure ([], m)
      else
        pure ([], m)
    else
      pure (list, m)

def listSymtab (lc ptr : Nat) (s x : Bool) (m : Buffer) : Checked (List TNm × Buffer) :=
  if isSafe m (lc + symtabSize : Nat) then do
    let m ← if s then swapSymtab m lc else pure m
    let stroff ← m.field 4 (lc + 16)
    listSymtabFrom lc ptr (ptr + stroff) s x (2 ^ 32) 0 [] m
  else
    pure ([], m)

/-- The loop of `getNmList` at the command `lc`, with `n` commands left. -/
def getNmListFrom (ptr : Nat) (s is64 : Bool) : Nat → Nat → Buffer → Checked (List TNm × Buffer)
  | 0, _, m => pure ([], m)
  | n + 1, lc, m =>
    if isSafe m (lc + 8 : Nat) then do
      let m ← if s then swapLoadcommand m lc else pure m
      let cmd ← m.field 4 lc
      if cmd = LC_SYMTAB then listSymtab lc ptr s is64 m
      else do
        let cmdsize ← m.field 4 (lc + 4)
        getNmListFrom ptr s is64 n (lc + cmdsize) m
    else
      pure ([], m)

def getNmList (lcInfo : Lc) (ptr : Nat) (s is64 : Bool) (m : Buffer) :
    Checked (List TNm × Buffer) :=
  getNmListFrom ptr s is64 lcInfo.numberCmds (ptr + lcInfo.offsetCmds) m

def handleNotFat (m : Buffer) (is64 shouldSwap : Bool) (ptr : Nat) :
    Checked (List TNm × Buffer) :=
  if isSafe m ptr then do
    let (lcInfo, m) ← getLc m is64 shouldSwap ptr
    match lcInfo with
    | none => pure ([], m)
    | some lcInfo => getNmList lcInfo ptr shouldSwap is64 m
  else
    pure ([], m)

end NmOtool.Nm
