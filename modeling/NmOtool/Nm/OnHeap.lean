import NmOtool.Base.Heap
import NmOtool.Nm.SortNodes
import NmOtool.Nm.Dispatch
import NmOtool.Nm.Listing

/-!
# ft_nm: the symbol list on the heap

The functions of `ft_nm` that make, sort, print and free the list of `t_nm` nodes, with every
`malloc`, every `free` and every access to a node. Elsewhere a list is the list of its records; the
two levels agree on every file that `nm` reads without a fault, so the nodes are handled without
one too. What is left of the list when `nm` returns are the records that never got into it: the one
whose name is refused, for each image that has one.
-/

namespace NmOtool.Nm.OnHeap

open MachO Checked

/-! ## The source -/

/-- `init_one_nm`; the name is left as it is in memory, and no answer of `malloc` is refused. -/
def initOneNm (k : Allocator) (m : Buffer) (ptr list : Nat) (shouldSwap is64 : Bool)
    (h : Heap TNm) : Checked (Nat × Buffer × Heap TNm) :=
  match h.malloc k with
  | (none, _) => .fault
  | (some add, h) => do
    let h ← h.modify add fun t => { t with is64 }
    let (type, m) ← getSymbolLetter m ptr list shouldSwap is64
    let h ← h.modify add fun t => { t with type }
    let h ← h.modify add fun t => { t with add := list + 8 }
    let h ← h.setNext add none
    pure (add, m, h)

/-- `add_list`. -/
def addList (h : Heap TNm) (list add : Option Nat) : Checked (Option Nat × Heap TNm) :=
  match add with
  | none => pure (list, h)
  | some add => h.append list add

/-- `free_nm_list`. -/
def freeNmList (h : Heap TNm) (list : Option Nat) : Checked (Heap TNm) := h.freeList list

def freeListReturnNull (h : Heap TNm) (list : Option Nat) (m : Buffer) :
    Checked (Option Nat × Buffer × Heap TNm) := do
  let h ← freeNmList h list
  pure (none, m, h)

/-- The loop of `listSymtab` from entry `i`. The name goes into the node before it is checked; one
that lies before the map is refused, and stands as 0 in the node. -/
def listSymtabFrom (k : Allocator) (sym ptr stringtable : Nat) (s x : Bool) :
    Nat → Nat → Option Nat → Buffer → Heap TNm → Checked (Option Nat × Buffer × Heap TNm)
  | 0, _, _, _, _ => .fault
  | fuel + 1, i, list, m, h => do
    let nsyms ← m.field 4 (sym + 12)
    if i < nsyms then
      if isSafe m stringtable then do
        let nlist ← getNlist m ptr i x sym
        if isSafe m nlist then do
          let m ← if s then swapNlist m nlist x else pure m
          let nlist ← getNlist m ptr i x sym
          let (add, m, h) ← initOneNm k m ptr nlist s x h
          let nlist ← getNlist m ptr i x sym
          let name ← getSymbolName m stringtable nlist
          let h ← h.modify add fun t => { t with name := name.toNat }
          if isSafe m name then do
            let (list, h) ← addList h list (some add)
            listSymtabFrom k sym ptr stringtable s x fuel (i + 1) list m h
          else
            freeListReturnNull h list m
        else
          freeListReturnNull h list m
      else
        freeListReturnNull h list m
    else
      pure (list, m, h)

def listSymtab (k : Allocator) (lc ptr : Nat) (s x : Bool) (m : Buffer) (h : Heap TNm) :
    Checked (Option Nat × Buffer × Heap TNm) :=
  if isSafe m (lc + symtabSize : Nat) then do
    let m ← if s then swapSymtab m lc else pure m
    let stroff ← m.field 4 (lc + 16)
    listSymtabFrom k lc ptr (ptr + stroff) s x (2 ^ 32) 0 none m h
  else
    pure (none, m, h)

/-- The loop of `getNmList` at the command `lc`, with `n` commands left. -/
def getNmListFrom (k : Allocator) (ptr : Nat) (s is64 : Bool) :
    Nat → Nat → Buffer → Heap TNm → Checked (Option Nat × Buffer × Heap TNm)
  | 0, _, m, h => pure (none, m, h)
  | n + 1, lc, m, h =>
    if isSafe m (lc + 8 : Nat) then do
      let m ← if s then swapLoadcommand m lc else pure m
      let cmd ← m.field 4 lc
      if cmd = LC_SYMTAB then listSymtab k lc ptr s is64 m h
      else do
        let cmdsize ← m.field 4 (lc + 4)
        getNmListFrom k ptr s is64 n (lc + cmdsize) m h
    else
      pure (none, m, h)

def getNmList (k : Allocator) (lcInfo : Lc) (ptr : Nat) (s is64 : Bool) (m : Buffer)
    (h : Heap TNm) : Checked (Option Nat × Buffer × Heap TNm) :=
  getNmListFrom k ptr s is64 lcInfo.numberCmds (ptr + lcInfo.offsetCmds) m h

def handleNotFat (k : Allocator) (m : Buffer) (is64 shouldSwap : Bool) (ptr : Nat)
    (h : Heap TNm) : Checked (Option Nat × Buffer × Heap TNm) :=
  if isSafe m ptr then do
    let (lcInfo, m) ← getLc m is64 shouldSwap ptr
    match lcInfo with
    | none => pure (none, m, h)
    | some lcInfo => getNmList k lcInfo ptr shouldSwap is64 m h
  else
    pure (none, m, h)

def handleEachArch (k : Allocator) (m : Buffer) (array ptr : Nat) (fat : TFat) (h : Heap TNm) :
    Checked (Option Nat × Buffer × TFat × Heap TNm) :=
  if isSafe m array then do
    let arch ← isHostarch m array fat.shouldSwap
    if arch = 0 then pure (none, m, fat, h)
    else if fat.found64 ∧ arch = MY_CPU_I386 then pure (none, m, fat, h)
    else do
      let offset ← getOffsizeArch m array fat.shouldSwap fat.is64
      let magicNumber ← m.field 4 (ptr + offset)
      if notValidHeader magicNumber then pure (none, m, fat, h)
      else do
        let is64 := is64File magicNumber
        let shouldSwap := shouldSwapFile magicNumber
        let fat := if arch = MY_CPU_X86_64 then { fat with found64 := true } else fat
        let (list, m, h) ← handleNotFat k m is64 shouldSwap (ptr + offset) h
        pure (list, m, fat, h)
  else
    pure (none, m, fat, h)

/-- The loop of `handleFat` from entry `i`, with `n` entries left. -/
def handleFatFrom (k : Allocator) (ptr size : Nat) :
    Nat → Nat → TFat → Buffer → Heap TNm → Checked (Option Nat × Buffer × Heap TNm)
  | 0, _, _, m, h => pure (none, m, h)
  | n + 1, i, fat, m, h => do
    let (nmList, m, fat, h) ← handleEachArch k m (ptr + i * size + fatHeaderSize) ptr fat h
    if nmList ≠ none then pure (nmList, m, h)
    else handleFatFrom k ptr size n (i + 1) fat m h

def handleFat (k : Allocator) (m : Buffer) (is64 shouldSwap : Bool) (ptr : Nat) (h : Heap TNm) :
    Checked (Option Nat × Buffer × Heap TNm) :=
  if isSafe m (ptr + fatHeaderSize : Nat) then do
    let nb ← nfatArch m shouldSwap ptr
    let fat ← initTFat m is64 shouldSwap ptr
    handleFatFrom k ptr (fatArchSize is64) nb 0 fat m h
  else
    pure (none, m, h)

def handleNm (k : Allocator) (m : Buffer) (isFat is64 shouldSwap : Bool) (ptr : Nat)
    (h : Heap TNm) : Checked (Option Nat × Buffer × Heap TNm) :=
  if isFat then handleFat k m is64 shouldSwap ptr h else handleNotFat k m is64 shouldSwap ptr h

/-- `sort_list_by_name`; neither loop takes more steps than there are nodes. -/
def sortListByName (m : Buffer) (list : Option Nat) (flags : List UInt8) (h : Heap TNm) :
    Checked (Heap TNm) :=
  match list with
  | none => pure h
  | some cp =>
    Heap.sortFrom (Heap.onNodes fun nodes cp jump =>
      if ftStrchr flags 'r'.toUInt8 then OnNodes.compareExchangeReverse m nodes cp jump
      else OnNodes.compareExchange m nodes cp jump) h.live.card h.live.card cp h

def sortNmList (m : Buffer) (list : Option Nat) (flags : List UInt8) (h : Heap TNm) :
    Checked (Heap TNm) :=
  if ftStrchr flags 'p'.toUInt8 then pure h
  else if list ≠ none then sortListByName m list flags h
  else pure h

/-- The loop of `printNmList`. -/
def printRecordsFrom (m : Buffer) (flags : List UInt8) (h : Heap TNm) :
    Nat → Option Nat → Checked (List UInt8)
  | _, none => pure []
  | 0, some _ => .fault
  | fuel + 1, some list => do
    let n ← h.read list
    let line ← if canShowList n.payload.type flags then printOne m flags n.payload else pure []
    let rest ← printRecordsFrom m flags h fuel n.next
    pure (line ++ rest)

def printNmList (m : Buffer) (list : Option Nat) (name : List UInt8) (mu : Bool)
    (flags : List UInt8) (h : Heap TNm) : Checked Outcome :=
  if list = none then
    pure { ret := -1, out := [], err := name ++ ascii ": Is malformed file.\n" }
  else do
    let heading := if mu then ftPrintfS name ++ ascii ":\n" else []
    let lines ← printRecordsFrom m flags h h.live.card list
    pure { ret := 0, out := heading ++ lines, err := [] }

/-- `nm`; only the listing that succeeds is followed by `free_nm_list`. -/
def nm (k : Allocator) (m : Buffer) (name : List UInt8) (num : TNu) (flags : List UInt8)
    (h : Heap TNm) : Checked (Outcome × Heap TNm) :=
  if isSafe m (32 : Nat) then do
    let magicNumber ← m.field 4 0
    if notValidFile magicNumber then
      pure (putErrorWithReturn name ": is not an object file.\n", h)
    else do
      let isFat := isFatFile magicNumber
      let is64 := is64File magicNumber
      let shouldSwap := shouldSwapFile magicNumber
      let (nmList, m, h) ← handleNm k m isFat is64 shouldSwap 0 h
      let h ← sortNmList m nmList flags h
      let line := printNewLine num.multi num.first
      let res ← printNmList m nmList name num.multi flags h
      if res.ret < 0 then pure ({ res with out := line ++ res.out }, h)
      else do
        let h ← freeNmList h nmList
        pure ({ res with out := line ++ res.out }, h)
  else
    pure (putErrorWithReturn name ": is not an object file.\n", h)

/-! ## The list and its nodes -/

variable {k : Allocator} {m : Buffer} {h₀ h : Heap TNm} {list : Option Nat}
  {as loose : List Nat} {l : List TNm} {ptr sym stringtable p n : Nat} {s x : Bool}
  {flags name : List UInt8}

/-- On the heap `y` ends as `x` ends on lists: with the same image, the same records, and at most
`n` nodes that are in no list, one less if there are records. -/
def Follows (h₀ : Heap TNm) (n : Nat) (x : Checked (List TNm × Buffer))
    (y : Checked (Option Nat × Buffer × Heap TNm)) : Prop :=
  ∀ l m, x = .ok (l, m) → ∃ list as loose h, y = .ok (list, m, h) ∧
    h₀.Adds h list as loose ∧ h.nodes.payloads as = l ∧
    loose.length + (if l = [] then 0 else 1) ≤ n

theorem Follows.bind {α : Type} {z : Checked α} {f : α → Checked (List TNm × Buffer)}
    {g : α → Checked (Option Nat × Buffer × Heap TNm)}
    (hfg : ∀ a, z = .ok a → Follows h₀ n (f a) (g a)) : Follows h₀ n (z >>= f) (z >>= g) := by
  intro l m hx
  obtain ⟨a, ha, hf⟩ := bind_eq_ok.mp hx
  rw [ha, ok_bind]
  exact hfg a ha l m hf

theorem Follows.ite {c : Prop} [Decidable c] {x x' : Checked (List TNm × Buffer)}
    {y y' : Checked (Option Nat × Buffer × Heap TNm)} (ht : c → Follows h₀ n x y)
    (he : ¬ c → Follows h₀ n x' y') :
    Follows h₀ n (if c then x else x') (if c then y else y') := by
  split
  · next hc => exact ht hc
  · next hc => exact he hc

theorem Follows.none (ha : h₀.Adds h none [] loose) (hn : loose.length ≤ n) :
    Follows h₀ n (pure ([], m)) (pure (none, m, h)) := by
  intro l m' hx
  cases hx
  exact ⟨_, _, _, h, rfl, ha, rfl, hn⟩

theorem Adds.freeListReturnNull (ha : h₀.Adds h list as loose) (hn : loose.length ≤ n) :
    Follows h₀ n (pure ([], m)) (freeListReturnNull h list m) := by
  obtain ⟨h', hfree, ha'⟩ := ha.freeList
  rw [OnHeap.freeListReturnNull, freeNmList, hfree]
  exact Follows.none ha' hn

/-- The new node, outside the list until its name is checked. -/
theorem initOneNm_ok {nlist : Nat} {type : UInt8} {m' : Buffer} (hk : k.Answers)
    (ha : h₀.Adds h list as loose) (htype : getSymbolLetter m ptr nlist s x = .ok (type, m')) :
    ∃ add h', initOneNm k m ptr nlist s x h = .ok (add, m', h') ∧
      h₀.Adds h' list as (add :: loose) ∧ h'.nodes.payloads as = h.nodes.payloads as ∧
      (h'.nodes add).next = none ∧
      ∀ v, { (h'.nodes add).payload with name := v } = ⟨x, type, nlist + 8, v⟩ := by
  obtain ⟨add, h₁, hmalloc, ha₁, hsame₁⟩ := ha.malloc hk
  have hadd : add ∈ add :: loose := List.mem_cons_self
  obtain ⟨h₂, hset₂, ha₂, hsame₂, hnode₂⟩ := ha₁.modify (f := fun t => { t with is64 := x }) hadd
  obtain ⟨h₃, hset₃, ha₃, hsame₃, hnode₃⟩ := ha₂.modify (f := fun t => { t with type }) hadd
  obtain ⟨h₄, hset₄, ha₄, hsame₄, hnode₄⟩ :=
    ha₃.modify (f := fun t => { t with add := nlist + 8 }) hadd
  obtain ⟨h₅, hset₅, ha₅, hsame₅, hnode₅⟩ := ha₄.setNext none hadd
  refine ⟨add, h₅, ?_, ha₅, ?_, by rw [hnode₅], fun v => ?_⟩
  · rw [initOneNm, hmalloc]
    simp only
    rw [hset₂, ok_bind, htype, ok_bind]
    simp only
    rw [hset₃, ok_bind, hset₄, ok_bind, hset₅]
    rfl
  · rw [hsame₅, hsame₄, hsame₃, hsame₂, hsame₁]
  · rw [hnode₅, hnode₄, hnode₃, hnode₂]

/-- One round of the loop: the list grows by the record that the code without a heap adds, or it is
freed, and then the record that was refused stays behind. -/
theorem listSymtabFrom_follows (hk : k.Answers) : ∀ fuel i l (m : Buffer) (h : Heap TNm) list as,
    h₀.Adds h list as [] → h.nodes.payloads as = l →
    Follows h₀ 1 (Nm.listSymtabFrom sym ptr stringtable s x fuel i l m)
      (listSymtabFrom k sym ptr stringtable s x fuel i list m h) := by
  intro fuel
  induction fuel with
  | zero =>
    intro i l m h list as ha hl l' m' hx
    cases hx
  | succ fuel ih =>
    intro i l m h list as ha hl
    have hfreed : ∀ m, Follows h₀ 1 (pure ([], m)) (freeListReturnNull h list m) := fun m =>
      Adds.freeListReturnNull ha (Nat.zero_le 1)
    unfold Nm.listSymtabFrom listSymtabFrom
    refine .bind fun nsyms _ => .ite (fun _ => ?_) fun _ => ?_
    · refine .ite (fun _ => .bind fun nlist _ => ?_) fun _ => hfreed m
      refine .ite (fun _ => ?_) fun _ => hfreed m
      simp only [ite_bind]
      refine .bind fun m₁ _ => .bind fun nlist _ => ?_
      intro l' m' hx
      obtain ⟨⟨add, m₂⟩, hinit, hx⟩ := bind_eq_ok.mp hx
      obtain ⟨⟨type, m₂'⟩, htype, hinit⟩ := bind_eq_ok.mp hinit
      cases hinit
      obtain ⟨p, h₁, hrun, ha₁, hsame₁, hnext₁, hval₁⟩ := initOneNm_ok hk ha htype
      obtain ⟨nlist', hnlist, hx⟩ := bind_eq_ok.mp hx
      obtain ⟨name, hname, hx⟩ := bind_eq_ok.mp hx
      obtain ⟨h₂, hset, ha₂, hsame₂, hnode₂⟩ :=
        ha₁.modify (f := fun t => { t with name := name.toNat }) List.mem_cons_self
      rw [hval₁] at hnode₂
      rw [hrun, ok_bind]
      simp only
      rw [hnlist, ok_bind, hname, ok_bind, hset, ok_bind]
      split at hx
      · next hsafe =>
        rw [if_pos hsafe]
        obtain ⟨head, h₃, happend, ha₃, hpay⟩ := ha₂.append (by rw [hnode₂, hnext₁])
        rw [addList, happend, ok_bind]
        refine ih _ _ _ _ head _ ha₃ ?_ l' m' hx
        rw [hpay, hnode₂, hsame₂, hsame₁, hl]
        exact (addList_eq l _).symm
      · next hunsafe =>
        rw [if_neg hunsafe]
        exact Adds.freeListReturnNull ha₂ (Nat.le_refl 1) l' m' hx
    · intro l' m' hx
      cases hx
      refine ⟨_, _, _, h, rfl, ha, hl, ?_⟩
      split <;> simp

theorem listSymtab_follows (hk : k.Answers) {lc : Nat} :
    Follows h 1 (Nm.listSymtab lc ptr s x m) (listSymtab k lc ptr s x m h) := by
  unfold Nm.listSymtab listSymtab
  refine .ite (fun _ => ?_) fun _ => .none .refl (Nat.zero_le 1)
  simp only [ite_bind]
  exact .bind fun m _ => .bind fun stroff _ => listSymtabFrom_follows hk _ _ _ _ _ _ _ .refl rfl

theorem getNmListFrom_follows (hk : k.Answers) : ∀ n lc (m : Buffer),
    Follows h 1 (Nm.getNmListFrom ptr s x n lc m) (getNmListFrom k ptr s x n lc m h) := by
  intro n
  induction n with
  | zero => exact fun lc m => .none .refl (Nat.zero_le 1)
  | succ n ih =>
    intro lc m
    unfold Nm.getNmListFrom getNmListFrom
    refine .ite (fun _ => ?_) fun _ => .none .refl (Nat.zero_le 1)
    simp only [ite_bind]
    refine .bind fun m _ => .bind fun cmd _ => .ite (fun _ => listSymtab_follows hk) fun _ => ?_
    exact .bind fun cmdsize _ => ih (lc + cmdsize) m

/-- The list of a thin image; at most one record stays behind, and none if there is a list. -/
theorem handleNotFat_follows (hk : k.Answers) :
    Follows h 1 (Nm.handleNotFat m x s ptr) (handleNotFat k m x s ptr h) := by
  unfold Nm.handleNotFat handleNotFat
  refine .ite (fun _ => .bind fun r _ => ?_) fun _ => .none .refl (Nat.zero_le 1)
  obtain ⟨lcInfo, m⟩ := r
  cases lcInfo with
  | none => exact .none .refl (Nat.zero_le 1)
  | some lcInfo => exact getNmListFrom_follows hk _ _ m

/-! ## Fat files -/

/-- An entry of a fat file; its slice is parsed from the heap that the entries before it leave. -/
theorem handleEachArch_follows (hk : k.Answers) {array : Nat} {fat fat' : TFat} {l : List TNm}
    {m' : Buffer} (hx : Nm.handleEachArch m array ptr fat = .ok (l, m', fat')) :
    ∃ list as loose h', handleEachArch k m array ptr fat h = .ok (list, m', fat', h') ∧
      h.Adds h' list as loose ∧ h'.nodes.payloads as = l ∧
      loose.length + (if l = [] then 0 else 1) ≤ 1 := by
  unfold Nm.handleEachArch handleEachArchWith at hx
  unfold handleEachArch
  split at hx
  · next hsafe =>
    rw [if_pos hsafe]
    obtain ⟨arch, harch, hx⟩ := bind_eq_ok.mp hx
    rw [harch, ok_bind]
    split at hx
    · next h0 =>
      cases hx
      rw [if_pos h0]
      exact ⟨none, [], [], h, rfl, .refl, rfl, Nat.zero_le 1⟩
    · next h0 =>
      rw [if_neg h0]
      split at hx
      · next h386 =>
        cases hx
        rw [if_pos h386]
        exact ⟨none, [], [], h, rfl, .refl, rfl, Nat.zero_le 1⟩
      · next h386 =>
        rw [if_neg h386]
        obtain ⟨offset, hoffset, hx⟩ := bind_eq_ok.mp hx
        obtain ⟨magic, hmagic, hx⟩ := bind_eq_ok.mp hx
        rw [hoffset, ok_bind, hmagic, ok_bind]
        split at hx
        · next hvalid =>
          cases hx
          rw [if_pos hvalid]
          exact ⟨none, [], [], h, rfl, .refl, rfl, Nat.zero_le 1⟩
        · next hvalid =>
          rw [if_neg hvalid]
          obtain ⟨⟨l₁, m₁⟩, hparse, hx⟩ := bind_eq_ok.mp hx
          cases hx
          obtain ⟨list, as, loose, h', hrun, ha, hl, hn⟩ :=
            handleNotFat_follows (h := h) hk l m' hparse
          exact ⟨list, as, loose, h', by simp only [hrun]; rfl, ha, hl, hn⟩
  · next hsafe =>
    cases hx
    rw [if_neg hsafe]
    exact ⟨none, [], [], h, rfl, .refl, rfl, Nat.zero_le 1⟩

/-- Each entry that is passed over leaves at most one record behind. -/
theorem handleFatFrom_follows (hk : k.Answers) (ptr size : Nat) : ∀ n i fat (m : Buffer) (h : Heap TNm)
    loose, h₀.Adds h none [] loose →
    Follows h₀ (loose.length + n) (Nm.handleFatFrom Nm.handleNotFat ptr size n i fat m)
      (handleFatFrom k ptr size n i fat m h) := by
  intro n
  induction n with
  | zero => exact fun i fat m h loose ha => .none ha (Nat.le_refl _)
  | succ n ih =>
    intro i fat m h loose ha l m' hx
    unfold Nm.handleFatFrom at hx
    unfold handleFatFrom
    obtain ⟨⟨l₁, m₁, fat₁⟩, heach, hx⟩ := bind_eq_ok.mp hx
    obtain ⟨list, as, loose₁, h₁, hrun, ha₁, hl, hn⟩ := handleEachArch_follows (h := h) hk heach
    have htrans := ha.trans ha₁
    rw [hrun, ok_bind]
    have hempty : list = none ↔ as = [] := by
      have hlist := ha₁.isList
      cases as with
      | nil => exact iff_of_true hlist rfl
      | cons a as => exact iff_of_false (by rw [hlist.1]; simp) (by simp)
    have has : as = [] ↔ l₁ = [] := by
      rw [← hl, Nodes.payloads, List.map_eq_nil_iff]
    simp only at hx ⊢
    by_cases hnil : l₁ = []
    · subst hnil
      obtain rfl := has.mpr rfl
      obtain rfl := hempty.mpr rfl
      rw [if_neg (by simp)] at hx ⊢
      obtain ⟨list, as, loose₂, h₂, hrun₂, ha₂, hl₂, hn₂⟩ := ih _ _ _ _ _ htrans l m' hx
      refine ⟨list, as, loose₂, h₂, hrun₂, ha₂, hl₂, ?_⟩
      rw [List.length_append] at hn₂
      simp only [if_true] at hn
      omega
    · rw [if_pos hnil] at hx
      cases hx
      rw [if_pos (by rwa [ne_eq, hempty, has])]
      refine ⟨list, as, loose₁ ++ loose, h₁, rfl, htrans, hl, ?_⟩
      rw [if_neg hnil] at hn ⊢
      rw [List.length_append]
      omega

/-- The images of a file that are parsed at most. -/
def imagesOf (m : Buffer) : Nat :=
  if isFatFile (m.le 4 0) then nfatArchs m (shouldSwapFile (m.le 4 0)) else 1

theorem handleNm_follows (hk : k.Answers) (h8 : 8 ≤ m.size) :
    Follows h (imagesOf m) (Nm.handleNm m (isFatFile (m.le 4 0)) x (shouldSwapFile (m.le 4 0)) 0)
      (handleNm k m (isFatFile (m.le 4 0)) x (shouldSwapFile (m.le 4 0)) 0 h) := by
  unfold Nm.handleNm handleNm imagesOf
  cases isFatFile (m.le 4 0) with
  | false =>
    simp only [Bool.false_eq_true, if_false]
    exact handleNotFat_follows hk
  | true =>
    simp only [if_true]
    unfold Nm.handleFat Nm.handleFatWith handleFat
    refine .ite (fun _ => ?_) fun _ => .none .refl (Nat.zero_le _)
    rw [nfatArch_ok h8, ok_bind, ok_bind]
    refine .bind fun fat _ => ?_
    have hrun := handleFatFrom_follows hk 0 (fatArchSize x)
      (nfatArchs m (shouldSwapFile (m.le 4 0))) 0 fat m h [] .refl
    rwa [List.length_nil, Nat.zero_add] at hrun

/-! ## Sorting and printing -/

theorem keepsLinks_exchange : Heap.KeepsLinks fun nodes cp jump =>
    if ftStrchr flags 'r'.toUInt8 then OnNodes.compareExchangeReverse m nodes cp jump
    else OnNodes.compareExchange m nodes cp jump := by
  have hfields : ∀ (nodes : Nodes TNm) p q r,
      (OnNodes.exchangeFields nodes p q r).next = (nodes r).next := by
    intro nodes p q r
    simp only [OnNodes.exchangeFields, OnNodes.setIs64, OnNodes.setType, OnNodes.setAdd,
      OnNodes.setName, Nodes.next_setPayload]
  intro nodes p q nodes' hrun r
  simp only at hrun
  split at hrun
  · obtain ⟨c, -, hrun⟩ := bind_eq_ok.mp hrun
    split at hrun
    · cases hrun
      exact hfields nodes p q r
    · split at hrun
      · obtain ⟨d, -, hrun⟩ := bind_eq_ok.mp hrun
        split at hrun <;> cases hrun
        · exact hfields nodes p q r
        · rfl
      · cases hrun
        rfl
  · obtain ⟨c, -, hrun⟩ := bind_eq_ok.mp hrun
    split at hrun
    · cases hrun
      exact hfields nodes p q r
    · split at hrun
      · obtain ⟨d, -, hrun⟩ := bind_eq_ok.mp hrun
        split at hrun <;> cases hrun
        · exact hfields nodes p q r
        · rfl
      · cases hrun
        rfl

theorem sortNmList_ok {sorted : List TNm} (ha : h₀.Adds h list as loose)
    (hsort : Nm.sortNmList m (h.nodes.payloads as) flags = .ok sorted) :
    ∃ h', sortNmList m list flags h = .ok h' ∧ h₀.Adds h' list as loose ∧
      h'.nodes.payloads as = sorted := by
  unfold Nm.sortNmList at hsort
  unfold sortNmList
  split at hsort
  · next hp =>
    cases hsort
    exact ⟨h, if_pos hp, ha, rfl⟩
  · next hp =>
    rw [if_neg hp]
    have hlist := ha.isList
    cases as with
    | nil =>
      obtain rfl : list = none := hlist
      cases hsort
      exact ⟨h, rfl, ha, rfl⟩
    | cons cp as =>
      obtain ⟨rfl, -⟩ := id hlist
      rw [if_pos (by simp [Nodes.payloads])] at hsort
      obtain ⟨nodes, hrun, hrw⟩ :=
        OnNodes.sortListByName_refines hlist ha.length_le hsort
      refine ⟨{ h with nodes }, ?_, ha.rewrites hrw, hrw.payloads⟩
      rw [if_pos (by simp), sortListByName,
        Heap.sortFrom_onNodes keepsLinks_exchange hlist fun a => ha.live_list]
      simp only [OnNodes.sortListByName] at hrun
      rw [Heap.withNodes, hrun]
      rfl

theorem printRecordsFrom_eq {fuel : Nat} (hl : h.nodes.IsList list as)
    (hlive : ∀ a ∈ as, a ∈ h.live) (hfuel : as.length ≤ fuel) :
    printRecordsFrom m flags h fuel list = printRecords m flags (h.nodes.payloads as) := by
  induction as generalizing list fuel with
  | nil =>
    obtain rfl : list = none := hl
    cases fuel <;> rfl
  | cons a as ih =>
    obtain ⟨rfl, hl⟩ := hl
    obtain _ | fuel := fuel
    · exact absurd hfuel (by simp)
    rw [printRecordsFrom, Heap.read_ok (hlive a List.mem_cons_self), ok_bind,
      ih hl (fun b hb => hlive b (List.mem_cons_of_mem a hb)) (Nat.le_of_succ_le_succ hfuel)]
    rfl

theorem printNmList_eq {mu : Bool} (ha : h₀.Adds h list as loose) :
    printNmList m list name mu flags h = Nm.printNmList m (h.nodes.payloads as) name mu flags := by
  unfold printNmList Nm.printNmList
  have hlist := ha.isList
  cases as with
  | nil =>
    obtain rfl : list = none := hlist
    rfl
  | cons a as =>
    obtain ⟨rfl, -⟩ := id hlist
    have hne : h.nodes.payloads (a :: as) ≠ [] := by simp [Nodes.payloads]
    rw [if_neg (Option.some_ne_none a), if_neg hne,
      printRecordsFrom_eq hlist (fun a => ha.live_list) ha.length_le]

/-! ## One file -/

theorem ret_putErrorWithReturn {e : String} : (putErrorWithReturn name e).ret ≠ 0 :=
  show ¬ (-1 : Int) = 0 by decide

/-- What `nm` does with a list: the nodes of the list are freed when it is printed. When there is
none the pointer is null, and there is nothing to free. -/
theorem nm_of_handleNm {num : TNu} {o : Outcome} {m₁ : Buffer} {h₁ : Heap TNm}
    (h32 : isSafe m (32 : Nat)) (hvalid : notValidFile (m.le 4 0) = false)
    (hnodes : handleNm k m (isFatFile (m.le 4 0)) (is64File (m.le 4 0))
      (shouldSwapFile (m.le 4 0)) 0 h = .ok (list, m₁, h₁)) (ha : h.Adds h₁ list as loose)
    (hlist : Nm.handleNm m (isFatFile (m.le 4 0)) (is64File (m.le 4 0))
      (shouldSwapFile (m.le 4 0)) 0 = .ok (h₁.nodes.payloads as, m₁))
    (hrun : Nm.nm m name num flags = .ok o) :
    ∃ h', nm k m name num flags h = .ok (o, h') ∧ h.Adds h' none [] loose ∧
      (o.ret = 0 ↔ h₁.nodes.payloads as ≠ []) := by
  have hsize := mapSize_le m
  have hsafe := (isSafe_natCast m 32).mp h32
  unfold Nm.nm at hrun
  unfold nm
  rw [if_pos h32, Buffer.field_ok (by omega), ok_bind, hvalid] at hrun ⊢
  simp only [Bool.false_eq_true, if_false] at hrun ⊢
  rw [hlist, ok_bind] at hrun
  rw [hnodes, ok_bind]
  obtain ⟨sorted, hsort, hrun⟩ := bind_eq_ok.mp hrun
  obtain ⟨res, hprint, hrun⟩ := bind_eq_ok.mp hrun
  cases hrun
  obtain ⟨h₂, hsorted, ha₂, rfl⟩ := sortNmList_ok ha hsort
  simp only
  rw [hsorted, ok_bind, printNmList_eq ha₂, hprint, ok_bind]
  have hnil : h₁.nodes.payloads as = [] ↔ h₂.nodes.payloads as = [] := by
    rw [Nodes.payloads, Nodes.payloads, List.map_eq_nil_iff, List.map_eq_nil_iff]
  unfold Nm.printNmList at hprint
  split at hprint
  · next he =>
    cases hprint
    have has : as = [] := List.map_eq_nil_iff.mp he
    subst has
    obtain rfl : list = none := ha₂.isList
    rw [if_pos (show (-1 : Int) < 0 by decide)]
    exact ⟨h₂, rfl, ha₂, iff_of_false (show ¬ (-1 : Int) = 0 by decide) fun hne => hne (hnil.mpr he)⟩
  · next hne =>
    obtain ⟨lines, -, hprint⟩ := bind_eq_ok.mp hprint
    cases hprint
    obtain ⟨h₃, hfree, ha₃⟩ := ha₂.freeList
    refine ⟨h₃, ?_, ha₃, iff_of_true rfl fun he => hne (hnil.mp he)⟩
    simp only
    rw [if_neg (Int.lt_irrefl 0), freeNmList, hfree]
    rfl

/-- A file that is turned away at once leaves the heap alone. -/
theorem nm_refused {num : TNu} {o : Outcome}
    (hno : ¬ isSafe m (32 : Nat) ∨ notValidFile (m.le 4 0) = true)
    (hrun : Nm.nm m name num flags = .ok o) : nm k m name num flags h = .ok (o, h) ∧ o.ret ≠ 0 := by
  unfold Nm.nm at hrun
  unfold nm
  by_cases h32 : isSafe m (32 : Nat)
  · have hsize := mapSize_le m
    have hsafe := (isSafe_natCast m 32).mp h32
    have hvalid := hno.resolve_left (not_not.mpr h32)
    rw [if_pos h32, Buffer.field_ok (by omega), ok_bind, if_pos hvalid] at hrun ⊢
    cases hrun
    exact ⟨rfl, ret_putErrorWithReturn⟩
  · rw [if_neg h32] at hrun ⊢
    cases hrun
    exact ⟨rfl, ret_putErrorWithReturn⟩

/-- On the heap `nm` returns and writes what it does on lists, wherever that has no fault: it
reads no node that is freed, and frees none twice. When it returns, the heap is as it was but for
some new nodes: no more than the file has images, and one fewer if the file is listed. -/
theorem nm_onHeap (hk : k.Answers) {num : TNu} {o : Outcome} (h : Heap TNm)
    (hrun : Nm.nm m name num flags = .ok o) :
    ∃ h' loose, nm k m name num flags h = .ok (o, h') ∧ h.Adds h' none [] loose ∧
      loose.length + (if o.ret = 0 then 1 else 0) ≤ imagesOf m := by
  by_cases hgo : isSafe m (32 : Nat) ∧ notValidFile (m.le 4 0) = false
  · obtain ⟨h32, hvalid⟩ := hgo
    have hsize := mapSize_le m
    have hsafe := (isSafe_natCast m 32).mp h32
    obtain ⟨⟨l, m₁⟩, hlist⟩ : ∃ r, Nm.handleNm m (isFatFile (m.le 4 0)) (is64File (m.le 4 0))
        (shouldSwapFile (m.le 4 0)) 0 = .ok r := by
      unfold Nm.nm at hrun
      rw [if_pos h32, Buffer.field_ok (by omega), ok_bind, hvalid] at hrun
      obtain ⟨r, hr, -⟩ := bind_eq_ok.mp hrun
      exact ⟨r, hr⟩
    obtain ⟨list, as, loose, h₁, hnodes, ha, rfl, hn⟩ :=
      handleNm_follows (h := h) hk (by omega) l m₁ hlist
    obtain ⟨h', hnm, ha', hret⟩ := nm_of_handleNm h32 hvalid hnodes ha hlist hrun
    refine ⟨h', loose, hnm, ha', ?_⟩
    by_cases hnil : h₁.nodes.payloads as = []
    · rw [if_pos hnil] at hn
      rwa [if_neg fun e => hret.mp e hnil]
    · rw [if_neg hnil] at hn
      rwa [if_pos (hret.mpr hnil)]
  · have hno : ¬ isSafe m (32 : Nat) ∨ notValidFile (m.le 4 0) = true := by
      rw [← Bool.not_eq_false, ← not_and_or]
      exact hgo
    obtain ⟨hnm, hret⟩ := nm_refused (k := k) (h := h) hno hrun
    exact ⟨h, [], hnm, .refl, by rw [if_neg hret]; exact Nat.zero_le _⟩

/-- A file that is listed leaves an empty heap empty. -/
theorem nm_onHeap_smallFile : ∃ o h', o.ret = 0 ∧
    nm .lowest ((smallFile true).image .little true) (ascii "a") ⟨false, true⟩ []
      (.empty ⟨⟨false, 0, 0, 0⟩, none⟩) = .ok (o, h') ∧ h'.live = ∅ := by
  have hwf := (smallFile_wf true).wellFormed (smallFile_encodes .little true)
  obtain ⟨o, hrun, hret⟩ : ∃ o, Nm.nm ((smallFile true).image .little true) (ascii "a")
      ⟨false, true⟩ [] = .ok o ∧ o.ret = 0 :=
    ⟨_, nm_listed hwf (listed_of_lt hwf (by decide +kernel)) (by decide +kernel), rfl⟩
  obtain ⟨h', loose, hnm, hadds, hlen⟩ :=
    nm_onHeap Allocator.lowest_answers (.empty ⟨⟨false, 0, 0, 0⟩, none⟩) hrun
  have himages : imagesOf ((smallFile true).image .little true) = 1 := by decide +kernel
  rw [if_pos hret, himages] at hlen
  obtain rfl : loose = [] := List.length_eq_zero_iff.mp (by omega)
  exact ⟨o, h', hret, hnm, hadds.live_eq⟩

end NmOtool.Nm.OnHeap
