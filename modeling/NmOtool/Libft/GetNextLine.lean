import Mathlib.Algebra.Group.Nat.Defs
import Mathlib.Data.List.Nodup
import Mathlib.Data.List.TakeWhile
import Mathlib.Logic.Function.Basic
import NmOtool.Base.Checked
import NmOtool.Base.Segments
import NmOtool.MachO.Layout

/-!
# libft: get_next_line

One static list keeps what was read of each descriptor and not yet returned. A call looks for the
node of its descriptor from the head of the list on, reads until a chunk has a newline, and returns a
line, or 0 with the list left at the node it found. A fault is an overflow of an `int` index or a
`free` of a string literal.
-/

namespace NmOtool

open MachO Checked

/-! ## The environment -/

/-- `BUFF_SIZE` -/
def buffSize : Nat := 15

/-- What one `read` gives before the end of a file. -/
structure Chunk where
  bytes : List UInt8
  ne_nil : bytes ≠ []
  le : bytes.length ≤ buffSize
  ne_zero : ∀ b ∈ bytes, b ≠ 0

/-- The bytes that are still to be read. -/
def unread (chunks : List Chunk) : List UInt8 := chunks.flatMap Chunk.bytes

/-! ## The code -/

def newline : UInt8 := '\n'.toUInt8

/-- `t_stocklist`; `literal` says that `stock` points to the `""` of the program text. -/
structure Stocklist where
  fd : Int
  stock : List UInt8
  literal : Bool

/-- The static list, and the chunks that `read` has for each descriptor. -/
structure Gnl where
  list : List Stocklist
  chunks : Int → List Chunk

/-- What a call returns, and the line that it stores. -/
structure Answer where
  ret : Int
  line : Option (List UInt8)
  deriving DecidableEq

/-- `ft_strcdup`, which allocates `i + 1` bytes for an `int` index. -/
def ftStrcdup (s : List UInt8) (c : UInt8) : Checked (List UInt8) :=
  let copy := s.takeWhile (· != c)
  if copy.length + 1 < 2 ^ 31 then .ok copy else .fault

/-- `ft_strdup`, whose index is an `int`. -/
def ftStrdup (s : List UInt8) : Checked (List UInt8) :=
  if s.length < 2 ^ 31 then .ok s else .fault

/-- `ft_strjoin`; the index of `ft_strcpy` in it is an `int`. -/
def ftStrjoin (s1 s2 : List UInt8) : Checked (List UInt8) :=
  if s1.length < 2 ^ 31 then .ok (s1 ++ s2) else .fault

/-- `free(temp)`, for the `stock` of a node. -/
def freeStock (node : Stocklist) : Checked Unit := if node.literal then .fault else .ok ()

/-- The search of `find`: the nodes in front of the one of `fd`, this node, and those behind it. A
node is added at the end if there is none. -/
def findNode : List Stocklist → Int → List Stocklist × Stocklist × List Stocklist
  | [], fd => ([], { fd, stock := [], literal := false }, [])
  | node :: list, fd =>
    if fd = node.fd then ([], node, list)
    else
      let (before, found, after) := findNode list fd
      (node :: before, found, after)

/-- The loop over `read` in `find`. -/
def readStock : List Chunk → Stocklist → Checked (Stocklist × List Chunk)
  | [], node => .ok (node, [])
  | buff :: chunks, node => do
    let stock ← ftStrjoin node.stock buff.bytes
    freeStock node
    let node := { node with stock, literal := false }
    if newline ∈ buff.bytes then .ok (node, chunks) else readStock chunks node

/-- `opened fd` says that `read(fd, "", 0)` returns 0. -/
def getNextLine (opened : Int → Bool) (fd : Int) (s : Gnl) : Checked (Answer × Gnl) :=
  if fd < 0 ∨ buffSize < 1 ∨ !opened fd then .ok (⟨-1, none⟩, s)
  else do
    let (before, node, after) := findNode s.list fd
    let (node, rest) ← readStock (s.chunks fd) node
    let chunks := Function.update s.chunks fd rest
    if node.stock = [] then
      -- the list stays at the node: those in front of it are lost
      pure (⟨0, none⟩, { list := node :: after, chunks })
    else if newline ∈ node.stock then
      let line ← ftStrcdup node.stock newline
      let stock ← ftStrdup ((node.stock.dropWhile (· != newline)).drop 1)
      freeStock node
      let list := before ++ { node with stock, literal := false } :: after
      pure (⟨1, some line⟩, { list, chunks })
    else
      let line ← ftStrdup node.stock
      pure (⟨1, some line⟩,
        { list := before ++ { node with stock := [], literal := true } :: after, chunks })

/-- The answers to calls in this order. -/
def getNextLines (opened : Int → Bool) : List Int → Gnl → Checked (List Answer × Gnl)
  | [], s => .ok ([], s)
  | fd :: calls, s => do
    let (answer, s) ← getNextLine opened fd s
    let (answers, s) ← getNextLines opened calls s
    pure (answer :: answers, s)

/-! ## What is pending -/

/-- The bytes kept for a descriptor. -/
def stockOf : List Stocklist → Int → List UInt8
  | [], _ => []
  | node :: list, fd => if fd = node.fd then node.stock else stockOf list fd

/-- The bytes of a descriptor that no call has returned. -/
def Gnl.pending (s : Gnl) (fd : Int) : List UInt8 := stockOf s.list fd ++ unread (s.chunks fd)

/-- One node for a descriptor, and a literal only where nothing is left. -/
structure Gnl.Inv (s : Gnl) : Prop where
  nodup : (s.list.map Stocklist.fd).Nodup
  literal : ∀ node ∈ s.list, node.literal = true → node.stock = [] ∧ s.chunks node.fd = []

/-- The chunks up to the first one with a newline. -/
def nextChunks : List Chunk → List Chunk
  | [] => []
  | buff :: chunks => if newline ∈ buff.bytes then [buff] else buff :: nextChunks chunks

/-- A call that returns 0 has nothing in front of its node that it could lose, and an `int` counts
the saved bytes with those that the call reads. -/
structure Gnl.Harmless (s : Gnl) (fd : Int) : Prop where
  front : s.pending fd = [] → ∀ node ∈ (findNode s.list fd).1, node.stock = []
  short : (stockOf s.list fd ++ unread (nextChunks (s.chunks fd))).length + 1 < 2 ^ 31

def lines (s : List UInt8) : List (List UInt8) := linesOf (· == newline) s

/-- The answer for a line, or for the end. -/
def answerOf : Option (List UInt8) → Answer
  | some line => ⟨1, some line⟩
  | none => ⟨0, none⟩

variable {opened : Int → Bool} {s s' : Gnl} {fd fd' : Int} {node node' : Stocklist}
  {list before after : List Stocklist} {chunks rest : List Chunk}

/-! ## The list -/

theorem stockOf_skip (h : fd' ≠ node.fd) :
    stockOf (before ++ node :: after) fd' = stockOf (before ++ after) fd' := by
  induction before with
  | nil => exact if_neg h
  | cons n before ih => rw [List.cons_append, List.cons_append, stockOf, stockOf, ih]

theorem stockOf_at (h : ∀ n ∈ before, node.fd ≠ n.fd) :
    stockOf (before ++ node :: after) node.fd = node.stock := by
  induction before with
  | nil => exact if_pos rfl
  | cons n before ih =>
    rw [List.cons_append, stockOf, if_neg (h n List.mem_cons_self),
      ih fun n hn => h n (List.mem_cons_of_mem _ hn)]

theorem stockOf_none (h : ∀ n ∈ list, fd ≠ n.fd) : stockOf list fd = [] := by
  induction list with
  | nil => rfl
  | cons n list ih =>
    rw [stockOf, if_neg (h n List.mem_cons_self), ih fun n hn => h n (List.mem_cons_of_mem _ hn)]

/-- Nodes without bytes can be dropped. -/
theorem stockOf_drop (hn : ((before ++ after).map Stocklist.fd).Nodup)
    (h : ∀ n ∈ before, n.stock = []) : stockOf (before ++ after) fd = stockOf after fd := by
  induction before with
  | nil => rfl
  | cons n before ih =>
    rw [List.cons_append, List.map_cons, List.nodup_cons] at hn
    rw [List.cons_append, stockOf]
    split
    · next hfd =>
      rw [h n List.mem_cons_self, hfd, stockOf_none]
      intro m hm hfd'
      exact hn.1 (hfd' ▸ List.mem_map_of_mem (List.mem_append_right _ hm))
    · exact ih hn.2 fun n hn => h n (List.mem_cons_of_mem _ hn)

/-- `find` finds `node` in the list, or adds it. -/
structure Found (list : List Stocklist) (fd : Int) (before : List Stocklist) (node : Stocklist)
    (after : List Stocklist) : Prop where
  find : findNode list fd = (before, node, after)
  node_fd : node.fd = fd
  before_ne : ∀ n ∈ before, fd ≠ n.fd
  list_eq : list = before ++ node :: after ∨
    list = before ∧ after = [] ∧ node = { fd, stock := [], literal := false }

theorem exists_found (list : List Stocklist) (fd : Int) :
    ∃ before node after, Found list fd before node after := by
  induction list with
  | nil => exact ⟨[], _, [], rfl, rfl, fun n hn => absurd hn List.not_mem_nil, .inr ⟨rfl, rfl, rfl⟩⟩
  | cons n list ih =>
    by_cases hfd : fd = n.fd
    · exact ⟨[], n, list, if_pos hfd, hfd.symm, fun m hm => absurd hm List.not_mem_nil, .inl rfl⟩
    · obtain ⟨before, node, after, h⟩ := ih
      refine ⟨n :: before, node, after, ?_, h.node_fd,
        List.forall_mem_cons.mpr ⟨hfd, h.before_ne⟩, ?_⟩
      · rw [findNode, if_neg hfd, h.find]
      · rcases h.list_eq with rfl | ⟨rfl, rfl, rfl⟩
        · exact .inl rfl
        · exact .inr ⟨rfl, rfl, rfl⟩

namespace Found

variable (h : Found list fd before node after)
include h

theorem stock : stockOf list fd = node.stock := by
  have hbefore := h.before_ne
  rw [← h.node_fd] at hbefore
  rcases h.list_eq with rfl | ⟨rfl, rfl, rfl⟩
  · rw [← h.node_fd, stockOf_at hbefore]
  · exact stockOf_none h.before_ne

theorem other (hne : fd' ≠ fd) : stockOf list fd' = stockOf (before ++ after) fd' := by
  rcases h.list_eq with rfl | ⟨rfl, rfl, -⟩
  · rw [stockOf_skip (h.node_fd ▸ hne)]
  · rw [List.append_nil]

theorem nodup (hn : (list.map Stocklist.fd).Nodup) (hfd : node'.fd = fd) :
    ((before ++ node' :: after).map Stocklist.fd).Nodup := by
  rcases h.list_eq with rfl | ⟨rfl, rfl, -⟩
  · simpa only [List.map_append, List.map_cons, hfd, ← h.node_fd] using hn
  · rw [List.map_append, List.nodup_append]
    refine ⟨hn, List.nodup_singleton _, ?_⟩
    intro a ha b hb hab
    obtain ⟨n, hmem, rfl⟩ := List.mem_map.mp ha
    rw [List.map_singleton, List.mem_singleton, hfd] at hb
    exact h.before_ne n hmem (hb ▸ hab.symm)

theorem after_ne (hn : (list.map Stocklist.fd).Nodup) : ∀ n ∈ after, fd ≠ n.fd := by
  intro n hmem hfd
  have hnodup := h.nodup hn h.node_fd
  rw [List.map_append, List.map_cons] at hnodup
  have hnot := (List.nodup_cons.mp (List.nodup_append.mp hnodup).2.1).1
  rw [h.node_fd, hfd] at hnot
  exact hnot (List.mem_map_of_mem hmem)

theorem mem {n : Stocklist} (hn : n ∈ before ++ after) : n ∈ list := by
  rcases h.list_eq with rfl | ⟨rfl, rfl, -⟩
  · rcases List.mem_append.mp hn with hn | hn
    · exact List.mem_append_left _ hn
    · exact List.mem_append_right _ (List.mem_cons_of_mem _ hn)
  · rwa [List.append_nil] at hn

theorem literal_mem (hl : node.literal = true) : node ∈ list := by
  rcases h.list_eq with rfl | ⟨-, -, rfl⟩
  · exact List.mem_append_right _ List.mem_cons_self
  · cases hl

end Found

/-! ## Reading -/

theorem unread_cons (buff : Chunk) : unread (buff :: chunks) = buff.bytes ++ unread chunks := rfl

/-- The loop moves bytes from the file to the stock, until there is a newline or the file ends. -/
theorem readStock_eq (hl : node.literal = true → chunks = [])
    (hs : (node.stock ++ unread (nextChunks chunks)).length < 2 ^ 31) :
    ∃ node' rest, readStock chunks node = .ok (node', rest) ∧ node'.fd = node.fd ∧
      node'.stock = node.stock ++ unread (nextChunks chunks) ∧
      unread (nextChunks chunks) ++ unread rest = unread chunks ∧
      (newline ∈ node'.stock ∨ rest = []) ∧
      (node'.literal = true → node' = node ∧ rest = chunks) := by
  induction chunks generalizing node with
  | nil => exact ⟨node, [], rfl, rfl, (List.append_nil _).symm, rfl, .inr rfl, fun _ => ⟨rfl, rfl⟩⟩
  | cons buff chunks ih =>
    have hliteral : node.literal = false := by
      cases h : node.literal
      · rfl
      · cases hl h
    have hlt : node.stock.length < 2 ^ 31 := by
      rw [List.length_append] at hs
      omega
    rw [readStock, ftStrjoin, if_pos hlt, ok_bind, freeStock, hliteral, if_neg (by decide), ok_bind]
    simp only
    rw [nextChunks] at hs ⊢
    split
    · next hnl =>
      have hone : unread [buff] = buff.bytes := List.append_nil _
      rw [hone]
      exact ⟨_, chunks, rfl, rfl, rfl, rfl, .inl (List.mem_append_right _ hnl), fun h => by cases h⟩
    · next hnl =>
      rw [if_neg hnl, unread_cons, ← List.append_assoc] at hs
      rw [unread_cons, unread_cons, ← List.append_assoc]
      obtain ⟨node', rest, hread, hfd, hstock, hbytes, hend, hlit⟩ :=
        @ih { node with stock := node.stock ++ buff.bytes, literal := false } nofun hs
      refine ⟨node', rest, hread, hfd, hstock, ?_, hend, fun h => ?_⟩
      · rw [List.append_assoc, hbytes]
      · have hcontra := (hlit h).1
        rw [hcontra] at h
        cases h

/-! ## One line -/

theorem lines_single {t : List UInt8} (hne : t ≠ []) (h : newline ∉ t) : lines t = [t] := by
  apply linesOf_single hne
  intro b hb
  exact beq_eq_false_iff_ne.mpr fun hb' => h (hb' ▸ hb)

/-! ## One call -/

/-- The state with another node for `fd`, and other chunks. -/
def Gnl.replace (s : Gnl) (before : List Stocklist) (node : Stocklist) (after : List Stocklist)
    (rest : List Chunk) : Gnl :=
  { list := before ++ node :: after, chunks := Function.update s.chunks node.fd rest }

theorem replace_chunks_self : (s.replace before node after rest).chunks node.fd = rest :=
  Function.update_self ..

theorem replace_chunks_of_ne (h : fd' ≠ node.fd) :
    (s.replace before node after rest).chunks fd' = s.chunks fd' := Function.update_of_ne h ..

theorem Found.pending_self (h : Found s.list fd before node after) (hfd : node'.fd = fd) :
    (s.replace before node' after rest).pending fd = node'.stock ++ unread rest := by
  have hbefore := h.before_ne
  subst hfd
  rw [Gnl.pending, replace_chunks_self, Gnl.replace, stockOf_at hbefore]

theorem Found.pending_other (h : Found s.list fd before node after) (hfd : node'.fd = fd)
    (hne : fd' ≠ fd) : (s.replace before node' after rest).pending fd' = s.pending fd' := by
  rw [Gnl.pending, replace_chunks_of_ne (hfd ▸ hne), Gnl.replace, stockOf_skip (hfd ▸ hne),
    Gnl.pending, h.other hne]

theorem Found.inv_replace (h : Found s.list fd before node after) (hinv : s.Inv)
    (hfd : node'.fd = fd) (hlit : node'.literal = true → node'.stock = [] ∧ rest = []) :
    (s.replace before node' after rest).Inv where
  nodup := h.nodup hinv.nodup hfd
  literal n hn hl := by
    have hother (hmem : n ∈ before ++ after) (hne : fd ≠ n.fd) :
        n.stock = [] ∧ (s.replace before node' after rest).chunks n.fd = [] := by
      rw [replace_chunks_of_ne (hfd ▸ hne.symm)]
      exact hinv.literal n (h.mem hmem) hl
    rcases List.mem_append.mp hn with hbefore | hn
    · exact hother (List.mem_append_left _ hbefore) (h.before_ne n hbefore)
    · rcases List.mem_cons.mp hn with rfl | hafter
      · rw [replace_chunks_self]
        exact hlit hl
      · exact hother (List.mem_append_right _ hafter) (h.after_ne hinv.nodup n hafter)

/-- The static list moved to the node of `fd`, which loses what is in front of it. -/
def Gnl.moved (s : Gnl) (node : Stocklist) (after : List Stocklist) (rest : List Chunk) : Gnl :=
  { list := node :: after, chunks := Function.update s.chunks node.fd rest }

theorem Found.pending_moved (h : Found s.list fd before node after)
    (hn : (s.list.map Stocklist.fd).Nodup)
    (hfd : node'.fd = fd) (hbefore : ∀ n ∈ before, n.stock = []) (fd' : Int) :
    (s.moved node' after rest).pending fd' = (s.replace before node' after rest).pending fd' := by
  rw [Gnl.pending, Gnl.pending, Gnl.moved, Gnl.replace, stockOf_drop (h.nodup hn hfd) hbefore]

theorem inv_moved (hinv : (s.replace before node' after rest).Inv) :
    (s.moved node' after rest).Inv where
  nodup := by
    have hnodup := hinv.nodup
    rw [Gnl.replace, List.map_append] at hnodup
    exact (List.nodup_append.mp hnodup).2.1
  literal n hn := hinv.literal n (List.mem_append_right _ hn)

/-- What a call on `fd` does to what is pending: the first line is gone, and nothing of another
descriptor. -/
structure Gnl.Takes (s s' : Gnl) (fd : Int) : Prop where
  inv : s'.Inv
  self : lines (s'.pending fd) = (lines (s.pending fd)).tail
  other : ∀ fd' ≠ fd, s'.pending fd' = s.pending fd'

/-- A call puts a node in the place of the one it found. -/
theorem Found.takes_replace (h : Found s.list fd before node after) (hinv : s.Inv)
    (hfd : node'.fd = fd) (hlit : node'.literal = true → node'.stock = [] ∧ rest = [])
    (htail : lines (node'.stock ++ unread rest) = (lines (s.pending fd)).tail) :
    s.Takes (s.replace before node' after rest) fd where
  inv := h.inv_replace hinv hfd hlit
  self := by rw [h.pending_self hfd, htail]
  other _ hne := h.pending_other hfd hne

/-- The nodes in front of it can go if they keep nothing. -/
theorem Found.takes_moved (h : Found s.list fd before node after) (hinv : s.Inv)
    (hfd : node'.fd = fd) (hbefore : ∀ n ∈ before, n.stock = [])
    (htakes : s.Takes (s.replace before node' after rest) fd) :
    s.Takes (s.moved node' after rest) fd where
  inv := inv_moved htakes.inv
  self := by rw [h.pending_moved hinv.nodup hfd hbefore, htakes.self]
  other fd' hne := by rw [h.pending_moved hinv.nodup hfd hbefore, htakes.other fd' hne]

/-- What `find` leaves of a descriptor: its node with the bytes read, and the chunks behind them. -/
structure Gnl.Left (s : Gnl) (fd : Int) (node : Stocklist) (rest : List Chunk) : Prop where
  node_fd : node.fd = fd
  pending : s.pending fd = node.stock ++ unread rest
  stop : newline ∈ node.stock ∨ rest = []
  literal : node.literal = true → node.stock = []
  short : node.stock.length + 1 < 2 ^ 31

theorem Found.left (h : Found s.list fd before node after) (hinv : s.Inv) (hh : s.Harmless fd) :
    ∃ node' rest, readStock (s.chunks fd) node = .ok (node', rest) ∧ s.Left fd node' rest := by
  have hshort := hh.short
  have hlit : node.literal = true → node.stock = [] ∧ s.chunks fd = [] := by
    intro hl
    have hleft := hinv.literal node (h.literal_mem hl) hl
    rwa [h.node_fd] at hleft
  rw [h.stock] at hshort
  obtain ⟨node', rest, hread, hfd, hstock, hbytes, hstop, hl⟩ :=
    readStock_eq (fun hl => (hlit hl).2) (Nat.lt_of_succ_lt hshort)
  have hpending : s.pending fd = node'.stock ++ unread rest := by
    rw [Gnl.pending, h.stock, hstock, List.append_assoc, hbytes]
  refine ⟨node', rest, hread, hfd.trans h.node_fd, hpending, hstop, fun hl' => ?_, ?_⟩
  · obtain ⟨rfl, -⟩ := hl hl'
    exact (hlit hl').1
  · rwa [hstock]

/-- Nothing was left: the list moves to the node. -/
theorem Gnl.Left.takes_nothing (hl : s.Left fd node' rest) (h : Found s.list fd before node after)
    (hinv : s.Inv) (hh : s.Harmless fd) (hempty : node'.stock = []) :
    lines (s.pending fd) = [] ∧ s.Takes (s.moved node' after rest) fd := by
  obtain rfl : rest = [] := hl.stop.resolve_left fun hnl => by
    rw [hempty] at hnl
    cases hnl
  have hnone : s.pending fd = [] := by
    rw [hl.pending, hempty]
    rfl
  have hbefore : ∀ n ∈ before, n.stock = [] := by
    have hfront := hh.front hnone
    rwa [h.find] at hfront
  have htail : lines (node'.stock ++ unread []) = (lines (s.pending fd)).tail := by
    rw [hnone, hempty]
    rfl
  have hreplace := h.takes_replace hinv hl.node_fd (fun _ => ⟨hempty, rfl⟩) htail
  refine ⟨?_, h.takes_moved hinv hl.node_fd hbefore hreplace⟩
  rw [hnone]
  rfl

/-- The first line goes, and what stands behind its newline stays. -/
theorem Gnl.Left.takes_line (hl : s.Left fd node' rest) (h : Found s.list fd before node after)
    (hinv : s.Inv) (hnl : newline ∈ node'.stock) :
    (lines (s.pending fd)).head? = some (node'.stock.takeWhile (· != newline)) ∧
      s.Takes (s.replace before { node' with
        stock := (node'.stock.dropWhile (· != newline)).drop 1, literal := false } after rest) fd := by
  have hline : lines (s.pending fd) = node'.stock.takeWhile (· != newline) ::
      lines ((node'.stock.dropWhile (· != newline)).drop 1 ++ unread rest) := by
    rw [hl.pending]
    exact linesOf_first hnl (unread rest)
  refine ⟨by rw [hline, List.head?_cons], h.takes_replace hinv hl.node_fd nofun ?_⟩
  rw [hline, List.tail_cons]

/-- A last line without a newline goes. -/
theorem Gnl.Left.takes_rest (hl : s.Left fd node' rest) (h : Found s.list fd before node after)
    (hinv : s.Inv) (hempty : node'.stock ≠ []) (hnl : newline ∉ node'.stock) :
    (lines (s.pending fd)).head? = some node'.stock ∧
      s.Takes (s.replace before { node' with stock := [], literal := true } after rest) fd := by
  obtain rfl : rest = [] := hl.stop.resolve_left hnl
  have hline : lines (s.pending fd) = [node'.stock] := by
    rw [hl.pending, unread, List.flatMap_nil, List.append_nil, lines_single hempty hnl]
  refine ⟨by rw [hline, List.head?_cons],
    h.takes_replace hinv hl.node_fd (fun _ => ⟨rfl, rfl⟩) ?_⟩
  rw [hline]
  rfl

/-- One call returns the next line of its descriptor, or 0 if there is none, and takes nothing from
the others. -/
theorem getNextLine_step (hinv : s.Inv) (hfd : 0 ≤ fd) (ho : opened fd = true)
    (hh : s.Harmless fd) :
    ∃ s', getNextLine opened fd s = .ok (answerOf (lines (s.pending fd)).head?, s') ∧
      s.Takes s' fd := by
  obtain ⟨before, node, after, hfound⟩ := exists_found s.list fd
  obtain ⟨node', rest, hread, hleft⟩ := hfound.left hinv hh
  have hshort := hleft.short
  rw [getNextLine, if_neg (by simp [ho, buffSize]; omega), hfound.find]
  simp only
  rw [hread, ok_bind]
  simp only
  by_cases hempty : node'.stock = []
  · obtain ⟨hnone, htakes⟩ := hleft.takes_nothing hfound hinv hh hempty
    rw [if_pos hempty, hnone, ← hleft.node_fd]
    rw [← hleft.node_fd] at htakes
    exact ⟨_, rfl, htakes⟩
  rw [if_neg hempty]
  by_cases hnl : newline ∈ node'.stock
  · obtain ⟨hline, htakes⟩ := hleft.takes_line hfound hinv hnl
    have hfree : node'.literal = false := Bool.eq_false_iff.mpr fun hl => hempty (hleft.literal hl)
    have hlen := congrArg List.length (split_first hnl)
    rw [List.length_append, List.length_cons] at hlen
    rw [if_pos hnl, ftStrcdup, if_pos (by omega), ok_bind, ftStrdup, if_pos (by omega), ok_bind,
      freeStock, hfree, if_neg Bool.false_ne_true, ok_bind, hline, ← hleft.node_fd]
    rw [← hleft.node_fd] at htakes
    exact ⟨_, rfl, htakes⟩
  · obtain ⟨hline, htakes⟩ := hleft.takes_rest hfound hinv hempty hnl
    rw [if_neg hnl, ftStrdup, if_pos (by omega), ok_bind, hline, ← hleft.node_fd]
    rw [← hleft.node_fd] at htakes
    exact ⟨_, rfl, htakes⟩

/-! ## A run -/

/-- Every call of the run is harmless in the state that it finds. -/
def HarmlessRun (opened : Int → Bool) : List Int → Gnl → Prop
  | [], _ => True
  | fd :: calls, s => s.Harmless fd ∧
    match getNextLine opened fd s with
    | .ok (_, s) => HarmlessRun opened calls s
    | .fault => True

instance (s : Gnl) (fd : Int) : Decidable (s.Harmless fd) :=
  decidable_of_iff (_ ∧ _) ⟨fun h => ⟨h.1, h.2⟩, fun h => ⟨h.front, h.short⟩⟩

instance decidableHarmlessRun (opened : Int → Bool) :
    ∀ calls s, Decidable (HarmlessRun opened calls s)
  | [], _ => .isTrue trivial
  | fd :: calls, s =>
    have : Decidable (match getNextLine opened fd s with
        | .ok (_, s) => HarmlessRun opened calls s
        | .fault => True) :=
      match getNextLine opened fd s with
      | .ok (_, s) => decidableHarmlessRun opened calls s
      | .fault => .isTrue trivial
    inferInstanceAs (Decidable (_ ∧ _))

/-- The answers to the calls on `fd`, in order. -/
def answersOf (fd : Int) (calls : List Int) (answers : List Answer) : List Answer :=
  ((calls.zip answers).filter (·.1 = fd)).map Prod.snd

/-- What `n` calls on a descriptor have to answer: the lines of its content, and then 0. -/
def answersFor (content : List UInt8) (n : Nat) : List Answer :=
  (List.range n).map fun k => answerOf (lines content)[k]?

theorem answersFor_succ {t u : List UInt8} (h : lines u = (lines t).tail) (n : Nat) :
    answersFor t (n + 1) = answerOf (lines t).head? :: answersFor u n := by
  rw [answersFor, List.range_succ_eq_map, List.map_cons, List.map_map, List.head?_eq_getElem?,
    answersFor, h]
  congr 1
  apply List.map_congr_left
  intro k _
  rw [Function.comp_apply, List.getElem?_tail]

theorem getNextLines_answers {calls : List Int} (hinv : s.Inv)
    (hcalls : ∀ fd ∈ calls, 0 ≤ fd ∧ opened fd = true) (h : HarmlessRun opened calls s) :
    ∃ answers s', getNextLines opened calls s = .ok (answers, s') ∧
      ∀ fd, answersOf fd calls answers = answersFor (s.pending fd) (calls.count fd) := by
  induction calls generalizing s with
  | nil => exact ⟨[], s, rfl, fun _ => rfl⟩
  | cons fd calls ih =>
    obtain ⟨hfd, hopen⟩ := hcalls fd List.mem_cons_self
    obtain ⟨hharmless, hrest⟩ := h
    obtain ⟨s₁, hstep, htakes⟩ := getNextLine_step hinv hfd hopen hharmless
    rw [hstep] at hrest
    obtain ⟨answers, s₂, hrun, hanswers⟩ :=
      ih htakes.inv (fun fd hmem => hcalls fd (List.mem_cons_of_mem _ hmem)) hrest
    refine ⟨answerOf (lines (s.pending fd)).head? :: answers, s₂, ?_, fun fd' => ?_⟩
    · rw [getNextLines, hstep, ok_bind]
      simp only
      rw [hrun]
      rfl
    · have hanswer := hanswers fd'
      unfold answersOf at hanswer ⊢
      rw [List.zip_cons_cons]
      by_cases hne : fd = fd'
      · subst hne
        rw [List.filter_cons_of_pos (by simp), List.map_cons, hanswer, List.count_cons_self,
          answersFor_succ htakes.self]
      · rw [List.filter_cons_of_neg (by simpa using hne), hanswer, List.count_cons_of_ne hne,
          htakes.other fd' (Ne.symm hne)]

theorem inv_init {chunks : Int → List Chunk} : (⟨[], chunks⟩ : Gnl).Inv :=
  ⟨List.nodup_nil, fun _ hn => absurd hn List.not_mem_nil⟩

/-- In every run in which no call at the end of its descriptor drops bytes of another, and none
has more bytes at once than an `int` counts, each call returns the next line of its descriptor, and
0 only behind the last one. -/
theorem getNextLines_lines (opened : Int → Bool) (chunks : Int → List Chunk) (calls : List Int)
    (hcalls : ∀ fd ∈ calls, 0 ≤ fd ∧ opened fd = true)
    (h : HarmlessRun opened calls ⟨[], chunks⟩) :
    ∃ answers s, getNextLines opened calls ⟨[], chunks⟩ = .ok (answers, s) ∧
      ∀ fd, answersOf fd calls answers = answersFor (unread (chunks fd)) (calls.count fd) :=
  getNextLines_answers inv_init hcalls h

/-- Descriptor 3 has two lines in one chunk, the others are empty. -/
def twoLines (fd : Int) : List Chunk :=
  if fd = 3 then [⟨ascii "a\nb\n", by decide, by decide, by decide +kernel⟩] else []

theorem getNextLines_lines_inOrder : ∃ answers s,
    getNextLines (fun _ => true) [3, 3, 4, 3] ⟨[], twoLines⟩ = .ok (answers, s) ∧
      ∀ fd, answersOf fd [3, 3, 4, 3] answers =
        answersFor (unread (twoLines fd)) ([3, 3, 4, 3].count fd) :=
  getNextLines_lines (fun _ => true) twoLines [3, 3, 4, 3] (by decide) (by decide)

/-- The call on 4 leaves the list at its own node, and the second line of 3 is lost. -/
theorem twoLines_lost : ∃ answers s,
    getNextLines (fun _ => true) [3, 4, 3] ⟨[], twoLines⟩ = .ok (answers, s) ∧
      answersOf 3 [3, 4, 3] answers ≠ answersFor (unread (twoLines 3)) ([3, 4, 3].count 3) :=
  ⟨[⟨1, some (ascii "a")⟩, ⟨0, none⟩, ⟨0, none⟩], _, rfl, by decide⟩

end NmOtool
