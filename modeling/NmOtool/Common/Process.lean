import NmOtool.Nm.Print
import Mathlib.Data.Finset.Basic

/-!
# The programs as processes

`get_fd`, `handle_each_arg` and the loop over the arguments, which the two programs share but for
the directory that `get_fd` of ft_otool turns away. A `Process` holds descriptors and mappings and
has written some text; a `Kernel` chooses what `open` and `mmap` return among what is free, and
`Answers` says how the system calls for one argument end.
-/

namespace NmOtool

open MachO Checked
open Nm (Outcome)

/-- The choice of a descriptor, and of the address of a mapping, that is not in use. -/
structure Kernel where
  fd : Finset Nat → Nat
  fd_free : ∀ s, fd s ∉ s
  address : Finset Nat → Nat
  address_free : ∀ s, address s ∉ s

structure Process where
  fds : Finset Nat
  maps : Finset Nat
  out : List UInt8
  err : List UInt8

inductive OpenAnswer where
  | opened
  /-- `errno` is `EACCES`. -/
  | denied
  | failed
  deriving DecidableEq, Repr

/-- How the system calls for one argument end; `none` is -1, or `MAP_FAILED`. -/
structure Answers where
  opens : OpenAnswer
  /-- The `fstat` of `get_fd`: whether the file is a directory. -/
  isDir : Option Bool
  /-- The `fstat` of `handle_each_arg`: `st_size`. -/
  size : Option Nat
  /-- The bytes of the mapping. -/
  bytes : Option (Nat → UInt8)
  unmaps : Bool

def EXIT_SUCCESS : Nat := 0

def EXIT_FAILURE : Nat := 1

namespace Process

def openFd (p : Process) (k : Kernel) : Nat × Process :=
  let fd := k.fd p.fds
  (fd, { p with fds := insert fd p.fds })

def close (p : Process) (fd : Nat) : Process := { p with fds := p.fds.erase fd }

def mmap (p : Process) (k : Kernel) : Nat × Process :=
  let ptr := k.address p.maps
  (ptr, { p with maps := insert ptr p.maps })

def munmap (p : Process) (ptr : Nat) : Process := { p with maps := p.maps.erase ptr }

/-- `write(2, s, ft_strlen(s))`. -/
def write2 (p : Process) (s : List UInt8) : Process := { p with err := p.err ++ s }

def putError (p : Process) (s1 s2 : List UInt8) : Process := (p.write2 s1).write2 s2

/-- What a run of the parse writes. -/
def wrote (p : Process) (o : Outcome) : Process :=
  { p with out := p.out ++ o.out, err := p.err ++ o.err }

/-- What the process holds of the system. -/
def resources (p : Process) : Finset Nat × Finset Nat := (p.fds, p.maps)

end Process

/-- `get_fd`; `dirFails` says whether it returns -1 for a directory. -/
def getFdWith (dirFails : Bool) (k : Kernel) (name : List UInt8) (a : Answers) (p : Process) :
    Int × Process :=
  match a.opens with
  | .denied => (-1, p.putError name (ascii ": Permission denied.\n"))
  | .failed => (-1, p.putError name (ascii ": No such file or directory.\n"))
  | .opened =>
    let (fd, p) := p.openFd k
    match a.isDir with
    | none => (-1, p.close fd)
    | some false => (fd, p)
    | some true =>
      let p := p.putError name (ascii ": Is a direcrory.\n")
      if dirFails then (-1, p) else (fd, p)

/-- `handle_each_arg`; `parse` is what it calls on the map. -/
def handleEachArgWith (dirFails : Bool) (parse : Buffer → Checked Outcome) (k : Kernel)
    (av : List UInt8) (a : Answers) (p : Process) : Checked (Nat × Process) :=
  let (fd, p) := getFdWith dirFails k av a p
  if fd < 0 then pure (EXIT_FAILURE, p)
  else
    match a.size with
    | none => pure (EXIT_FAILURE, p.write2 (ascii "fstat"))
    | some size =>
      match a.bytes with
      | none => pure (EXIT_FAILURE, p.write2 (ascii "mmap"))
      | some byte => do
        let (ptr, p) := p.mmap k
        let o ← parse { size, byte }
        let p := p.wrote o
        if o.ret < 0 then pure (EXIT_FAILURE, p)
        else if a.unmaps then pure (EXIT_SUCCESS, p.munmap ptr)
        else pure (EXIT_FAILURE, p.write2 (ascii "munmap"))

/-- The loop over the arguments, from argument `i` with the status `res`. -/
def handleArgsFrom (each : Nat → List UInt8 → Process → Checked (Nat × Process)) :
    List (List UInt8) → Nat → Nat → Process → Checked (Nat × Process)
  | [], _, res, p => pure (res, p)
  | av :: rest, i, res, p => do
    let (r, p) ← each i av p
    handleArgsFrom each rest (i + 1) (res ||| r) p

/-! ## What is held after an argument -/

/-- No descriptor comes of the argument: the file cannot be opened, or `get_fd` closes it again
because its `fstat` fails. -/
def Answers.NoDescriptor (a : Answers) : Prop := a.opens ≠ .opened ∨ a.isDir = none

instance (a : Answers) : Decidable a.NoDescriptor := inferInstanceAs (Decidable (_ ∨ _))

variable {dirFails : Bool} {parse : Buffer → Checked Outcome} {k : Kernel} {av : List UInt8}
  {a : Answers} {p p' : Process} {r : Nat}

theorem getFdWith_fds : (getFdWith dirFails k av a p).2.fds =
    if a.NoDescriptor then p.fds else insert (k.fd p.fds) p.fds := by
  obtain ⟨opens, isDir, size, bytes, unmaps⟩ := a
  unfold getFdWith Answers.NoDescriptor
  cases opens with
  | denied => rfl
  | failed => rfl
  | opened =>
    cases isDir with
    | none => exact Finset.erase_insert (k.fd_free p.fds)
    | some d => cases d <;> cases dirFails <;> rfl

theorem getFdWith_maps : (getFdWith dirFails k av a p).2.maps = p.maps := by
  obtain ⟨opens, isDir, size, bytes, unmaps⟩ := a
  unfold getFdWith
  cases opens with
  | denied => rfl
  | failed => rfl
  | opened =>
    cases isDir with
    | none => rfl
    | some d => cases d <;> cases dirFails <;> rfl

/-- After `get_fd` the descriptors stay as they are. A mapping is there once it is made, and goes
if the parse succeeds and `munmap` does. -/
theorem handleEachArgWith_resources
    (h : handleEachArgWith dirFails parse k av a p = .ok (r, p')) :
    p'.fds = (getFdWith dirFails k av a p).2.fds ∧
      (p'.maps = p.maps ∨ p'.maps = insert (k.address p.maps) p.maps) := by
  have hmaps : (getFdWith dirFails k av a p).2.maps = p.maps := getFdWith_maps
  unfold handleEachArgWith at h
  simp only at h
  generalize getFdWith dirFails k av a p = got at h hmaps
  rw [← hmaps]
  split at h
  · cases h
    exact ⟨rfl, .inl rfl⟩
  split at h
  · cases h
    exact ⟨rfl, .inl rfl⟩
  split at h
  · cases h
    exact ⟨rfl, .inl rfl⟩
  obtain ⟨o, -, h⟩ := bind_eq_ok.mp h
  split at h
  · cases h
    exact ⟨rfl, .inr rfl⟩
  split at h
  · cases h
    exact ⟨rfl, .inl (Finset.erase_insert (k.address_free got.2.maps))⟩
  · cases h
    exact ⟨rfl, .inr rfl⟩

/-- A call that gets no descriptor returns at once. -/
theorem handleEachArgWith_noDescriptor (ha : a.NoDescriptor) :
    handleEachArgWith dirFails parse k av a p =
      .ok (EXIT_FAILURE, (getFdWith dirFails k av a p).2) := by
  have hfd : (getFdWith dirFails k av a p).1 = -1 := by
    obtain ⟨opens, isDir, size, bytes, unmaps⟩ := a
    unfold getFdWith
    obtain h | rfl := ha
    · cases opens with
      | denied => rfl
      | failed => rfl
      | opened => exact absurd rfl h
    · cases opens <;> rfl
  unfold handleEachArgWith
  simp only
  rw [hfd, if_pos (by decide)]
  rfl

/-- What the process holds is the same after an argument exactly if no descriptor came of it. -/
theorem handleEachArgWith_keeps (h : handleEachArgWith dirFails parse k av a p = .ok (r, p')) :
    p'.resources = p.resources ↔ a.NoDescriptor := by
  constructor
  · intro he
    by_contra ha
    have hsame : p'.fds = p.fds := congrArg Prod.fst he
    have hfds := (handleEachArgWith_resources h).1
    rw [getFdWith_fds, if_neg ha, hsame] at hfds
    exact absurd hfds.symm (Finset.insert_ne_self.mpr (k.fd_free p.fds))
  · intro ha
    rw [handleEachArgWith_noDescriptor ha] at h
    cases h
    rw [Process.resources, getFdWith_fds, getFdWith_maps, if_pos ha]
    rfl

/-- The system calls give the program the image `m`. -/
structure Answers.Maps (a : Answers) (m : Buffer) : Prop where
  opens : a.opens = .opened
  isDir : a.isDir = some false
  size : a.size = some m.size
  bytes : a.bytes = some m.byte

/-- On a mapped file the status is that of the parse, and of `munmap`. -/
theorem handleEachArgWith_maps {m : Buffer} {o : Outcome} (ha : a.Maps m) (h : parse m = .ok o) :
    ∃ p', handleEachArgWith dirFails parse k av a p =
      .ok (if 0 ≤ o.ret ∧ a.unmaps = true then EXIT_SUCCESS else EXIT_FAILURE, p') := by
  unfold handleEachArgWith getFdWith
  rw [ha.opens, ha.isDir, ha.size, ha.bytes]
  simp only
  rw [if_neg (Int.not_lt.mpr (Int.natCast_nonneg _)), h, ok_bind]
  by_cases hret : o.ret < 0
  · rw [if_pos hret, if_neg fun e => absurd e.1 (Int.not_le.mpr hret)]
    exact ⟨_, rfl⟩
  · rw [if_neg hret]
    by_cases hu : a.unmaps = true
    · rw [if_pos hu, if_pos ⟨Int.not_lt.mp hret, hu⟩]
      exact ⟨_, rfl⟩
    · rw [if_neg hu, if_neg fun e => hu e.2]
      exact ⟨_, rfl⟩

/-- A run over arguments only adds to what the process holds. -/
theorem handleEachArgWith_le (h : handleEachArgWith dirFails parse k av a p = .ok (r, p')) :
    p.fds ⊆ p'.fds ∧ p.maps ⊆ p'.maps := by
  obtain ⟨hfds, hmaps⟩ := handleEachArgWith_resources h
  constructor
  · rw [hfds, getFdWith_fds]
    split
    · exact Finset.Subset.refl _
    · exact Finset.subset_insert _ _
  · obtain he | he := hmaps
    · exact he.symm.subset
    · exact he ▸ Finset.subset_insert _ _

/-! ## Runs over the arguments -/

/-- What each argument keeps, the run keeps; an argument that does not is seen in the end. -/
theorem handleArgsFrom_keeps {each : Nat → List UInt8 → Process → Checked (Nat × Process)}
    (env : Nat → Answers) {avs : List (List UInt8)} {i res : Nat}
    (hle : ∀ i av p r p', each i av p = .ok (r, p') → p.fds ⊆ p'.fds ∧ p.maps ⊆ p'.maps)
    (hkeeps : ∀ i av p r p', each i av p = .ok (r, p') →
      (p'.resources = p.resources ↔ (env i).NoDescriptor))
    (h : handleArgsFrom each avs i res p = .ok (r, p')) :
    (p.fds ⊆ p'.fds ∧ p.maps ⊆ p'.maps) ∧
      (p'.resources = p.resources ↔ ∀ j < avs.length, (env (i + j)).NoDescriptor) := by
  induction avs generalizing i res p with
  | nil =>
    cases h
    refine ⟨⟨Finset.Subset.refl _, Finset.Subset.refl _⟩, iff_of_true rfl fun j hj => ?_⟩
    exact absurd hj (Nat.not_lt_zero j)
  | cons av avs ih =>
    unfold handleArgsFrom at h
    obtain ⟨⟨s, q⟩, hq, h⟩ := bind_eq_ok.mp h
    obtain ⟨⟨hf, hm⟩, hiff⟩ := ih h
    obtain ⟨hf', hm'⟩ := hle _ _ _ _ _ hq
    have hkeep := hkeeps _ _ _ _ _ hq
    refine ⟨⟨hf'.trans hf, hm'.trans hm⟩, ?_⟩
    -- what is held only grows, so it is the same in the end only if it is after this argument
    have hmid : p'.resources = p.resources ↔ q.resources = p.resources ∧ p'.resources = q.resources := by
      constructor
      · intro he
        have hqf := Finset.Subset.antisymm (hf.trans (congrArg Prod.fst he).subset) hf'
        have hqm := Finset.Subset.antisymm (hm.trans (congrArg Prod.snd he).subset) hm'
        have hq : q.resources = p.resources := Prod.ext hqf hqm
        exact ⟨hq, he.trans hq.symm⟩
      · rintro ⟨h1, h2⟩
        exact h2.trans h1
    rw [hmid, hkeep, hiff]
    constructor
    · rintro ⟨h0, hrest⟩ j hj
      cases j with
      | zero => exact h0
      | succ j =>
        have := hrest j (Nat.lt_of_succ_lt_succ hj)
        rwa [Nat.add_right_comm, Nat.add_assoc] at this
    · intro hall
      refine ⟨hall 0 (Nat.succ_pos _), fun j hj => ?_⟩
      have := hall (j + 1) (Nat.succ_lt_succ hj)
      rwa [← Nat.add_assoc, Nat.add_right_comm] at this

end NmOtool
