import NmOtool.Nm.Args
import NmOtool.Otool.Fat
import Mathlib.Data.Fintype.EquivFin

/-!
# ft_otool: the arguments

`main.c`, and what the two programs hold after an argument. `env i` is what the system calls for
argument `i` answer.
-/

namespace NmOtool.Otool

open MachO Checked

/-- `get_fd` returns -1 for a directory, whose descriptor stays open. -/
def getFd : Kernel → List UInt8 → Answers → Process → Int × Process := getFdWith true

def handleEachArg (k : Kernel) (av : List UInt8) (a : Answers) (p : Process) :
    Checked (Nat × Process) :=
  handleEachArgWith true (fun m => otool m av) k av a p

def handleArgs (k : Kernel) (env : Nat → Answers) (av : List (List UInt8)) (p : Process) :
    Checked (Nat × Process) :=
  let p := if av = [] then p.write2 (ascii "ft_otool: At least one file must be specified.\n") else p
  handleArgsFrom (fun i av p => handleEachArg k av (env i) p) av 0 0 p

/-- `main`; the arguments are those after the name of the program. -/
def main (k : Kernel) (env : Nat → Answers) (av : List (List UInt8)) (p : Process) :
    Checked (Nat × Process) := handleArgs k env av p

variable {k : Kernel} {env : Nat → Answers} {av : List UInt8} {avs : List (List UInt8)}
  {a : Answers} {p p' : Process} {r : Nat}

theorem handleEachArg_keeps (h : handleEachArg k av a p = .ok (r, p')) :
    p'.resources = p.resources ↔ a.NoDescriptor := handleEachArgWith_keeps h

theorem handleArgs_keeps (h : handleArgs k env avs p = .ok (r, p')) :
    p'.resources = p.resources ↔ ∀ i < avs.length, (env i).NoDescriptor := by
  cases avs with
  | nil =>
    cases h
    exact iff_of_true rfl fun i hi => absurd hi (Nat.not_lt_zero i)
  | cons av avs =>
    have hrun := handleArgsFrom_keeps env ?_ ?_ h
    · simpa using hrun.2
    · intro i av p r p' hav
      exact handleEachArgWith_le hav
    · intro i av p r p' hav
      exact handleEachArg_keeps hav

end NmOtool.Otool

namespace NmOtool

open MachO

/-- A kernel that chooses the lowest number that is free. -/
def lowestFree : Kernel where
  fd s := Nat.find (Infinite.exists_notMem_finset s)
  fd_free s := Nat.find_spec (Infinite.exists_notMem_finset s)
  address s := Nat.find (Infinite.exists_notMem_finset s)
  address_free s := Nat.find_spec (Infinite.exists_notMem_finset s)

/-- In both programs a call holds as much after as before exactly if no descriptor came of its
argument, and a run over arguments exactly if none came of any. -/
theorem resources_kept (k : Kernel) (env : Nat → Answers) (p p' : Process) (r : Nat) :
    (∀ i av multi first flags, Nm.handleEachArg k av multi first flags (env i) p = .ok (r, p') →
      (p'.resources = p.resources ↔ (env i).NoDescriptor)) ∧
    (∀ avs flags, Nm.multiArgs k env avs flags p = .ok (r, p') →
      (p'.resources = p.resources ↔ ∀ i < avs.length, (env i).NoDescriptor)) ∧
    (∀ i av, Otool.handleEachArg k av (env i) p = .ok (r, p') →
      (p'.resources = p.resources ↔ (env i).NoDescriptor)) ∧
    (∀ avs, Otool.handleArgs k env avs p = .ok (r, p') →
      (p'.resources = p.resources ↔ ∀ i < avs.length, (env i).NoDescriptor)) := by
  refine ⟨?_, ?_, ?_, ?_⟩
  · intro i av multi first flags h
    exact Nm.handleEachArg_keeps h
  · intro avs flags h
    exact Nm.multiArgs_keeps h
  · intro i av h
    exact Otool.handleEachArg_keeps h
  · intro avs h
    exact Otool.handleArgs_keeps h

/-- A process that holds nothing yet, and the answers for a file of `size` zeros. -/
def Process.empty : Process := { fds := ∅, maps := ∅, out := [], err := [] }

def zeros (size : Nat) : Answers where
  opens := .opened
  isDir := some false
  size := some size
  bytes := some fun _ => 0
  unmaps := true

def missing : Answers := { zeros 0 with opens := .failed }

theorem resources_kept_missing : ∃ p', Otool.handleArgs lowestFree (fun _ => missing)
      [ascii "a", ascii "b"] .empty = .ok (1, p') ∧ p'.resources = Process.empty.resources :=
  ⟨_, rfl, ((resources_kept lowestFree (fun _ => missing) .empty _ 1).2.2.2
    [ascii "a", ascii "b"] rfl).mpr fun _ _ => .inl (by decide)⟩

/-- In both programs the descriptor of a file that is read stays open. -/
theorem resources_leak :
    (¬ ∀ k av multi first flags a p p' r,
      Nm.handleEachArg k av multi first flags a p = .ok (r, p') → p'.resources = p.resources) ∧
    ¬ ∀ k av a p p' r, Otool.handleEachArg k av a p = .ok (r, p') → p'.resources = p.resources := by
  constructor
  · intro h
    have hrun : ∃ p', Nm.handleEachArg lowestFree (ascii "a") false true [] (zeros 40) .empty =
        .ok (1, p') := ⟨_, rfl⟩
    obtain ⟨p', hp⟩ := hrun
    exact absurd ((Nm.handleEachArg_keeps hp).mp (h _ _ _ _ _ _ _ _ _ hp)) (by decide)
  · intro h
    have hrun : ∃ p', Otool.handleEachArg lowestFree (ascii "a") (zeros 40) .empty = .ok (1, p') :=
      ⟨_, rfl⟩
    obtain ⟨p', hp⟩ := hrun
    exact absurd ((Otool.handleEachArg_keeps hp).mp (h _ _ _ _ _ _ hp)) (by decide)

end NmOtool
