import NmOtool.Common.Process
import NmOtool.Nm.Flags

/-!
# ft_nm: the arguments

`main.c`. The operands are the strings that `set_flags_nm` leaves of `argv`; `env i` is what the
system calls for operand `i` answer.
-/

namespace NmOtool.Nm

open MachO Checked

/-- `get_fd` reports a directory and returns its descriptor all the same. -/
def getFd : Kernel → List UInt8 → Answers → Process → Int × Process := getFdWith false

def handleEachArg (k : Kernel) (av : List UInt8) (multiArg firstArg : Bool) (flags : List UInt8)
    (a : Answers) (p : Process) : Checked (Nat × Process) :=
  handleEachArgWith false (fun m => nm m av { multi := multiArg, first := firstArg } flags) k av a p

/-- `av` is what is left of `argv`: nothing, or the one operand. -/
def oneArg (k : Kernel) (env : Nat → Answers) (av : List (List UInt8)) (flags : List UInt8)
    (p : Process) : Checked (Nat × Process) :=
  handleEachArg k (av.headD (ascii "a.out")) false true flags (env 0) p

def multiArgs (k : Kernel) (env : Nat → Answers) (av : List (List UInt8)) (flags : List UInt8)
    (p : Process) : Checked (Nat × Process) :=
  handleArgsFrom (fun i av p => handleEachArg k av true (i == 0) flags (env i) p) av 0 0 p

/-- `main`; the strings of `argv` are `name` and those of `argv`. -/
def main (k : Kernel) (env : Nat → Answers) (name : List UInt8) (argv : List (List UInt8))
    (p : Process) : Checked (Nat × Process) := do
  let r ← setFlagsNm name argv
  let p := p.write2 r.err
  if r.ret < 0 then pure (EXIT_FAILURE, p)
  else
    let flags := r.loop.flags.cstr 0
    let av := r.argv.drop r.ret.toNat
    if (argv.length + 1 : Nat) - r.ret ≤ 1 then oneArg k env av flags p
    else multiArgs k env av flags p

variable {k : Kernel} {env : Nat → Answers} {av name flags : List UInt8}
  {avs argv : List (List UInt8)} {a : Answers} {p p' : Process} {r : Nat} {multi first : Bool}

theorem handleEachArg_keeps (h : handleEachArg k av multi first flags a p = .ok (r, p')) :
    p'.resources = p.resources ↔ a.NoDescriptor := handleEachArgWith_keeps h

theorem multiArgs_keeps (h : multiArgs k env avs flags p = .ok (r, p')) :
    p'.resources = p.resources ↔ ∀ i < avs.length, (env i).NoDescriptor := by
  have hrun := handleArgsFrom_keeps env ?_ ?_ h
  · simpa using hrun.2
  · intro i av p r p' hav
    exact handleEachArgWith_le hav
  · intro i av p r p' hav
    exact handleEachArg_keeps hav

/-- With known options, `main` goes on to the operands. -/
theorem main_operands (h : ∀ c ∈ optionChars argv, isFlag c = true) :
    let flags := (optionChars argv).eraseDups
    let operands := argv.drop (optionCount argv)
    main k env name argv p =
      if operands.length ≤ 1 then oneArg k env operands flags p
      else multiArgs k env operands flags p := by
  obtain ⟨s, seen, hs, hflags, hret⟩ := setFlagsNm_ok name argv
  rw [if_pos h] at hret
  obtain ⟨h1, rfl, h3, h4⟩ := hret
  have hlen := length_eraseDups_le hflags.options
  have hstr : s.loop.flags.cstr 0 = (optionChars argv).eraseDups := by
    rw [hflags.flags]
    apply cstr_ofBytes
    · intro c hc
      exact isFlag_ne_zero (h c (List.mem_eraseDups.mp hc))
    · omega
  have hdrop : (argv.drop (optionCount argv)).length = argv.length - optionCount argv :=
    List.length_drop
  rw [main, hs, ok_bind]
  simp only
  rw [if_neg (by omega), hstr, h1, show ((optionCount argv : Int) + 1).toNat = optionCount argv + 1
    by omega, h3, h4]
  rw [show p.write2 [] = p by simp [Process.write2], hdrop]
  refine if_congr ?_ rfl rfl
  omega

end NmOtool.Nm
