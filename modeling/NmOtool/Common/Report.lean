import NmOtool.Common.Process

/-!
# What a run reports

The status of a run and the texts that it writes. A call reports the same whatever the process has
open or mapped, whatever it has written, and whichever descriptors and addresses the kernel
chooses; and a run over arguments reports what the calls report, one after the other.
-/

namespace NmOtool

open MachO Checked
open Nm (Outcome)

structure Report where
  status : Nat
  out : List UInt8
  err : List UInt8

/-- The report of one run after another. -/
def Report.join (reports : List Report) : Report where
  status := reports.foldr (fun r status => r.status ||| status) EXIT_SUCCESS
  out := reports.flatMap Report.out
  err := reports.flatMap Report.err

/-- The run returns and writes this, on every kernel and from every state of the process. -/
def Reports (run : Kernel → Process → Checked (Nat × Process)) (rep : Report) : Prop :=
  ∀ k p, ∃ p', run k p = .ok (rep.status, p') ∧ p'.out = p.out ++ rep.out ∧ p'.err = p.err ++ rep.err

variable {dirFails : Bool} {parse : Buffer → Checked Outcome} {k : Kernel} {av : List UInt8}
  {a : Answers} {p p' : Process} {r i res : Nat} {avs : List (List UInt8)}

/-! ## One argument -/

/-- What `get_fd` says of a directory. -/
def Answers.note (a : Answers) (av : List UInt8) : List UInt8 :=
  if a.isDir = some true then av ++ ascii ": Is a direcrory.\n" else []

/-- The report on an argument whose file is parsed with the outcome `o`. -/
def Answers.parsed (a : Answers) (av : List UInt8) (o : Outcome) : Report :=
  if o.ret < 0 then ⟨EXIT_FAILURE, o.out, a.note av ++ o.err⟩
  else if a.unmaps then ⟨EXIT_SUCCESS, o.out, a.note av ++ o.err⟩
  else ⟨EXIT_FAILURE, o.out, a.note av ++ o.err ++ ascii "munmap"⟩

/-- The report on an argument. -/
def reportOn (dirFails : Bool) (parse : Buffer → Checked Outcome) (av : List UInt8) (a : Answers) :
    Checked Report :=
  match a.opens with
  | .denied => pure ⟨EXIT_FAILURE, [], av ++ ascii ": Permission denied.\n"⟩
  | .failed => pure ⟨EXIT_FAILURE, [], av ++ ascii ": No such file or directory.\n"⟩
  | .opened =>
    if a.isDir = none then pure ⟨EXIT_FAILURE, [], []⟩
    else if a.isDir = some true ∧ dirFails then pure ⟨EXIT_FAILURE, [], a.note av⟩
    else
      match a.size, a.bytes with
      | none, _ => pure ⟨EXIT_FAILURE, [], a.note av ++ ascii "fstat"⟩
      | some _, none => pure ⟨EXIT_FAILURE, [], a.note av ++ ascii "mmap"⟩
      | some size, some byte => do
        let o ← parse { size, byte }
        pure (a.parsed av o)

theorem getFdWith_opened (dirFails : Bool) (k : Kernel) (av : List UInt8) (p : Process)
    (ho : a.opens = .opened) (hd : a.isDir ≠ none) : ∃ (fd : Nat) (q : Process),
    getFdWith dirFails k av a p = (if a.isDir = some true ∧ dirFails then (-1 : Int) else fd, q) ∧
      q.out = p.out ∧ q.err = p.err ++ a.note av := by
  unfold getFdWith Answers.note
  rw [ho]
  obtain ⟨d, hd⟩ := Option.ne_none_iff_exists'.mp hd
  rw [hd]
  cases d with
  | false => exact ⟨k.fd p.fds, (p.openFd k).2, rfl, rfl, (List.append_nil _).symm⟩
  | true =>
    refine ⟨k.fd p.fds, (p.openFd k).2.putError av (ascii ": Is a direcrory.\n"), ?_, rfl, ?_⟩
    · cases dirFails <;> rfl
    · exact List.append_assoc _ _ _

/-- The state of the process that holds what `held` holds, after the report. -/
def Report.after (rep : Report) (held p : Process) : Process :=
  { held with out := p.out ++ rep.out, err := p.err ++ rep.err }

theorem Report.after_eq {rep : Report} {q : Process} (ho : q.out = p.out ++ rep.out)
    (he : q.err = p.err ++ rep.err) : q = rep.after q p := by
  rw [Report.after, ← ho, ← he]

/-- A call does what its report says; the rest is what it holds of the system. -/
theorem handleEachArgWith_report (dirFails : Bool) (parse : Buffer → Checked Outcome)
    (av : List UInt8) (a : Answers) (k : Kernel) (p : Process) : ∃ held : Process,
    handleEachArgWith dirFails parse k av a p = reportOn dirFails parse av a >>= fun rep =>
      .ok (rep.status, rep.after held p) := by
  unfold handleEachArgWith reportOn
  cases ho : a.opens with
  | denied => exact ⟨p, by simp [getFdWith, ho, Report.after, Process.putError, Process.write2]⟩
  | failed => exact ⟨p, by simp [getFdWith, ho, Report.after, Process.putError, Process.write2]⟩
  | opened =>
    simp only
    by_cases hd : a.isDir = none
    · rw [if_pos hd]
      refine ⟨(p.openFd k).2.close (p.openFd k).1, ?_⟩
      simp [getFdWith, ho, hd, Report.after, Process.openFd, Process.close]
    · rw [if_neg hd]
      obtain ⟨fd, q, hq, hout, herr⟩ := getFdWith_opened dirFails k av p ho hd
      rw [hq]
      simp only
      by_cases hfail : a.isDir = some true ∧ dirFails
      · rw [if_pos hfail, if_pos hfail, if_pos (by decide)]
        have hq : q = Report.after ⟨EXIT_FAILURE, [], a.note av⟩ q p :=
          Report.after_eq (by simp [hout]) herr
        exact ⟨q, congrArg (fun q => Checked.ok (EXIT_FAILURE, q)) hq⟩
      · rw [if_neg hfail, if_neg hfail, if_neg (Int.not_lt.mpr (Int.natCast_nonneg _))]
        cases hsize : a.size with
        | none =>
          refine ⟨q.write2 (ascii "fstat"), ?_⟩
          simp [Report.after, Process.write2, hout, herr]
        | some size =>
          cases hbytes : a.bytes with
          | none =>
            refine ⟨q.write2 (ascii "mmap"), ?_⟩
            simp [Report.after, Process.write2, hout, herr]
          | some byte =>
            simp only
            cases hparse : parse { size, byte } with
            | fault => exact ⟨p, rfl⟩
            | ok o =>
              simp only [ok_bind, pure_eq, Answers.parsed]
              by_cases hret : o.ret < 0
              · refine ⟨(q.mmap k).2, ?_⟩
                simp [hret, Report.after, Process.mmap, Process.wrote, hout, herr]
              · rw [if_neg hret, if_neg hret]
                by_cases hu : a.unmaps = true
                · refine ⟨(q.mmap k).2.munmap (q.mmap k).1, ?_⟩
                  simp [hu, Report.after, Process.mmap, Process.munmap, Process.wrote, hout, herr]
                · refine ⟨(q.mmap k).2, ?_⟩
                  simp [hu, Report.after, Process.mmap, Process.wrote, Process.write2, hout, herr]

theorem handleEachArgWith_reports {rep : Report} (h : reportOn dirFails parse av a = .ok rep) :
    Reports (fun k p => handleEachArgWith dirFails parse k av a p) rep := by
  intro k p
  obtain ⟨held, hrun⟩ := handleEachArgWith_report dirFails parse av a k p
  rw [h] at hrun
  exact ⟨rep.after held p, hrun, rfl, rfl⟩

/-- What a call returns and writes is its report. -/
theorem handleEachArgWith_reported (h : handleEachArgWith dirFails parse k av a p = .ok (r, p')) :
    ∃ rep, reportOn dirFails parse av a = .ok rep ∧ r = rep.status ∧ p'.out = p.out ++ rep.out ∧
      p'.err = p.err ++ rep.err := by
  obtain ⟨held, hrun⟩ := handleEachArgWith_report dirFails parse av a k p
  rw [hrun] at h
  obtain ⟨rep, hrep, h⟩ := bind_eq_ok.mp h
  cases h
  exact ⟨rep, hrep, rfl, rfl, rfl⟩

/-- A call that succeeds writes nothing on the standard error but what `get_fd` says of a
directory; one that fails leaves it empty only if the file is opened and its `fstat` fails. -/
theorem reportOn_err {rep : Report} (hparse : ∀ m o, parse m = .ok o → (o.ret < 0 ↔ o.err ≠ []))
    (h : reportOn dirFails parse av a = .ok rep) :
    (rep.status = EXIT_SUCCESS → rep.err = a.note av) ∧
      (rep.status ≠ EXIT_SUCCESS → (rep.err = [] ↔ a.opens = .opened ∧ a.isDir = none)) := by
  -- a failure with a message, on a file that `get_fd` does not give up silently
  have hsaid : ∀ {rep : Report}, rep.status = EXIT_FAILURE → rep.err ≠ [] →
      ¬ (a.opens = .opened ∧ a.isDir = none) →
      (rep.status = EXIT_SUCCESS → rep.err = a.note av) ∧
        (rep.status ≠ EXIT_SUCCESS → (rep.err = [] ↔ a.opens = .opened ∧ a.isDir = none)) := by
    intro rep hs he hno
    rw [hs]
    exact ⟨fun h => absurd h (by decide), fun _ => iff_of_false he hno⟩
  unfold reportOn at h
  cases ho : a.opens with
  | denied =>
    rw [ho] at h
    cases h
    exact ho ▸ hsaid rfl (by simp [ascii]) fun hc => by simp [ho] at hc
  | failed =>
    rw [ho] at h
    cases h
    exact ho ▸ hsaid rfl (by simp [ascii]) fun hc => by simp [ho] at hc
  | opened =>
    rw [ho] at h hsaid
    simp only at h
    split at h
    · next hd =>
      cases h
      rw [hd]
      exact ⟨fun h => absurd h (by decide), fun _ => iff_of_true rfl ⟨rfl, rfl⟩⟩
    · next hd =>
      have hno : ¬ (OpenAnswer.opened = .opened ∧ a.isDir = none) := fun hc => hd hc.2
      split at h
      · next hdir =>
        cases h
        exact hsaid rfl (by simp [Answers.note, hdir.1, ascii]) hno
      · next hdir =>
        split at h
        · cases h
          exact hsaid rfl (by simp [ascii]) hno
        · cases h
          exact hsaid rfl (by simp [ascii]) hno
        · obtain ⟨o, hrun, h⟩ := bind_eq_ok.mp h
          cases h
          have hiff := hparse _ o hrun
          unfold Answers.parsed
          by_cases hret : o.ret < 0
          · rw [if_pos hret]
            exact hsaid rfl (by simp [hiff.mp hret]) hno
          · have hnone : o.err = [] := not_not.mp fun he => hret (hiff.mpr he)
            rw [if_neg hret, hnone]
            split
            · refine ⟨fun _ => List.append_nil _, fun hne => absurd rfl hne⟩
            · exact hsaid rfl (by simp [ascii]) hno

/-! ## Runs -/

/-- What a run over arguments reports: the reports of its calls, one after the other. -/
theorem handleArgsFrom_reports (each : Kernel → Nat → List UInt8 → Process →
      Checked (Nat × Process))
    (heach : ∀ i av k p r p', each k i av p = .ok (r, p') → ∃ rep,
      Reports (fun k p => each k i av p) rep ∧ r = rep.status ∧ p'.out = p.out ++ rep.out ∧
        p'.err = p.err ++ rep.err)
    (h : handleArgsFrom (each k) avs i res p = .ok (r, p')) : ∃ reports : List Report,
      reports.length = avs.length ∧
      (∀ j av rep, avs[j]? = some av → reports[j]? = some rep →
        Reports (fun k p => each k (i + j) av p) rep) ∧
      r = res ||| (Report.join reports).status ∧ p'.out = p.out ++ (Report.join reports).out ∧
      p'.err = p.err ++ (Report.join reports).err := by
  induction avs generalizing i res p with
  | nil =>
    cases h
    exact ⟨[], rfl, by simp, (Nat.or_zero r).symm, (List.append_nil _).symm,
      (List.append_nil _).symm⟩
  | cons av avs ih =>
    unfold handleArgsFrom at h
    obtain ⟨⟨s, q⟩, hcall, h⟩ := bind_eq_ok.mp h
    obtain ⟨rep, hrep, rfl, hout, herr⟩ := heach _ _ _ _ _ _ hcall
    obtain ⟨reports, hlen, hreports, hstatus, hout', herr'⟩ := ih h
    refine ⟨rep :: reports, by simp [hlen], ?_, ?_, ?_, ?_⟩
    · intro j av' rep' hav hrep'
      cases j with
      | zero =>
        cases hav
        cases hrep'
        exact hrep
      | succ j =>
        rw [Nat.add_comm j 1, ← Nat.add_assoc]
        exact hreports j av' rep' hav hrep'
    · rw [hstatus, Nat.or_assoc]
      rfl
    · rw [hout', hout, List.append_assoc]
      rfl
    · rw [herr', herr, List.append_assoc]
      rfl

/-- The status of a run is 0 exactly if that of each call is. -/
theorem Report.join_status {reports : List Report} :
    (Report.join reports).status = EXIT_SUCCESS ↔ ∀ rep ∈ reports, rep.status = EXIT_SUCCESS := by
  unfold Report.join EXIT_SUCCESS
  induction reports with
  | nil => simp
  | cons rep reports ih =>
    simp only at ih
    rw [List.foldr_cons, Nat.or_eq_zero_iff, ih, List.forall_mem_cons]

end NmOtool
