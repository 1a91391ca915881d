import NmOtool.Common.Report
import NmOtool.Otool.Args
import NmOtool.Otool.Relocate

/-!
# What the two programs report

The report of a program on its operands is put together from the reports on each of them, which
depend on nothing but the operand, and for `ft_nm` its place and the options. Of the options only
their set counts: `-rp`, `-p -r` and `-prp` are one command.
-/

namespace NmOtool.Nm

open MachO Checked

variable {k : Kernel} {env : Nat → Answers} {m : Buffer} {av name name' flags flags' : List UInt8}
  {avs argv argv' : List (List UInt8)} {a : Answers} {p p' : Process} {r : Nat}
  {multi first mu : Bool} {num : TNu} {o : Outcome} {list : List TNm}

/-- `nm` fails exactly when it writes to the standard error. -/
theorem nm_err (h : nm m name num flags = .ok o) : o.ret < 0 ↔ o.err ≠ [] := by
  have hrefused : ∀ {e}, ascii e ≠ [] → ((putErrorWithReturn name e).ret < 0 ↔
      (putErrorWithReturn name e).err ≠ []) := fun he =>
    iff_of_true (show (-1 : Int) < 0 by decide) fun hnil => he (List.append_eq_nil_iff.mp hnil).2
  unfold nm at h
  split at h
  · obtain ⟨magic, -, h⟩ := bind_eq_ok.mp h
    split at h
    · cases h
      exact hrefused (by simp [ascii])
    · obtain ⟨⟨list, m₁⟩, -, h⟩ := bind_eq_ok.mp h
      obtain ⟨sorted, -, h⟩ := bind_eq_ok.mp h
      obtain ⟨res, hres, h⟩ := bind_eq_ok.mp h
      cases h
      unfold printNmList at hres
      split at hres
      · cases hres
        exact iff_of_true (show (-1 : Int) < 0 by decide) (by simp [ascii])
      · obtain ⟨lines, -, hres⟩ := bind_eq_ok.mp hres
        cases hres
        exact iff_of_false (Int.lt_irrefl 0) fun hne => hne rfl
  · cases h
    exact hrefused (by simp [ascii])

/-! ## Options -/

/-- Two strings of options with the same options in them. -/
def SameOptions (flags flags' : List UInt8) : Prop := ∀ c, c ∈ flags ↔ c ∈ flags'

theorem ftStrchr_same (h : SameOptions flags flags') {c : UInt8} (hc : c ≠ 0) :
    ftStrchr flags c = ftStrchr flags' c := by
  rw [ftStrchr_eq hc, ftStrchr_eq hc]
  exact decide_eq_decide.mpr (h c)

theorem canShowList_same (h : SameOptions flags flags') {type : UInt8} :
    canShowList type flags = canShowList type flags' := by
  unfold canShowList
  simp only [ftStrchr_same h (show 'u'.toUInt8 ≠ 0 by decide),
    ftStrchr_same h (show 'U'.toUInt8 ≠ 0 by decide),
    ftStrchr_same h (show 'g'.toUInt8 ≠ 0 by decide)]

theorem printRecords_same (h : SameOptions flags flags') :
    printRecords m flags list = printRecords m flags' list := by
  induction list with
  | nil => rfl
  | cons t next ih =>
    unfold printRecords
    rw [canShowList_same h, ih]
    unfold printOne
    rw [ftStrchr_same h (show 'u'.toUInt8 ≠ 0 by decide),
      ftStrchr_same h (show 'j'.toUInt8 ≠ 0 by decide)]

theorem nm_same (h : SameOptions flags flags') : nm m name num flags = nm m name num flags' := by
  unfold nm sortNmList sortListByName printNmList
  simp only [ftStrchr_same h (show 'p'.toUInt8 ≠ 0 by decide),
    ftStrchr_same h (show 'r'.toUInt8 ≠ 0 by decide), printRecords_same h]

theorem handleEachArg_same (h : SameOptions flags flags') :
    handleEachArg k av multi first flags a p = handleEachArg k av multi first flags' a p := by
  unfold handleEachArg
  simp only [nm_same h]

/-- Two command lines with the same operands, and the same known options, in whatever grouping,
order and number, are one command. -/
theorem main_options (h : ∀ c ∈ optionChars argv, isFlag c = true)
    (hsame : SameOptions (optionChars argv) (optionChars argv'))
    (hoperands : argv.drop (optionCount argv) = argv'.drop (optionCount argv')) :
    main k env name argv p = main k env name' argv' p := by
  have h' : ∀ c ∈ optionChars argv', isFlag c = true := fun c hc => h c ((hsame c).mpr hc)
  have hflags : SameOptions (optionChars argv).eraseDups (optionChars argv').eraseDups := by
    intro c
    rw [List.mem_eraseDups, List.mem_eraseDups]
    exact hsame c
  rw [show main k env name argv p = _ from main_operands h,
    show main k env name' argv' p = _ from main_operands h', ← hoperands]
  unfold oneArg multiArgs
  simp only [handleEachArg_same hflags]

/-- `ft_nm -rp -r a` and `ft_nm -pr a`. -/
theorem main_options_grouped : main lowestFree (fun _ => missing) (ascii "ft_nm")
      [ascii "-rp", ascii "-r", ascii "a"] .empty =
    main lowestFree (fun _ => missing) (ascii "ft_nm") [ascii "-pr", ascii "a"] .empty :=
  main_options (by decide +kernel) (fun c => by
    rw [show optionChars [ascii "-rp", ascii "-r", ascii "a"] = ascii "rpr" by decide +kernel,
      show optionChars [ascii "-pr", ascii "a"] = ascii "pr" by decide +kernel]
    simp [ascii, or_comm]
    exact .inr) (by decide +kernel)

/-! ## Operands -/

theorem handleEachArg_reported (h : handleEachArg k av multi first flags a p = .ok (r, p')) :
    ∃ rep, Reports (fun k p => handleEachArg k av multi first flags a p) rep ∧ r = rep.status ∧
      p'.out = p.out ++ rep.out ∧ p'.err = p.err ++ rep.err := by
  obtain ⟨rep, hrep, hsaid⟩ := handleEachArgWith_reported h
  exact ⟨rep, handleEachArgWith_reports hrep, hsaid⟩

/-- A run over operands reports what `ft_nm` reports on each of them, one after the other: on any
kernel, and whatever came before. It succeeds exactly if all of them do. -/
theorem multiArgs_reports (h : multiArgs k env avs flags p = .ok (r, p')) :
    ∃ reports : List Report, reports.length = avs.length ∧
      (∀ j av rep, avs[j]? = some av → reports[j]? = some rep →
        Reports (fun k p => handleEachArg k av true (j == 0) flags (env j) p) rep) ∧
      p'.out = p.out ++ (Report.join reports).out ∧
      p'.err = p.err ++ (Report.join reports).err ∧
      (r = EXIT_SUCCESS ↔ ∀ rep ∈ reports, rep.status = EXIT_SUCCESS) := by
  obtain ⟨reports, hlen, hreports, hstatus, hout, herr⟩ := handleArgsFrom_reports
    (fun k i av p => handleEachArg k av true (i == 0) flags (env i) p)
    (fun i av k p r p' h => handleEachArg_reported h) h
  refine ⟨reports, hlen, fun j av rep hav hrep => ?_, hout, herr, ?_⟩
  · have := hreports j av rep hav hrep
    rwa [Nat.zero_add] at this
  · rw [hstatus, Nat.zero_or, Report.join_status]

/-- A call says what fails on the standard error, and only then writes there, but for two cases: a
directory is reported and read all the same, and a file whose first `fstat` fails is passed over in
silence. -/
theorem handleEachArg_err (h : handleEachArg k av multi first flags a p = .ok (r, p')) :
    (r = EXIT_SUCCESS → p'.err = p.err ++ a.note av) ∧
      (r ≠ EXIT_SUCCESS → (p'.err = p.err ↔ a.opens = .opened ∧ a.isDir = none)) := by
  obtain ⟨rep, hrep, rfl, -, herr⟩ := handleEachArgWith_reported h
  obtain ⟨hok, hfail⟩ := reportOn_err (fun m o hm => nm_err hm) hrep
  rw [herr]
  refine ⟨fun hs => by rw [hok hs], fun hs => ?_⟩
  rw [List.append_right_eq_self, hfail hs]

end NmOtool.Nm

namespace NmOtool.Otool

open MachO Checked

variable {k : Kernel} {env : Nat → Answers} {m : Buffer} {av name : List UInt8}
  {avs : List (List UInt8)} {a : Answers} {p p' : Process} {r : Nat} {x s : Bool}
  {o : Nm.Outcome}

/-- `otool` fails exactly when it writes to the standard error. -/
theorem otool_err (h : otool m name = .ok o) : o.ret < 0 ↔ o.err ≠ [] := by
  unfold otool at h
  split at h
  · next hsafe =>
    have h32 := (isSafe_natCast m 32).mp hsafe
    obtain ⟨magic, -, h⟩ := bind_eq_ok.mp h
    split at h
    · cases h
      exact iff_of_true (show (-1 : Int) < 0 by decide) (by simp [ascii])
    · obtain ⟨⟨ret, out, m₁⟩, hrun, h⟩ := bind_eq_ok.mp h
      cases h
      obtain rfl : ret = 0 := by
        unfold handleOtool at hrun
        split at hrun
        · unfold handleFat at hrun
          rw [if_pos ((isSafe_natCast m _).mpr (by unfold fatHeaderSize; omega))] at hrun
          obtain ⟨nb, -, hrun⟩ := bind_eq_ok.mp hrun
          obtain ⟨fat, -, hrun⟩ := bind_eq_ok.mp hrun
          obtain ⟨res, -, hrun⟩ := bind_eq_ok.mp hrun
          cases hrun
          rfl
        · exact handleNotFat_ret h32 hrun
      exact iff_of_false (Int.lt_irrefl 0) fun hne => hne rfl
  · cases h
    exact iff_of_true (show (-1 : Int) < 0 by decide) (by simp [ascii])

theorem handleEachArg_reported (h : handleEachArg k av a p = .ok (r, p')) :
    ∃ rep, Reports (fun k p => handleEachArg k av a p) rep ∧ r = rep.status ∧
      p'.out = p.out ++ rep.out ∧ p'.err = p.err ++ rep.err := by
  obtain ⟨rep, hrep, hsaid⟩ := handleEachArgWith_reported h
  exact ⟨rep, handleEachArgWith_reports hrep, hsaid⟩

/-- The report of `ft_otool` on its operands; without any it writes its usage, and succeeds. -/
theorem handleArgs_reports (h : handleArgs k env avs p = .ok (r, p')) :
    ∃ reports : List Report, reports.length = avs.length ∧
      (∀ j av rep, avs[j]? = some av → reports[j]? = some rep →
        Reports (fun k p => handleEachArg k av (env j) p) rep) ∧
      p'.out = p.out ++ (Report.join reports).out ∧
      p'.err = p.err ++ (if avs = [] then ascii "ft_otool: At least one file must be specified.\n"
        else []) ++ (Report.join reports).err ∧
      (r = EXIT_SUCCESS ↔ ∀ rep ∈ reports, rep.status = EXIT_SUCCESS) := by
  unfold handleArgs at h
  obtain ⟨reports, hlen, hreports, hstatus, hout, herr⟩ := handleArgsFrom_reports
    (fun k i av p => handleEachArg k av (env i) p)
    (fun i av k p r p' h => handleEachArg_reported h) h
  refine ⟨reports, hlen, fun j av rep hav hrep => ?_, ?_, ?_, ?_⟩
  · have := hreports j av rep hav hrep
    rwa [Nat.zero_add] at this
  · rw [hout]
    split <;> rfl
  · rw [herr]
    split
    · rfl
    · rw [List.append_nil]
  · rw [hstatus, Nat.zero_or, Report.join_status]

/-- As in `ft_nm`, but a directory is a failure. -/
theorem handleEachArg_err (h : handleEachArg k av a p = .ok (r, p')) :
    (r = EXIT_SUCCESS → p'.err = p.err) ∧
      (r ≠ EXIT_SUCCESS → (p'.err = p.err ↔ a.opens = .opened ∧ a.isDir = none)) := by
  obtain ⟨rep, hrep, rfl, -, herr⟩ := handleEachArgWith_reported h
  obtain ⟨hok, hfail⟩ := reportOn_err (fun m o hm => otool_err hm) hrep
  rw [herr]
  refine ⟨fun hs => ?_, fun hs => by rw [List.append_right_eq_self, hfail hs]⟩
  have hdir : a.isDir ≠ some true := by
    intro hd
    have hfails : ¬ EXIT_FAILURE = EXIT_SUCCESS := by decide
    unfold reportOn at hrep
    rw [hd] at hrep
    split at hrep
    · cases hrep
      exact absurd hs hfails
    · cases hrep
      exact absurd hs hfails
    · rw [if_neg (by simp), if_pos ⟨rfl, rfl⟩] at hrep
      cases hrep
      exact absurd hs hfails
  rw [hok hs, Answers.note, if_neg hdir, List.append_nil]

end NmOtool.Otool

namespace NmOtool

open MachO Checked

/-- A run over operands reports what the program reports on each of them, one after the other: on
any kernel, whatever came before and whatever the process holds. It succeeds exactly if all calls
do. -/
theorem runs_report (k : Kernel) (env : Nat → Answers) (avs : List (List UInt8)) (p p' : Process)
    (r : Nat) :
    (∀ flags, Nm.multiArgs k env avs flags p = .ok (r, p') → ∃ reports : List Report,
      reports.length = avs.length ∧
      (∀ j av rep, avs[j]? = some av → reports[j]? = some rep →
        Reports (fun k p => Nm.handleEachArg k av true (j == 0) flags (env j) p) rep) ∧
      p'.out = p.out ++ (Report.join reports).out ∧
      p'.err = p.err ++ (Report.join reports).err ∧
      (r = EXIT_SUCCESS ↔ ∀ rep ∈ reports, rep.status = EXIT_SUCCESS)) ∧
    (Otool.handleArgs k env avs p = .ok (r, p') → ∃ reports : List Report,
      reports.length = avs.length ∧
      (∀ j av rep, avs[j]? = some av → reports[j]? = some rep →
        Reports (fun k p => Otool.handleEachArg k av (env j) p) rep) ∧
      p'.out = p.out ++ (Report.join reports).out ∧
      p'.err = p.err ++ (if avs = [] then ascii "ft_otool: At least one file must be specified.\n"
        else []) ++ (Report.join reports).err ∧
      (r = EXIT_SUCCESS ↔ ∀ rep ∈ reports, rep.status = EXIT_SUCCESS)) :=
  ⟨fun _ h => Nm.multiArgs_reports h, fun h => Otool.handleArgs_reports h⟩

/-- Two files that are missing: `ft_otool` reports each as if it were alone, and fails. -/
theorem runs_report_missing : ∃ reports : List Report, reports.length = 2 ∧
    (∀ (j : Nat) (av : List UInt8) (rep : Report), [ascii "a", ascii "b"][j]? = some av →
      reports[j]? = some rep → Reports (fun k p => Otool.handleEachArg k av missing p) rep) ∧
    ¬ ∀ rep ∈ reports, rep.status = EXIT_SUCCESS := by
  obtain ⟨p', hrun⟩ : ∃ p', Otool.handleArgs lowestFree (fun _ => missing) [ascii "a", ascii "b"]
      .empty = .ok (1, p') := ⟨_, rfl⟩
  obtain ⟨reports, hlen, hreports, -, -, hstatus⟩ :=
    (runs_report lowestFree (fun _ => missing) [ascii "a", ascii "b"] .empty p' 1).2 hrun
  exact ⟨reports, hlen, hreports, fun hall => absurd (hstatus.mpr hall) (by decide)⟩

/-- In both programs a call that succeeds leaves the standard error alone, but for what `ft_nm`
says of a directory that it reads all the same. A call that fails says so, but for one case: a file
that is opened and whose `fstat` fails is passed over in silence. -/
theorem failures_said (k : Kernel) (a : Answers) (p p' : Process) (r : Nat) :
    (∀ av multi first flags, Nm.handleEachArg k av multi first flags a p = .ok (r, p') →
      (r = EXIT_SUCCESS → p'.err = p.err ++ a.note av) ∧
      (r ≠ EXIT_SUCCESS → (p'.err = p.err ↔ a.opens = .opened ∧ a.isDir = none))) ∧
    (∀ av, Otool.handleEachArg k av a p = .ok (r, p') →
      (r = EXIT_SUCCESS → p'.err = p.err) ∧
      (r ≠ EXIT_SUCCESS → (p'.err = p.err ↔ a.opens = .opened ∧ a.isDir = none))) :=
  ⟨fun _ _ _ _ h => Nm.handleEachArg_err h, fun _ h => Otool.handleEachArg_err h⟩

/-- `ft_nm` says that a file is missing. -/
theorem failures_said_missing : ∃ p',
    Nm.handleEachArg lowestFree (ascii "a") false true [] missing .empty = .ok (1, p') ∧
      p'.err ≠ [] := by
  obtain ⟨p', hrun⟩ : ∃ p', Nm.handleEachArg lowestFree (ascii "a") false true [] missing .empty =
      .ok (1, p') := ⟨_, rfl⟩
  refine ⟨p', hrun, fun he => ?_⟩
  have hsaid := (failures_said lowestFree missing .empty p' 1).1 _ _ _ _ hrun
  exact absurd ((hsaid.2 (by decide)).mp he).1 (by decide)

end NmOtool
