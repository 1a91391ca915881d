import NmOtool.Base.Below
import NmOtool.Common.Extract
import NmOtool.Nm.Atomic

/-!
# Truncated files

A well-formed thin file that is cut off behind its load commands. What is missing can make a program
fail, or leave the map, but it never changes what is printed of the rest.
-/

namespace NmOtool

open MachO Checked

variable {m : Buffer} {x : Bool} {n p q : Nat}

/-! ## Readers -/

theorem strAt_take (hn : n ≤ m.size) (k : Nat) : Below (strAt (m.take n) p k) (strAt m p k) :=
  Buffer.load_take hn

theorem ftStrcmpFrom_below {s t s' t' : Nat → Checked UInt8} (hs : ∀ k, Below (s k) (s' k))
    (ht : ∀ k, Below (t k) (t' k)) : ∀ fuel fuel' k, fuel ≤ fuel' →
      Below (ftStrcmpFrom s t fuel k) (ftStrcmpFrom s' t' fuel' k) := by
  intro fuel
  induction fuel with
  | zero => exact fun _ _ _ => .fault
  | succ fuel ih =>
    intro fuel' k hle
    cases fuel' with
    | zero => omega
    | succ fuel' =>
      rw [ftStrcmpFrom, ftStrcmpFrom]
      refine (hs k).bind fun a _ => (ht k).bind fun b _ => ?_
      exact .ite (ih fuel' (k + 1) (Nat.le_of_succ_le_succ hle)) .refl

theorem ftStrcmp_take (hn : n ≤ m.size) :
    Below (ftStrcmp (m.take n) p (strAt (m.take n) q)) (ftStrcmp m p (strAt m q)) :=
  ftStrcmpFrom_below (strAt_take hn) (strAt_take hn) _ _ 0 (Nat.succ_le_succ hn)

theorem ftStrlenFrom_take (hn : n ≤ m.size) : ∀ fuel fuel' p, fuel ≤ fuel' →
    Below (ftStrlenFrom (m.take n) fuel p) (ftStrlenFrom m fuel' p) := by
  intro fuel
  induction fuel with
  | zero => exact fun _ _ _ => .fault
  | succ fuel ih =>
    intro fuel' p hle
    cases fuel' with
    | zero => omega
    | succ fuel' =>
      rw [ftStrlenFrom, ftStrlenFrom]
      refine (Buffer.load_take hn).bind fun b _ => .ite .refl ?_
      exact (ih fuel' (p + 1) (Nat.le_of_succ_le_succ hle)).bind fun s _ => .refl

theorem ftStr_take (hn : n ≤ m.size) : Below (ftStr (m.take n) p) (ftStr m p) :=
  ftStrlenFrom_take hn _ _ p (Nat.succ_le_succ hn)

theorem hexdumpBytes_take (hn : n ≤ m.size) : ∀ count,
    Below (hexdumpBytes (m.take n) p count) (hexdumpBytes m p count) := by
  intro count
  induction count with
  | zero => exact .refl
  | succ count ih => exact (Buffer.load_take hn).bind fun test _ => ih.bind fun rest _ => .refl

theorem isSafe_of_take (hn : n ≤ m.size) (hsz : m.size < 2 ^ 32) {z : Int}
    (h : isSafe (m.take n) z) : isSafe m z := by
  have hm := mapSize_eq hsz
  have ht : mapSize (m.take n) = n := mapSize_eq (Nat.lt_of_le_of_lt hn hsz)
  unfold isSafe at h ⊢
  omega

end NmOtool

/-! ## ft_nm -/

namespace NmOtool.Nm

open MachO Checked

variable {m : Buffer} {x : Bool} {n ptr sym i e : Nat} {flags name : List UInt8} {list : List TNm}
  {a b : TNm} {num : TNu} {o : Outcome}

theorem compareAdd_take (hn : n ≤ m.size) :
    Below (compareAdd (m.take n) a b) (compareAdd m a b) :=
  (Buffer.field_take hn).bind fun _ _ => (Buffer.field_take hn).bind fun _ _ => .refl

theorem compareExchange_take (hn : n ≤ m.size) (a b : TNm) :
    Below (compareExchange (m.take n) a b) (compareExchange m a b) := by
  refine (ftStrcmp_take hn).bind fun c _ => .ite .refl (.ite ?_ .refl)
  exact (compareAdd_take hn).bind fun d _ => .refl

theorem compareExchangeReverse_take (hn : n ≤ m.size) (a b : TNm) :
    Below (compareExchangeReverse (m.take n) a b) (compareExchangeReverse m a b) := by
  refine (ftStrcmp_take hn).bind fun c _ => .ite .refl (.ite ?_ .refl)
  exact (compareAdd_take hn).bind fun d _ => .refl

theorem sortNmList_take (hn : n ≤ m.size) :
    Below (sortNmList (m.take n) list flags) (sortNmList m list flags) := by
  unfold sortNmList
  refine .ite .refl (.ite ?_ .refl)
  unfold sortListByName
  split
  · exact exchangeSort_below (compareExchangeReverse_take hn) list
  · exact exchangeSort_below (compareExchange_take hn) list

theorem printOne_take (hn : n ≤ m.size) :
    Below (printOne (m.take n) flags a) (printOne m flags a) := by
  have hname : ∀ fields, Below (ftStr (m.take n) a.name >>= fun name =>
      pure (fields ++ ftPrintfS name ++ ascii "\n")) (ftStr m a.name >>= fun name =>
      pure (fields ++ ftPrintfS name ++ ascii "\n")) := fun fields =>
    (ftStr_take hn).bind fun name _ => .refl
  unfold printOne
  refine .ite ?_ (hname [])
  exact (hexdumpBytes_take hn _).bind fun address _ => hname _

theorem printRecords_take (hn : n ≤ m.size) : ∀ list,
    Below (printRecords (m.take n) flags list) (printRecords m flags list) := by
  intro list
  induction list with
  | nil => exact .refl
  | cons r next ih =>
    unfold printRecords
    refine .ite ?_ (ih.bind fun rest _ => .refl)
    exact (printOne_take hn).bind fun line _ => ih.bind fun rest _ => .refl

theorem printNmList_take (hn : n ≤ m.size) {mu : Bool} :
    Below (printNmList (m.take n) list name mu flags) (printNmList m list name mu flags) := by
  unfold printNmList
  exact .ite .refl ((printRecords_take hn list).bind fun lines _ => .refl)

theorem headerLetter_take {sec : Nat} : headerLetter (m.take n) sec = headerLetter m sec := by
  have hnamed : ∀ seg sect, IsNamed (m.take n) sec seg sect ↔ IsNamed m sec seg sect := by
    intro seg sect
    rw [IsNamed, IsNamed, HasName, HasName, HasName, HasName, Buffer.bytes_take, Buffer.bytes_take]
  exact if_congr (hnamed _ _) rfl (if_congr (hnamed _ _) rfl (if_congr (hnamed _ _) rfl rfl))

theorem letterAt_take {r : Option Nat} : letterAt (m.take n) x e r = letterAt m x e r := by
  have hdesc : nDesc (m.take n) e = nDesc m e := Buffer.le_take
  have hvalue : nValue (m.take n) x e = nValue m x e := Buffer.le_take
  have hheader : headerLetter (m.take n) = headerLetter m := funext fun _ => headerLetter_take
  rw [letterAt, letterAt, hdesc, hvalue, hheader]
  rfl

/-- The letters of a file are those of the whole file if its load commands are all there. -/
theorem symbolLetter_take (hwf : WellFormed m x ptr sym) (hsz : m.size < 2 ^ 32) (hn : n ≤ m.size)
    (h32 : ptr + 32 ≤ n) (hcmd : ∀ lc ∈ commands m x ptr, WfCommand (m.take n) x lc)
    (hi : i < nsyms m sym) {c : UInt8} {m' : Buffer}
    (h : getSymbolLetter (m.take n) ptr (nlistAt m x ptr sym i) false x = .ok (c, m')) :
    c = symbolLetter m x ptr sym i := by
  have hent : nlistAt m x ptr sym i + nlistSize x ≤ n := by
    have hfits := getSymbolLetter_returns (K := fun _ => True).mp ⟨_, h, trivial⟩
    have hentry : nlistAt m x ptr sym i + 8 + wordSize x ≤ n := hfits.1
    cases x <;>
      simp only [nlistSize, wordSize, Bool.false_eq_true, if_false, if_true] at hentry ⊢ <;> omega
  have hcmd' : ∀ lc ∈ commands (m.take n) x ptr, WfCommand (m.take n) x lc :=
    fun lc hlc => hcmd lc (commands_take (m := m) ▸ hlc)
  have hsect := hwf.table.sect i hi
  have hlook : ∀ hin : InSection (nType m (nlistAt m x ptr sym i)),
      lookup (m.take n) x ptr (nSect m (nlistAt m x ptr sym i)) =
        lookup m x ptr (nSect m (nlistAt m x ptr sym i)) := by
    intro hin
    rw [lookup_eq hcmd' (hsect hin).1 (UInt8.toNat_lt _) (Nat.lt_of_le_of_lt hn hsz) h32,
      lookup_eq hwf.command (hsect hin).1 (UInt8.toNat_lt _) hsz (Nat.le_trans h32 hn),
      sections_take]
  have hhost : getSymbolLetter (m.take n) ptr (nlistAt m x ptr sym i) false x =
      .ok (letterAt (m.take n) x (nlistAt m x ptr sym i)
        (lookup (m.take n) x ptr (nSect m (nlistAt m x ptr sym i))), m.take n) :=
    getSymbolLetter_host hent (fun hin => (lookup_host hcmd' (hsect hin).1 (UInt8.toNat_lt _)).1)
      fun hin => (lookup_host hcmd' (hsect hin).1 (UInt8.toNat_lt _)).2
  rw [h] at hhost
  obtain rfl : c = letterAt m x (nlistAt m x ptr sym i)
      (lookup (m.take n) x ptr (nSect m (nlistAt m x ptr sym i))) :=
    (Prod.mk.inj (Checked.ok.inj hhost)).1.trans letterAt_take
  by_cases hin : InSection (nType m (nlistAt m x ptr sym i))
  · rw [hlook hin, symbolLetter]
  · rw [symbolLetter, letterAt, letterAt, classify_of_not_inSection hin]

theorem entryChecked_of_take (hn : n ≤ m.size) (hsz : m.size < 2 ^ 32)
    (h : EntryChecked (m.take n) x ptr sym i) : EntryChecked m x ptr sym i :=
  ⟨isSafe_of_take hn hsz h.1, isSafe_of_take hn hsz h.2.1, isSafe_of_take hn hsz h.2.2⟩

/-- A list of a file that is cut off is the list of the whole file. -/
theorem handleNotFat_take (hwf : WellFormed m x ptr sym) (hsz : m.size < 2 ^ 32) (hn : n ≤ m.size)
    (h32 : ptr + 32 ≤ n) (hcmd : ∀ lc ∈ commands m x ptr, WfCommand (m.take n) x lc)
    {m' : Buffer} (hne : list ≠ [])
    (h : handleNotFat (m.take n) x false ptr = .ok (list, m')) :
    m' = m.take n ∧ handleNotFat m x false ptr = .ok (list, m) := by
  have hok : handleNotFat (m.take n) x false ptr ≠ .fault := h ▸ nofun
  obtain ⟨list', hlist, hcases⟩ := handleNotFat_complete hok
  rw [h] at hlist
  cases hlist
  refine ⟨rfl, ?_⟩
  obtain ⟨sym', hc, hall⟩ | ⟨-, rfl⟩ := hcases
  · obtain rfl : sym' = sym := by
      have hsym : symtabCommand m x ptr = some sym' := by
        rw [← hc.symtab, symtabCommand, symtabCommand, commands_take]
        rfl
      exact Option.some.inj (hsym.symm.trans hwf.symtab)
    have hlisted : Listed m x ptr sym' := by
      have hm := mapSize_eq hsz
      have ht : mapSize (m.take n) = n := mapSize_eq (Nat.lt_of_le_of_lt hn hsz)
      have h24 := hc.listed.1
      exact ⟨by omega, fun i hi => entryChecked_of_take hn hsz (hc.listed.2 i hi)⟩
    have hrecords : list = records m x ptr sym' := by
      have hlen : list.length = nsyms m sym' := hall.length
      apply List.ext_getElem (by simp [records, hlen])
      intro i h1 h2
      have hi : i < nsyms m sym' := hlen ▸ h1
      have hbuilt := hall.entry i list[i] (List.getElem?_eq_getElem h1)
      have hletter := symbolLetter_take hwf hsz hn h32 hcmd hi hbuilt.letter
      have hname : (list[i].name : Int) = nameRef m x ptr sym' i := hbuilt.name
      have hr : list[i] = ⟨list[i].is64, list[i].type, list[i].add, list[i].name⟩ := rfl
      have hadd : list[i].add = nlistAt m x ptr sym' i + 8 := hbuilt.add
      simp only [records, List.getElem_map, List.getElem_range]
      rw [hr, hbuilt.is64, hletter, hadd, record, ← hname, Int.toNat_natCast]
    rw [handleNotFat_host hwf, if_pos hlisted, hrecords]
  · exact absurd rfl hne

theorem nm_ret (h : nm m name num flags = .ok o) : o.ret = 0 ∨ o.ret = -1 := by
  unfold nm at h
  split at h
  · obtain ⟨magic, -, h⟩ := bind_eq_ok.mp h
    split at h
    · cases h
      exact .inr rfl
    · obtain ⟨⟨list, m₁⟩, -, h⟩ := bind_eq_ok.mp h
      obtain ⟨sorted, -, h⟩ := bind_eq_ok.mp h
      obtain ⟨res, hres, h⟩ := bind_eq_ok.mp h
      cases h
      unfold printNmList at hres
      split at hres
      · cases hres
        exact .inr rfl
      · obtain ⟨lines, -, hres⟩ := bind_eq_ok.mp hres
        cases hres
        exact .inl rfl
  · cases h
    exact .inr rfl

/-- A well-formed file that is cut off behind its load commands is listed as the whole file, or no
symbol of it is listed and the run fails. -/
theorem nm_cutShort (hwf : WellFormed m x 0 sym) (hsz : m.size < 2 ^ 32) (hn : n ≤ m.size)
    (hcmd : ∀ lc ∈ commands m x 0, WfCommand (m.take n) x lc)
    (h : nm (m.take n) name num flags = .ok o) :
    o.ret = 0 ∧ nm m name num flags = .ok o ∨ o.ret = -1 ∧ (o.out = [] ∨ o.out = ascii "\n") := by
  obtain ⟨h1, h2, h3, h4, h5⟩ := WellFormed.dispatch hwf
  have hthin : notValidHeader (m.le 4 0) = false := by
    rw [hwf.magic]
    cases x <;> decide
  rcases nm_ret h with hret | hret
  · refine .inl ⟨hret, ?_⟩
    obtain ⟨h32, list, f', sorted, hne, hlist, hsorted, res, hres, rfl⟩ :=
      nm_thin_listed (f := m.take n) hthin h hret
    have ht : mapSize (m.take n) = n := mapSize_eq (Nat.lt_of_le_of_lt hn hsz)
    have hmagic : (m.take n).le 4 0 = m.le 4 0 := rfl
    rw [hmagic, h4, h5] at hlist
    obtain ⟨rfl, hwhole⟩ := handleNotFat_take hwf hsz hn (by omega) hcmd hne hlist
    rw [nm, if_pos ((isSafe_natCast m 32).mpr (by have := mapSize_eq hsz; omega)), h1, ok_bind,
      if_neg (by rw [h2]; decide)]
    simp only [h3, h4, h5, handleNm]
    rw [if_neg Bool.false_ne_true, hwhole, ok_bind]
    simp only
    rw [sortNmList_take hn _ hsorted, ok_bind, printNmList_take hn _ hres]
    rfl
  · exact .inr ⟨hret, nm_silent h hret⟩

/-- The small file without what follows its names. -/
theorem nm_cutShort_smallFile : nm ((smallFile true).image .little true) (ascii "a") ⟨false, true⟩
    [] = .ok ⟨0, ascii "0000000000001000 T _f\n0000000000000000 U _g\n", []⟩ := by
  have hwf := (smallFile_wf true).wellFormed (smallFile_encodes .little true)
  have hcmd : ∀ lc ∈ commands ((smallFile true).image .little true) true 0,
      Otool.WfTextCommand (((smallFile true).image .little true).take 247) true lc := by
    decide +kernel
  have hcut := nm_cutShort (n := 247) hwf (by decide +kernel) (by decide +kernel)
    (fun lc hlc => (hcmd lc hlc).toWfCommand) (by decide +kernel :
      nm (((smallFile true).image .little true).take 247) (ascii "a") ⟨false, true⟩ [] =
        .ok ⟨0, ascii "0000000000001000 T _f\n0000000000000000 U _g\n", []⟩)
  exact (hcut.resolve_right fun h => absurd h.1 (by decide)).2

end NmOtool.Nm

/-! ## ft_otool -/

namespace NmOtool.Otool

open MachO Checked

variable {m : Buffer} {x : Bool} {n ptr sec : Nat}

theorem header_inside (hcmd : ∀ lc ∈ commands m x ptr, WfTextCommand m x lc)
    (htext : (sections m x ptr).find? (isText m) = some sec) :
    ptr + headerSize x + segmentSize x ≤ sec ∧ sec + sectionSize x ≤ m.size := by
  have hmem := List.mem_of_find?_eq_some htext
  refine ⟨sections_le hmem, ?_⟩
  obtain ⟨c, hc, ha⟩ := List.mem_flatMap.mp hmem
  unfold sectionsAt at ha
  split at ha
  · next hseg =>
    obtain ⟨k, hk, rfl⟩ := List.mem_map.mp ha
    have hin := (hcmd c hc).sections hseg
    have : (k + 1) * sectionSize x ≤ nsects m x c * sectionSize x :=
      Nat.mul_le_mul_right _ (by rw [List.mem_range] at hk; omega)
    rw [Nat.add_mul] at this
    omega
  · simp at ha

/-- A section that is found is dumped, wherever its bytes are. -/
theorem handleNotFat_found (hcmd : ∀ lc ∈ commands m x ptr, WfTextCommand m x lc)
    (htext : (sections m x ptr).find? (isText m) = some sec) (hsz : m.size < 2 ^ 32) :
    handleNotFat m x false ptr =
      dumpSection m (sec + 32) x ⟨secSize m x sec, secOffset m x sec⟩ ptr >>= fun r =>
        .ok (0, heading ++ r.2.1, r.2.2) := by
  obtain ⟨hle, hend⟩ := header_inside hcmd htext
  have hss := le_segmentSize x
  have hmap := mapSize_eq hsz
  have hfields : 32 + 2 * wordSize x + 4 ≤ sectionSize x := by cases x <;> decide
  have hlc : isLcSafe m ptr x := by
    rw [isLcSafe_iff]
    split <;> omega
  have hfind : getTextSection ⟨m.le 4 (ptr + 16), headerSize x⟩ ptr false x m =
      .ok (some sec, m) := by
    refine (getTextSectionFrom_host hcmd).trans ?_
    have htext' : ((commandsFrom m (ncmds m ptr) (ptr + headerSize x)).flatMap
        (sectionsAt m x)).find? (isText m) = some sec := htext
    rw [htext', Option.filter_some, if_pos (by simp; omega)]
  rw [handleNotFat, if_pos ((isSafe_natCast m ptr).mpr (by omega)), getLc_host hlc, ok_bind]
  simp only
  rw [hfind, ok_bind]
  simp only
  rw [putTextSection, if_pos ((isSafe_natCast m _).mpr (by omega))]
  simp only [Bool.false_eq_true, if_false, pure_eq, ok_bind]
  rw [Buffer.field_ok (by omega), ok_bind, Buffer.field_ok (by omega), ok_bind, bind_assoc]
  rfl

/-- A well-formed file that is cut off behind its load commands is dumped as the whole file, if its
text section is still there or empty. Otherwise the dump leaves the map if the file reaches up to the
section, and there is a heading and no line if it does not. -/
theorem otool_cutShort (h : HostText m x sec) (hn : n ≤ m.size)
    (hcmd : ∀ lc ∈ commands m x 0, WfCommand (m.take n) x lc) (name : List UInt8) :
    otool (m.take n) name =
      if secOffset m x sec + secSize m x sec ≤ n ∨ secSize m x sec = 0 then otool m name
      else if secOffset m x sec ≤ n then .fault
      else .ok ⟨0, ftPrintfS name ++ ascii ":\n" ++ heading, []⟩ := by
  obtain ⟨hthin, hwidth, hhost⟩ := h.dispatch
  have hsz : (m.take n).size < 2 ^ 32 := Nat.lt_of_le_of_lt hn h.size
  have hmap : mapSize (m.take n) = n := mapSize_eq hsz
  have hcommand : ∀ lc ∈ commands (m.take n) x 0, WfTextCommand (m.take n) x lc := by
    intro lc hlc
    rw [commands_take] at hlc
    exact { hcmd lc hlc with covers := (h.text.command lc hlc).covers }
  have htext : (sections (m.take n) x 0).find? (isText (m.take n)) = some sec := by
    rw [← h.text.text, sections_take]
    rfl
  obtain ⟨hle, hend⟩ := header_inside hcommand htext
  have hss := le_segmentSize x
  have hend' : sec + sectionSize x ≤ n := hend
  have hword : 32 + wordSize x ≤ sectionSize x := by cases x <;> decide
  have hrun : otool (m.take n) name =
      dumpSection (m.take n) (sec + 32) x ⟨secSize m x sec, secOffset m x sec⟩ 0 >>= fun r =>
        .ok ⟨0, ftPrintfS name ++ ascii ":\n" ++ (heading ++ r.2.1), []⟩ := by
    have hmagic : (m.take n).le 4 0 = m.le 4 0 := rfl
    rw [otool_thin (f := m.take n) (by omega) hthin, hmagic, hwidth, hhost,
      handleNotFat_found hcommand htext hsz, bind_assoc, secSize_take, secOffset_take]
    rfl
  by_cases hin : secOffset m x sec + secSize m x sec ≤ n
  · have htake : HostText (m.take n) x sec :=
      { magic := h.magic
        size := hsz
        text :=
          { command := hcommand
            text := htext
            inside := by
              rw [secOffset_take, secSize_take, Nat.zero_add]
              exact hin
            apart := by
              rw [secOffset_take, secSize_take]
              exact h.text.apart } }
    rw [if_pos (.inl hin), otool_take hn h.size htake]
  have hnil : secSize m x sec = 0 ∨ ¬ secOffset m x sec ≤ n →
      otool (m.take n) name = .ok ⟨0, ftPrintfS name ++ ascii ":\n" ++ heading, []⟩ := by
    intro hno
    obtain ⟨ret, hdump⟩ : ∃ ret, dumpSection (m.take n) (sec + 32) x
        ⟨secSize m x sec, secOffset m x sec⟩ 0 = .ok (ret, [], m.take n) :=
      dumpSection_nil (by rwa [hmap, Nat.zero_add])
    rw [hrun, hdump, ok_bind, List.append_nil]
  by_cases h0 : secSize m x sec = 0
  · rw [if_pos (.inr h0), hnil (.inl h0), otool_hostText h, h0]
    rfl
  rw [if_neg fun hor => hor.elim hin h0]
  by_cases hstart : secOffset m x sec ≤ n
  · have hfault : dumpSection (m.take n) (sec + 32) x ⟨secSize m x sec, secOffset m x sec⟩ 0 =
        .fault := by
      refine dumpSectionFrom_fault (m := m.take n) (by rw [Buffer.size_take]; omega) hsz
        (by rw [Buffer.size_take]; omega) (2 ^ 28 + 2) 0 _ rfl
        (by rw [Buffer.size_take]; omega) (by omega)
    rw [if_pos hstart, hrun, hfault]
    rfl
  · rw [if_neg hstart]
    exact hnil (.inr hstart)

theorem otool_cutShort_smallFile :
    otool (((smallFile true).image .little true).take 230) (ascii "a") =
      .ok ⟨0, ascii "a:\nContents of (__TEXT,__text) section\n", []⟩ := by
  have hsmall : HostText ((smallFile true).image .little true) true 104 :=
    ⟨by decide +kernel, smallFile_wfText, by decide +kernel⟩
  have hcmd : ∀ lc ∈ commands ((smallFile true).image .little true) true 0,
      WfTextCommand (((smallFile true).image .little true).take 230) true lc := by decide +kernel
  rw [otool_cutShort hsmall (by decide +kernel) (fun lc hlc => (hcmd lc hlc).toWfCommand),
    if_neg (by decide +kernel), if_neg (by decide +kernel)]
  rfl

end NmOtool.Otool
