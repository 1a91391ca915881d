import NmOtool.Printf.Convert

/-!
# ft_printf: wide text

A wide string is written character by character, each with the bytes that `we_to_char` puts into a
zeroed `char[5]`, up to the first zero among them. Against UTF-8: which characters come out as their
encoding, and which as one byte, the size that `set_print_bigs` counts for each.
-/

namespace NmOtool

open MachO Checked

/-! ## The writer -/

/-- `ft_putnwstr` -/
def ftPutnwstr : List Int → Int → List UInt8
  | [], _ => []
  | we :: s, nbr => if 1 ≤ nbr then ftPutwchar we ++ ftPutnwstr s (nbr - 1) else []

/-- The string of `wchar_t` with these characters. -/
def wide (s : List Char) : List Int := s.map fun c => (c.toNat : Int)

/-- The scalar values that `we_to_char` encodes. Of three bytes the second keeps the bits above its
own six, and these have to add up to the mark `10` of a continuation byte; of four, the second
cannot. -/
def Encoded (v : Nat) : Prop := v < 0x800 ∨ v < 0x10000 ∧ v / 4096 % 4 = 3

/-- The scalar values written as one byte: ASCII, and those whose second byte is zero. -/
def OneByte (v : Nat) : Prop :=
  v < 0x80 ∨ 0x800 ≤ v ∧ v < 0x10000 ∧ v / 64 % 256 = 64 ∨ 0x10000 ≤ v ∧ v / 4096 % 256 = 32

/-- The characters that `set_print_bigs` writes and counts: the precision, the length by default. -/
def TData.charCount (data : TData) (s : List Char) : Int :=
  if data.precison = -1 then int32 s.length else min data.precison (int32 s.length)

variable {c : Char} {s : List Char} {nbr : Int} {rest rest' : List UInt8}

theorem ftPutnwstr_eq (s : List Int) (nbr : Int) :
    ftPutnwstr s nbr = (s.take nbr.toNat).flatMap ftPutwchar := by
  induction s generalizing nbr with
  | nil => simp [ftPutnwstr]
  | cons we s ih =>
    unfold ftPutnwstr
    split
    · next h =>
      obtain ⟨n, rfl⟩ : ∃ n : Nat, nbr = n + 1 := ⟨(nbr - 1).toNat, by omega⟩
      rw [ih, Int.add_sub_cancel, Int.toNat_natCast, Int.toNat_natCast_add_one,
        List.take_succ_cons, List.flatMap_cons]
    · next h => rw [Int.toNat_of_nonpos (by omega), List.take_zero, List.flatMap_nil]

theorem ftPutnwstr_wide (s : List Char) (nbr : Int) :
    ftPutnwstr (wide s) nbr = (s.take nbr.toNat).flatMap fun c => ftPutwchar c.toNat := by
  rw [ftPutnwstr_eq, wide, ← List.map_take, List.flatMap_map]

/-! ## One character -/

theorem ofNat_eq_iff {a b : Nat} : UInt8.ofNat a = UInt8.ofNat b ↔ a % 256 = b % 256 := by
  rw [← UInt8.toNat_inj, UInt8.toNat_ofNat', UInt8.toNat_ofNat']

theorem ofNat_ne_zero_iff {a : Nat} : UInt8.ofNat a ≠ 0 ↔ a % 256 ≠ 0 :=
  not_congr ofNat_eq_iff

theorem ofInt_natCast (a : Nat) : UInt8.ofInt a = UInt8.ofNat a := by
  rw [← UInt8.toNat_inj, UInt8.ofInt, UInt8.toNat_ofNat', UInt8.toNat_ofNat']
  omega

/-- A zero byte ends the text. -/
theorem takeWhile_ofNat_cons (a : Nat) (l : List UInt8) :
    (UInt8.ofNat a :: l).takeWhile (· != 0) =
      if a % 256 = 0 then [] else .ofNat a :: l.takeWhile (· != 0) := by
  by_cases h : a % 256 = 0
  · rw [if_pos h, List.takeWhile_cons_of_neg]
    rw [show UInt8.ofNat a = 0 from ofNat_eq_iff.2 h]
    decide
  · rw [if_neg h, List.takeWhile_cons_of_pos]
    simpa using ofNat_ne_zero_iff.2 h

section
variable {v : Nat}

/-- `we_to_char` on a scalar value, its shifts as divisions. -/
theorem weToChar_natCast (hv : v < 0x200000) :
    weToChar v =
      if v ≤ 0x7f then [.ofNat v]
      else if v ≤ 0x7ff then [.ofNat (v / 64 + 192), .ofNat (v % 64 + 128)]
      else if v ≤ 0xffff then
        [.ofNat (v / 4096 + 224), .ofNat (v / 64 + 192), .ofNat (v % 64 + 128)]
      else
        [.ofNat (v / 262144 + 240), .ofNat (v / 4096 + 224), .ofNat (v / 64 + 192),
          .ofNat (v % 64 + 128)] := by
  have hle (n : Nat) : ((v : Int) ≤ n) = (v ≤ n) := propext Int.ofNat_le
  have hfour : v ≤ 0x1fffff := Nat.le_of_lt_succ hv
  have h1 := hle 0x7f
  have h2 := hle 0x7ff
  have h3 := hle 0xffff
  have h4 := hle 0x1fffff
  simp only [← ofInt_natCast, weToChar]
  push_cast at *
  simp only [h1, h2, h3, h4, if_pos hfour]

theorem ftPutwchar_one (h0 : v ≠ 0) (h : v < 0x80) : ftPutwchar v = [.ofNat v] := by
  rw [ftPutwchar, weToChar_natCast (by omega), if_pos (by omega), takeWhile_ofNat_cons,
    if_neg (by omega), List.takeWhile_nil]

theorem ftPutwchar_two (h : 0x80 ≤ v) (h' : v < 0x800) :
    ftPutwchar v = [.ofNat (v / 64 + 192), .ofNat (v % 64 + 128)] := by
  rw [ftPutwchar, weToChar_natCast (by omega), if_neg (by omega), if_pos (by omega),
    takeWhile_ofNat_cons, if_neg (by omega), takeWhile_ofNat_cons, if_neg (by omega),
    List.takeWhile_nil]

theorem ftPutwchar_three (h : 0x800 ≤ v) (h' : v < 0x10000) :
    ftPutwchar v = .ofNat (v / 4096 + 224) ::
      if (v / 64 + 192) % 256 = 0 then [] else [.ofNat (v / 64 + 192), .ofNat (v % 64 + 128)] := by
  rw [ftPutwchar, weToChar_natCast (by omega), if_neg (by omega), if_neg (by omega),
    if_pos (by omega), takeWhile_ofNat_cons, if_neg (by omega), takeWhile_ofNat_cons,
    takeWhile_ofNat_cons, if_neg (c := (v % 64 + 128) % 256 = 0) (by omega), List.takeWhile_nil]

theorem ftPutwchar_four (h : 0x10000 ≤ v) (h' : v < 0x110000) :
    ftPutwchar v = .ofNat (v / 262144 + 240) ::
      if (v / 4096 + 224) % 256 = 0 then []
      else .ofNat (v / 4096 + 224) ::
        if (v / 64 + 192) % 256 = 0 then []
        else [.ofNat (v / 64 + 192), .ofNat (v % 64 + 128)] := by
  rw [ftPutwchar, weToChar_natCast (by omega), if_neg (by omega), if_neg (by omega),
    if_neg (by omega), takeWhile_ofNat_cons, if_neg (by omega), takeWhile_ofNat_cons,
    takeWhile_ofNat_cons, takeWhile_ofNat_cons, if_neg (c := (v % 64 + 128) % 256 = 0) (by omega),
    List.takeWhile_nil]

end

theorem scalar_lt (c : Char) : c.toNat < 0x110000 := by
  have h := c.valid
  simp only [UInt32.isValidChar, Nat.isValidChar] at h
  change c.val.toNat < _
  omega

/-- The four sizes of an encoding. -/
theorem scalar_cases (c : Char) :
    c.toNat < 0x80 ∨ (0x80 ≤ c.toNat ∧ c.toNat < 0x800) ∨
      (0x800 ≤ c.toNat ∧ c.toNat < 0x10000) ∨ (0x10000 ≤ c.toNat ∧ c.toNat < 0x110000) := by
  have := scalar_lt c
  omega

theorem toNat_ne_zero (h : c ≠ '\x00') : c.toNat ≠ 0 :=
  fun h0 => h (Char.toNat_inj.1 h0)

/-! ## The encoding, by its size -/

theorem utf8EncodeChar_one (h : c.toNat < 0x80) : String.utf8EncodeChar c = [.ofNat c.toNat] :=
  if_pos (Nat.le_of_lt_succ h)

theorem utf8EncodeChar_two (h : 0x80 ≤ c.toNat) (h' : c.toNat < 0x800) :
    String.utf8EncodeChar c =
      [.ofNat (c.toNat / 64 % 0x20 + 0xc0), .ofNat (c.toNat % 0x40 + 0x80)] :=
  (if_neg (Nat.not_le_of_lt h)).trans (if_pos (Nat.le_of_lt_succ h'))

theorem utf8EncodeChar_three (h : 0x800 ≤ c.toNat) (h' : c.toNat < 0x10000) :
    String.utf8EncodeChar c =
      [.ofNat (c.toNat / 4096 % 0x10 + 0xe0), .ofNat (c.toNat / 64 % 0x40 + 0x80),
        .ofNat (c.toNat % 0x40 + 0x80)] :=
  (if_neg (by change ¬ c.toNat ≤ _; omega)).trans
    ((if_neg (Nat.not_le_of_lt h)).trans (if_pos (Nat.le_of_lt_succ h')))

theorem utf8EncodeChar_four (h : 0x10000 ≤ c.toNat) :
    String.utf8EncodeChar c =
      [.ofNat (c.toNat / 262144 % 0x08 + 0xf0), .ofNat (c.toNat / 4096 % 0x40 + 0x80),
        .ofNat (c.toNat / 64 % 0x40 + 0x80), .ofNat (c.toNat % 0x40 + 0x80)] :=
  (if_neg (by change ¬ c.toNat ≤ _; omega)).trans
    ((if_neg (by change ¬ c.toNat ≤ _; omega)).trans (if_neg (Nat.not_le_of_lt h)))

theorem ftPutwchar_encoded (h0 : c ≠ '\x00') (h : Encoded c.toNat) :
    ftPutwchar c.toNat = String.utf8EncodeChar c := by
  obtain hone | ⟨htwo, htwo'⟩ | ⟨hthree, hthree'⟩ | ⟨hfour, hfour'⟩ := scalar_cases c
  · rw [ftPutwchar_one (toNat_ne_zero h0) hone, utf8EncodeChar_one hone]
  · rw [ftPutwchar_two htwo htwo', utf8EncodeChar_two htwo htwo']
    congr 2
    omega
  · have hmark : c.toNat / 4096 % 4 = 3 := by
      obtain h | h := h <;> omega
    rw [ftPutwchar_three hthree hthree', utf8EncodeChar_three hthree hthree', if_neg (by omega)]
    congr 2
    · omega
    · exact ofNat_eq_iff.2 (by omega)
  · obtain h | h := h <;> omega

/-- A continuation byte of UTF-8. -/
def IsCont (b : UInt8) : Prop := 0x80 ≤ b.toNat ∧ b.toNat < 0xc0

/-- The first byte of what is written for a character is not a continuation byte. -/
theorem ftPutwchar_head (h0 : c ≠ '\x00') :
    ∃ b l, ftPutwchar c.toNat = b :: l ∧ ¬ IsCont b := by
  obtain hone | ⟨htwo, htwo'⟩ | ⟨hthree, hthree'⟩ | ⟨hfour, hfour'⟩ := scalar_cases c
  · refine ⟨_, _, ftPutwchar_one (toNat_ne_zero h0) hone, ?_⟩
    rw [IsCont, UInt8.toNat_ofNat']
    omega
  · refine ⟨_, _, ftPutwchar_two htwo htwo', ?_⟩
    rw [IsCont, UInt8.toNat_ofNat']
    omega
  · refine ⟨_, _, ftPutwchar_three hthree hthree', ?_⟩
    rw [IsCont, UInt8.toNat_ofNat']
    omega
  · refine ⟨_, _, ftPutwchar_four hfour hfour', ?_⟩
    rw [IsCont, UInt8.toNat_ofNat']
    omega

/-- A byte that stands where the text goes on with a continuation byte. -/
theorem cons_ne_cont {b : UInt8} (hb : ∀ b' ∈ rest.head?, ¬ IsCont b') (h : IsCont b) :
    rest ≠ b :: rest' := by
  rintro rfl
  exact hb b rfl h

/-- The bytes of a character that is not encoded differ from its encoding at the second byte. If that
byte is the zero that cuts the character, what follows in the text stands there. -/
theorem ftPutwchar_append_ne (h : ¬ Encoded c.toNat) (hrest : ∀ b ∈ rest.head?, ¬ IsCont b) :
    ftPutwchar c.toNat ++ rest ≠ String.utf8EncodeChar c ++ rest' := by
  have hcont (n : Nat) : IsCont (.ofNat (n % 0x40 + 0x80)) := by
    rw [IsCont, UInt8.toNat_ofNat']
    omega
  rw [Encoded, not_or, not_and] at h
  obtain ⟨hbig, hmark⟩ := h
  by_cases hfour : c.toNat < 0x10000
  · rw [ftPutwchar_three (by omega) hfour, utf8EncodeChar_three (by omega) hfour]
    split
    · intro heq
      exact cons_ne_cont hrest (hcont _) (List.cons.inj heq).2
    · intro heq
      have hsecond := (List.cons.inj (List.cons.inj heq).2).1
      have := ofNat_eq_iff.1 hsecond
      omega
  · rw [ftPutwchar_four (by omega) (scalar_lt c), utf8EncodeChar_four (by omega)]
    split
    · intro heq
      exact cons_ne_cont hrest (hcont _) (List.cons.inj heq).2
    · intro heq
      have hsecond := (List.cons.inj (List.cons.inj heq).2).1
      have := ofNat_eq_iff.1 hsecond
      omega

theorem ftPutwchar_length_iff (h0 : c ≠ '\x00') :
    (ftPutwchar c.toNat).length = 1 ↔ OneByte c.toNat := by
  obtain hone | ⟨htwo, htwo'⟩ | ⟨hthree, hthree'⟩ | ⟨hfour, hfour'⟩ := scalar_cases c
  · rw [ftPutwchar_one (toNat_ne_zero h0) hone]
    exact iff_of_true rfl (.inl hone)
  · rw [ftPutwchar_two htwo htwo']
    apply iff_of_false (by simp)
    unfold OneByte
    omega
  · rw [ftPutwchar_three hthree hthree']
    split
    · refine iff_of_true rfl (.inr (.inl ?_))
      omega
    · apply iff_of_false (by simp)
      unfold OneByte
      omega
  · rw [ftPutwchar_four hfour hfour']
    split
    · refine iff_of_true rfl (.inr (.inr ?_))
      omega
    · refine iff_of_false (fun h => ?_) ?_
      · split at h <;> cases h
      · unfold OneByte
        omega

/-! ## A text -/

theorem flatMap_head (hs : '\x00' ∉ s) :
    ∀ b ∈ (s.flatMap fun c => ftPutwchar c.toNat).head?, ¬ IsCont b := by
  cases s with
  | nil => simp
  | cons c s =>
    obtain ⟨b, l, hput, hb⟩ := ftPutwchar_head (c := c) (fun h => hs (h ▸ List.mem_cons_self))
    rw [List.flatMap_cons, hput]
    simpa using hb

theorem flatMap_eq_iff (hs : '\x00' ∉ s) :
    (s.flatMap fun c => ftPutwchar c.toNat) = s.flatMap String.utf8EncodeChar ↔
      ∀ c ∈ s, Encoded c.toNat := by
  induction s with
  | nil => simp
  | cons c s ih =>
    rw [List.mem_cons, not_or] at hs
    rw [List.flatMap_cons, List.flatMap_cons, List.forall_mem_cons]
    by_cases h : Encoded c.toNat
    · rw [ftPutwchar_encoded (Ne.symm hs.1) h, List.append_cancel_left_eq, ih hs.2]
      exact (and_iff_right h).symm
    · refine iff_of_false (ftPutwchar_append_ne h (flatMap_head hs.2)) fun hall => h hall.1

/-- Every character takes a byte at least, so that the bytes are as many as the characters only if
each takes one. -/
theorem flatMap_length_iff (hs : '\x00' ∉ s) :
    s.length ≤ (s.flatMap fun c => ftPutwchar c.toNat).length ∧
      ((s.flatMap fun c => ftPutwchar c.toNat).length = s.length ↔ ∀ c ∈ s, OneByte c.toNat) := by
  induction s with
  | nil => simp
  | cons c s ih =>
    rw [List.mem_cons, not_or] at hs
    obtain ⟨hle, hiff⟩ := ih hs.2
    have hone := ftPutwchar_length_iff (Ne.symm hs.1)
    obtain ⟨b, l, hput, -⟩ := ftPutwchar_head (Ne.symm hs.1)
    have hpos : 1 ≤ (ftPutwchar c.toNat).length := by
      rw [hput, List.length_cons]
      exact Nat.le_add_left 1 _
    rw [List.flatMap_cons, List.length_append, List.length_cons, List.forall_mem_cons, ← hone,
      ← hiff]
    omega

/-! ## `set_print_bigs` -/

variable {data : TData}

/-- The number of characters, once `set_print_bigs` has put the length for the default. -/
theorem charCount_eq (data : TData) (s : List Char) :
    (if (if data.precison = -1 then int32 s.length else data.precison) > int32 s.length then
        int32 s.length
      else if data.precison = -1 then int32 s.length else data.precison) = data.charCount s := by
  unfold TData.charCount
  by_cases h : data.precison = -1
  · rw [if_pos h, if_pos h, if_neg (Int.lt_irrefl _)]
  · rw [if_neg h, if_neg h]
    split
    · next hgt => exact (min_eq_right (Int.le_of_lt hgt)).symm
    · next hle => exact (min_eq_left (Int.not_lt.1 hle)).symm

theorem setPrintBigs_eq (data : TData) (s : List Char) :
    setPrintBigs data (wide s) =
      let count := data.charCount s
      let pad := ftPutnchar ' ' (int32 (max data.width count - count))
      (if data.flag '-' then ftPutnwstr (wide s) count ++ pad else pad ++ ftPutnwstr (wide s) count,
        { data with
          precison := if data.precison = -1 then int32 s.length else data.precison
          len := max data.width count }) := by
  have hlen : (wide s).length = s.length := List.length_map _
  rw [← charCount_eq, setPrintBigs, setPrintS, hlen]
  simp only [← ftPutnwstr_eq]
  by_cases h : data.precison = -1
  · simp only [if_pos h, TData.flag]
  · simp only [if_neg h, TData.flag]

theorem setPrintBigs_len (data : TData) (s : List Char) :
    (setPrintBigs data (wide s)).2.len = max data.width (data.charCount s) := by
  rw [setPrintBigs_eq]

theorem setPrintBigs_length (data : TData) (s : List Char) :
    (setPrintBigs data (wide s)).1.length =
      (int32 (max data.width (data.charCount s) - data.charCount s)).toNat +
        (ftPutnwstr (wide s) (data.charCount s)).length := by
  rw [setPrintBigs_eq]
  simp only
  split
  · rw [List.length_append, ftPutnchar, List.length_replicate, Nat.add_comm]
  · rw [List.length_append, ftPutnchar, List.length_replicate]

theorem charCount_range (hp : -2 ^ 31 ≤ data.precison ∧ data.precison < 2 ^ 31) :
    -2 ^ 31 ≤ data.charCount s ∧ data.charCount s < 2 ^ 31 := by
  have hint := int32_range s.length
  unfold TData.charCount
  split <;> omega

theorem charCount_le (data : TData) (s : List Char) : data.charCount s ≤ s.length := by
  have hint := int32_le s.length
  unfold TData.charCount
  split <;> omega

/-- `data->len` is the number of bytes written: for a count of characters that are written, if each
takes a byte; for a negative one, where nothing is written, only if the number of blanks
overflows. -/
theorem setPrintBigs_iff (hs : '\x00' ∉ s) (hw : -2 ^ 31 ≤ data.width ∧ data.width < 2 ^ 31)
    (hp : -2 ^ 31 ≤ data.precison ∧ data.precison < 2 ^ 31) :
    (setPrintBigs data (wide s)).2.len = ((setPrintBigs data (wide s)).1.length : Int) ↔
      (0 ≤ data.charCount s ∧ ∀ c ∈ s.take (data.charCount s).toNat, OneByte c.toNat) ∨
        (data.charCount s = -2 ^ 31 ∧ data.width = 0) := by
  have hrange := charCount_range (s := s) hp
  have hle := charCount_le data s
  rw [setPrintBigs_len, setPrintBigs_length, ftPutnwstr_wide]
  generalize data.charCount s = count at *
  by_cases h0 : 0 ≤ count
  · obtain ⟨n, rfl⟩ := Int.eq_ofNat_of_zero_le h0
    have htake : (s.take n).length = n := List.length_take_of_le (Int.ofNat_le.1 hle)
    have hbytes := (flatMap_length_iff (s := s.take n) (fun h => hs (List.mem_of_mem_take h))).2
    rw [htake] at hbytes
    rw [Int.toNat_natCast, ← hbytes, int32_of_range (by omega) (by omega)]
    omega
  · rw [Int.toNat_of_nonpos (z := count) (by omega), List.take_zero, List.flatMap_nil,
      List.length_nil, int32, Int.bmod_def]
    split <;> omega

/-- Wide text is written as its UTF-8 exactly when `we_to_char` encodes every character that is
written, and it is counted as long as it is exactly when each takes one byte. The exception is the
count `-2 ^ 31` in no field, whose difference to the length overflows. -/
theorem putnwstr_utf8_iff (s : List Char) (hs : '\x00' ∉ s) :
    (∀ nbr : Int, 0 ≤ nbr →
      ((ftPutnwstr (wide s) nbr = (s.take nbr.toNat).flatMap String.utf8EncodeChar ∧
          (ftPutnwstr (wide s) nbr).toByteArray.utf8Decode? = some (s.take nbr.toNat).toArray) ↔
        ∀ c ∈ s.take nbr.toNat, Encoded c.toNat)) ∧
    (∀ data : TData,
      -2 ^ 31 ≤ data.width ∧ data.width < 2 ^ 31 →
      -2 ^ 31 ≤ data.precison ∧ data.precison < 2 ^ 31 →
      ((setPrintBigs data (wide s)).2.len = ((setPrintBigs data (wide s)).1.length : Int) ↔
        (0 ≤ data.charCount s ∧ ∀ c ∈ s.take (data.charCount s).toNat, OneByte c.toNat) ∨
          (data.charCount s = -2 ^ 31 ∧ data.width = 0))) := by
  refine ⟨fun nbr _ => ?_, fun data hw hp => setPrintBigs_iff hs hw hp⟩
  rw [ftPutnwstr_wide, flatMap_eq_iff (fun h => hs (List.mem_of_mem_take h))]
  constructor
  · exact And.left
  · intro hall
    refine ⟨hall, ?_⟩
    rw [(flatMap_eq_iff (fun h => hs (List.mem_of_mem_take h))).2 hall]
    exact List.utf8Decode?_utf8Encode

theorem putnwstr_utf8_iff_eacute :
    ftPutnwstr (wide ['n', 'é']) 5 = [0x6e, 0xc3, 0xa9] ∧
      (setPrintBigs { TData.init with precison := 1 } (wide ['n', 'é'])).2.len =
        ((setPrintBigs { TData.init with precison := 1 } (wide ['n', 'é'])).1.length : Int) := by
  have hencoded : ∀ c ∈ ['n', 'é'], Encoded c.toNat :=
    List.forall_mem_cons.mpr ⟨.inl (by decide), List.forall_mem_singleton.mpr (.inl (by decide))⟩
  have honeByte : ∀ c ∈ ['n'], OneByte c.toNat :=
    List.forall_mem_singleton.mpr (.inl (by decide))
  exact ⟨(((putnwstr_utf8_iff ['n', 'é'] (by decide)).1 5 (by decide)).2 hencoded).1.trans
      (by decide),
    ((putnwstr_utf8_iff ['n', 'é'] (by decide)).2 { TData.init with precison := 1 } (by decide)
      (by decide)).2 (.inl ⟨by decide, honeByte⟩)⟩

/-- The euro sign is U+20AC, which comes out as `e2 42 ac` and is counted as one byte. -/
theorem putnwstr_euro :
    ftPutnwstr (wide ['€']) 1 ≠ ['€'].flatMap String.utf8EncodeChar ∧
      (setPrintBigs TData.init (wide ['€'])).2.len ≠
        ((setPrintBigs TData.init (wide ['€'])).1.length : Int) := by
  decide

end NmOtool
