import Yubindb.Util.Common

/-!
# File names

`src/util/filename.h`, `src/util/filename.cpp`. A name is the list of its characters relative to the
database directory, as `GetChildren` lists it: the functions that build names leave out the
`dbname + "/"` in front.
-/

namespace Yubindb

/-- The name of a file in the database directory. -/
abbrev FileName := List Char

/-- `enum FileType`. -/
inductive FileType
  | kLogFile | kDBLockFile | kTableFile | kDescriptorFile | kCurrentFile | kTempFile | kInfoLogFile
  deriving DecidableEq, Repr

/-! ## Building names -/

/-- `%06llu`. -/
def padded (number : Nat) : FileName :=
  let ds := Nat.toDigits 10 number
  List.replicate (6 - ds.length) '0' ++ ds

/-- `MakeFileName`. -/
def makeFileName (number : Nat) (suffix : FileName) : FileName := padded number ++ '.' :: suffix

def logFileName (number : Nat) : FileName := makeFileName number "log".toList

def tableFileName (number : Nat) : FileName := makeFileName number "ldb".toList

def descriptorFileName (number : Nat) : FileName := "MANIFEST-".toList ++ padded number

def currentFileName : FileName := "CURRENT".toList

def lockFileName : FileName := "LOCK".toList

def tempFileName (number : Nat) : FileName := makeFileName number "dbtmp".toList

/-! ## `strtoull` -/

/-- `isspace` in the C locale. -/
def isspace (c : Char) : Bool := c = ' ' || ('\t' ≤ c && c ≤ '\r')

/-- The value of a digit in any base up to 36. -/
def digitValue (c : Char) : Nat :=
  if '0' ≤ c ∧ c ≤ '9' then c.toNat - '0'.toNat
  else if 'a' ≤ c ∧ c ≤ 'z' then c.toNat - 'a'.toNat + 10
  else if 'A' ≤ c ∧ c ≤ 'Z' then c.toNat - 'A'.toNat + 10
  else 36

/-- The digits in front, as a number. -/
def readDigits (base : Nat) (acc : Nat) : List Char → Nat
  | c :: cs => if digitValue c < base then readDigits base (acc * base + digitValue c) cs else acc
  | [] => acc

/-- The base that `strtoull` takes when it is given 0, and where the digits start. -/
def detectBase : List Char → Nat × List Char
  | '0' :: x :: d :: cs =>
    if (x = 'x' ∨ x = 'X') ∧ digitValue d < 16 then (16, d :: cs) else (8, '0' :: x :: d :: cs)
  | '0' :: cs => (8, '0' :: cs)
  | cs => (10, cs)

def splitSign : List Char → Bool × List Char
  | '-' :: cs => (true, cs)
  | '+' :: cs => (false, cs)
  | cs => (false, cs)

/-- `strtoull(s, NULL, 0)`. -/
def strtoull (s : List Char) : Nat :=
  let (negative, s) := splitSign (s.dropWhile isspace)
  let (base, s) := detectBase s
  let n := readDigits base 0 s
  if n ≥ 2 ^ 64 then 2 ^ 64 - 1 else if negative then (2 ^ 64 - n) % 2 ^ 64 else n

/-! ## Parsing names -/

/-- `ParsefileName`. The outer option is nothing when `find` has no dot to find: `remove_prefix(-1)`
then leaves a view that starts in front of the string. -/
def parsefileName (filename : FileName) : Option (Option (Nat × FileType)) :=
  if filename = "CURRENT".toList then some (some (0, .kCurrentFile))
  else if filename = "LOCK".toList then some (some (0, .kDBLockFile))
  else if filename = "LOG".toList ∨ filename = "LOG.old".toList then some (some (0, .kInfoLogFile))
  else if "MANIFEST-".toList <+: filename then
    let pfile := filename.drop "MANIFEST-".toList.length
    let num := strtoull pfile
    -- `strtoull` does not move `pfile`, so this asks for a name without a number
    if pfile ≠ [] then some none else some (some (num, .kDescriptorFile))
  else if '.' ∉ filename then none
  else
    let suffix := filename.dropWhile (· ≠ '.')
    let num := strtoull filename
    if suffix = ".log".toList then some (some (num, .kLogFile))
    else if suffix = ".sst".toList ∨ suffix = ".ldb".toList then some (some (num, .kTableFile))
    else if suffix = ".dbtmp".toList then some (some (num, .kTempFile))
    else some none

/-! ## The number that a name reads back to

The digits are padded with zeros and `strtoull` is told to find the base itself, so it takes the
padding for an octal prefix.
-/

/-- The number read from a name built for `number`. -/
def readNumber (number : Nat) : Nat :=
  min (if number < 100000 then readDigits 8 0 (padded number) else number) (2 ^ 64 - 1)

theorem digit_cases {c : Char} (h : c.isDigit) : ∃ d, d < 10 ∧ c = Nat.digitChar d := by
  simp only [Char.isDigit, ge_iff_le, Bool.and_eq_true, decide_eq_true_eq] at h
  obtain ⟨hlo, hhi⟩ := h
  refine ⟨c.toNat - 48, ?_, ?_⟩
  · have : c.toNat ≤ 57 := hhi
    omega
  · have hc : c = Char.ofNat c.toNat := (Char.ofNat_toNat c).symm
    have h₁ : 48 ≤ c.toNat := hlo
    have h₂ : c.toNat ≤ 57 := hhi
    generalize c.toNat = n at *
    subst hc
    interval_cases n <;> rfl

theorem digitValue_digitChar {d : Nat} (h : d < 10) : digitValue (Nat.digitChar d) = d := by
  interval_cases d <;> rfl

theorem isDigit_of_mem_padded {number : Nat} {c : Char} (h : c ∈ padded number) : c.isDigit := by
  rcases List.mem_append.mp h with h | h
  · rw [List.eq_of_mem_replicate h]
    rfl
  · exact Nat.isDigit_of_mem_toDigits (by decide) (by decide) h

theorem padded_ne_nil (number : Nat) : padded number ≠ [] := by
  rw [padded]
  exact List.append_ne_nil_of_right_ne_nil _ Nat.toDigits_ne_nil

theorem padded_of_lt {number : Nat} (h : number < 100000) :
    ∃ cs, cs ≠ [] ∧ padded number = '0' :: cs := by
  have hlen : (Nat.toDigits 10 number).length ≤ 5 :=
    (Nat.length_toDigits_le_iff (by decide) (by decide)).mpr h
  obtain ⟨k, hk⟩ : ∃ k, 6 - (Nat.toDigits 10 number).length = k + 1 :=
    ⟨5 - (Nat.toDigits 10 number).length, by omega⟩
  refine ⟨List.replicate k '0' ++ Nat.toDigits 10 number, ?_, ?_⟩
  · exact List.append_ne_nil_of_right_ne_nil _ Nat.toDigits_ne_nil
  · rw [padded, hk]
    rfl

theorem head_toDigits_ne {number : Nat} (h : 0 < number) :
    (Nat.toDigits 10 number).head? ≠ some '0' := by
  induction number using Nat.strongRecOn with
  | ind n ih =>
    rcases Nat.lt_or_ge n 10 with hn | hn
    · rw [Nat.toDigits_of_lt_base hn]
      interval_cases n <;> decide
    · rw [Nat.toDigits_of_base_le (by decide) hn,
        List.head?_append_of_ne_nil _ Nat.toDigits_ne_nil]
      exact ih (n / 10) (by omega) (by omega)

theorem padded_of_le {number : Nat} (h : 100000 ≤ number) : padded number = Nat.toDigits 10 number := by
  have hlen : ¬ (Nat.toDigits 10 number).length ≤ 5 := fun hle =>
    absurd ((Nat.length_toDigits_le_iff (by decide) (by decide)).mp hle) (Nat.not_lt.mpr h)
  rw [padded, Nat.sub_eq_zero_of_le (by omega)]
  rfl

theorem readDigits_append {base : Nat} {rest : List Char}
    (hrest : ∀ c ∈ rest.head?, base ≤ digitValue c) (acc : Nat) (ds : List Char) :
    readDigits base acc (ds ++ rest) = readDigits base acc ds := by
  induction ds generalizing acc with
  | nil =>
    cases rest with
    | nil => rfl
    | cons c cs =>
      rw [List.nil_append, readDigits, if_neg (Nat.not_lt.mpr (hrest c rfl))]
      rfl
  | cons d ds ih =>
    rw [List.cons_append, readDigits, readDigits, ih]

theorem readDigits_ofDigitChars {acc : Nat} {ds : List Char} (h : ∀ c ∈ ds, c.isDigit) :
    readDigits 10 acc ds = Nat.ofDigitChars 10 ds acc := by
  induction ds generalizing acc with
  | nil => rfl
  | cons c ds ih =>
    obtain ⟨d, hd, rfl⟩ := digit_cases (h _ List.mem_cons_self)
    rw [readDigits, digitValue_digitChar hd, if_pos hd, ih fun c hc => h c (List.mem_cons_of_mem _ hc),
      Nat.ofDigitChars_cons_digitChar_of_lt_ten hd, Nat.mul_comm]

/-- A digit is neither a blank nor a sign nor the `x` of a hexadecimal prefix. -/
theorem digit_ne {c : Char} (h : c.isDigit) :
    isspace c = false ∧ c ≠ '-' ∧ c ≠ '+' ∧ c ≠ 'x' ∧ c ≠ 'X' ∧ c ≠ '.' := by
  obtain ⟨d, hd, rfl⟩ := digit_cases h
  interval_cases d <;> decide

theorem splitSign_digits {c : Char} (h : c.isDigit) (cs : List Char) :
    splitSign ((c :: cs).dropWhile isspace) = (false, c :: cs) := by
  obtain ⟨hspace, hminus, hplus, -⟩ := digit_ne h
  rw [List.dropWhile_cons, hspace, if_neg Bool.false_ne_true]
  unfold splitSign
  split
  · next heq => exact absurd (List.cons.inj heq).1 hminus
  · next heq => exact absurd (List.cons.inj heq).1 hplus
  · rfl

theorem detectBase_zero {c : Char} (h : c.isDigit) (cs : List Char) :
    detectBase ('0' :: c :: cs) = (8, '0' :: c :: cs) := by
  obtain ⟨-, -, -, hx, hX, -⟩ := digit_ne h
  cases cs with
  | nil => rfl
  | cons d cs =>
    rw [detectBase, if_neg]
    rintro ⟨rfl | rfl, -⟩
    · exact hx rfl
    · exact hX rfl

theorem detectBase_of_ne {c : Char} (h : c ≠ '0') (cs : List Char) :
    detectBase (c :: cs) = (10, c :: cs) := by
  unfold detectBase
  split
  · next heq => exact absurd (List.cons.inj heq).1 h
  · next heq => exact absurd (List.cons.inj heq).1 h
  · rfl

theorem head_padded_ne {number : Nat} (h : 100000 ≤ number) {c : Char} {cs : List Char}
    (hpad : padded number = c :: cs) : c ≠ '0' := by
  rintro rfl
  have hhead := head_toDigits_ne (Nat.lt_of_lt_of_le (by decide) h)
  rw [← padded_of_le h, hpad] at hhead
  exact hhead rfl

theorem strtoull_makeFileName (number : Nat) (suffix : FileName) :
    strtoull (makeFileName number suffix) = readNumber number := by
  have hdot (base : Nat) (h : base ≤ 36) : ∀ c ∈ ('.' :: suffix).head?, base ≤ digitValue c := by
    intro c hc
    cases hc
    exact h
  have hclamp (n : Nat) : (if n ≥ 2 ^ 64 then 2 ^ 64 - 1 else n) = min n (2 ^ 64 - 1) := by
    split <;> omega
  obtain ⟨c, cs, hpad⟩ := List.exists_cons_of_ne_nil (padded_ne_nil number)
  have hdigit : ∀ d ∈ c :: cs, d.isDigit := fun d hd => isDigit_of_mem_padded (hpad ▸ hd)
  have hsign := splitSign_digits (hdigit c List.mem_cons_self) (cs ++ '.' :: suffix)
  rw [strtoull, makeFileName, readNumber, hpad, List.cons_append, hsign]
  dsimp only
  rcases Nat.lt_or_ge number 100000 with hlt | hle
  · rw [if_pos hlt]
    obtain ⟨ds, hds, hzero⟩ := padded_of_lt hlt
    obtain ⟨d, ds, rfl⟩ := List.exists_cons_of_ne_nil hds
    obtain ⟨rfl, rfl⟩ := List.cons.inj (hpad.symm.trans hzero)
    have hbase := detectBase_zero (hdigit d (List.mem_cons_of_mem _ List.mem_cons_self))
      (ds ++ '.' :: suffix)
    have hread := readDigits_append (hdot 8 (by decide)) 0 ('0' :: d :: ds)
    rw [List.cons_append, List.cons_append] at hread
    rw [List.cons_append, hbase, hread]
    exact hclamp _
  · rw [if_neg (Nat.not_lt.mpr hle)]
    have hbase := detectBase_of_ne (head_padded_ne hle hpad) (cs ++ '.' :: suffix)
    have hread := readDigits_append (hdot 10 (by decide)) 0 (c :: cs)
    rw [List.cons_append, readDigits_ofDigitChars hdigit, ← hpad, padded_of_le hle,
      Nat.ofDigitChars_ten_toDigits] at hread
    rw [hbase, hread]
    exact hclamp _

/-! ## Parsing the built names -/

theorem dropWhile_makeFileName (number : Nat) (suffix : FileName) :
    (makeFileName number suffix).dropWhile (· ≠ '.') = '.' :: suffix := by
  rw [makeFileName, List.dropWhile_append_of_pos]
  · simp
  · intro c hc
    exact decide_eq_true (digit_ne (isDigit_of_mem_padded hc)).2.2.2.2.2

/-- A name that starts with a digit is none of the others. -/
theorem makeFileName_ne {name : FileName} (number : Nat) (suffix : FileName)
    (h : name.head? ∈ [some 'C', some 'L', some 'M']) : makeFileName number suffix ≠ name := by
  obtain ⟨c, cs, hpad⟩ := List.exists_cons_of_ne_nil (padded_ne_nil number)
  obtain ⟨d, hd, rfl⟩ := digit_cases (isDigit_of_mem_padded (hpad ▸ List.mem_cons_self))
  have hletter : ∀ d, d < 10 → some (Nat.digitChar d) ∉ [some 'C', some 'L', some 'M'] := by decide
  rintro rfl
  rw [makeFileName, hpad] at h
  exact hletter d hd h

theorem not_manifest_makeFileName (number : Nat) (suffix : FileName) :
    ¬ "MANIFEST-".toList <+: makeFileName number suffix := by
  rintro ⟨t, ht⟩
  exact makeFileName_ne number suffix (by simp) ht.symm

/-- A name that starts with a digit gets to the last branch of `ParsefileName`. -/
theorem parsefileName_makeFileName (number : Nat) (suffix : FileName) :
    parsefileName (makeFileName number suffix) =
      if suffix = "log".toList then some (some (readNumber number, .kLogFile))
      else if suffix = "sst".toList ∨ suffix = "ldb".toList then
        some (some (readNumber number, .kTableFile))
      else if suffix = "dbtmp".toList then some (some (readNumber number, .kTempFile))
      else some none := by
  have hne (name : FileName) (h : name.head? ∈ [some 'C', some 'L', some 'M']) :
      makeFileName number suffix ≠ name := makeFileName_ne number suffix h
  have hmem : '.' ∈ makeFileName number suffix := by simp [makeFileName]
  rw [parsefileName, if_neg (hne _ (by decide)), if_neg (hne _ (by decide)),
    if_neg (not_or.mpr ⟨hne _ (by decide), hne _ (by decide)⟩),
    if_neg (not_manifest_makeFileName number suffix), if_neg (not_not.mpr hmem),
    dropWhile_makeFileName, strtoull_makeFileName]
  dsimp only
  have hsuffix (ext : FileName) : ('.' :: suffix = '.' :: ext) = (suffix = ext) :=
    propext (List.cons_inj_right _)
  rw [show ".log".toList = '.' :: "log".toList from rfl,
    show ".sst".toList = '.' :: "sst".toList from rfl,
    show ".ldb".toList = '.' :: "ldb".toList from rfl,
    show ".dbtmp".toList = '.' :: "dbtmp".toList from rfl]
  simp only [hsuffix]

theorem parsefileName_logFileName (number : Nat) :
    parsefileName (logFileName number) = some (some (readNumber number, .kLogFile)) :=
  parsefileName_makeFileName number _

theorem parsefileName_tableFileName (number : Nat) :
    parsefileName (tableFileName number) = some (some (readNumber number, .kTableFile)) := by
  rw [tableFileName, parsefileName_makeFileName]
  rfl

/-- The name of a manifest is never recognised. -/
theorem parsefileName_descriptorFileName (number : Nat) :
    parsefileName (descriptorFileName number) = some none := by
  have hprefix : "MANIFEST-".toList <+: descriptorFileName number := List.prefix_append _ _
  have hdrop : (descriptorFileName number).drop "MANIFEST-".toList.length = padded number :=
    List.drop_left
  have hne (name : FileName) (h : ¬ "MANIFEST-".toList <+: name) :
      descriptorFileName number ≠ name := by
    rintro rfl
    exact h hprefix
  rw [parsefileName, if_neg (hne _ (by decide)), if_neg (hne _ (by decide)),
    if_neg (not_or.mpr ⟨hne _ (by decide), hne _ (by decide)⟩), if_pos hprefix, hdrop]
  exact if_pos (padded_ne_nil number)

end Yubindb
