import Yubindb.Util.FileName
import Mathlib.Data.List.TakeWhile

/-!
# Names that read back

`ParsefileName` in `src/util/filename.cpp` against the names that `src/util/filename.cpp` builds.
-/

namespace Yubindb

def sstTableFileName (number : Nat) : FileName := makeFileName number "sst".toList

/-! ## Numbers -/

theorem readDigits_replicate_zero {base : Nat} (h : 0 < base) (n : Nat) (ds : List Char) :
    readDigits base 0 (List.replicate n '0' ++ ds) = readDigits base 0 ds := by
  induction n with
  | zero => rfl
  | succ n ih =>
    have hzero : digitValue '0' = 0 := by decide
    rw [List.replicate_succ, List.cons_append, readDigits, hzero, if_pos h, Nat.zero_mul]
    exact ih

theorem readDigits_ten_padded (number : Nat) : readDigits 10 0 (padded number) = number := by
  rw [padded, readDigits_replicate_zero (by decide),
    readDigits_ofDigitChars fun c hc => Nat.isDigit_of_mem_toDigits (by decide) (by decide) hc,
    Nat.ofDigitChars_ten_toDigits]

theorem padded_injective {m n : Nat} (h : padded m = padded n) : m = n := by
  rw [← readDigits_ten_padded m, h, readDigits_ten_padded]

theorem readDigits_digitChar {base acc d : Nat} (hd : d < 10) (ds : List Char) :
    readDigits base acc (Nat.digitChar d :: ds) =
      if d < base then readDigits base (acc * base + d) ds else acc := by
  rw [readDigits, digitValue_digitChar hd]

theorem le_readDigits_ten {acc : Nat} {ds : List Char} (h : ∀ c ∈ ds, c.isDigit) :
    acc ≤ readDigits 10 acc ds := by
  induction ds generalizing acc with
  | nil => exact Nat.le_refl _
  | cons c ds ih =>
    obtain ⟨hc, hds⟩ := List.forall_mem_cons.mp h
    obtain ⟨d, hd, rfl⟩ := digit_cases hc
    rw [readDigits_digitChar hd, if_pos hd]
    exact Nat.le_trans (by omega) (ih hds)

/-- Octal reading that is behind falls further behind. -/
theorem readDigits_eight_lt {a b : Nat} {ds : List Char} (h : ∀ c ∈ ds, c.isDigit) (hlt : a < b) :
    readDigits 8 a ds < readDigits 10 b ds := by
  induction ds generalizing a b with
  | nil => exact hlt
  | cons c ds ih =>
    obtain ⟨hc, hds⟩ := List.forall_mem_cons.mp h
    obtain ⟨d, hd, rfl⟩ := digit_cases hc
    rw [readDigits_digitChar hd, readDigits_digitChar hd, if_pos hd]
    split
    · exact ih hds (by omega)
    · exact Nat.lt_of_lt_of_le (by omega) (le_readDigits_ten hds)

/-- Two digits with a value make octal reading fall behind. -/
theorem readDigits_eight_lt_of_le {a : Nat} {ds : List Char} (h : ∀ c ∈ ds, c.isDigit) (ha : a < 8)
    (hle : 8 ≤ readDigits 10 a ds) : readDigits 8 a ds < readDigits 10 a ds := by
  induction ds generalizing a with
  | nil => exact absurd hle (Nat.not_le.mpr ha)
  | cons c ds ih =>
    obtain ⟨hc, hds⟩ := List.forall_mem_cons.mp h
    obtain ⟨d, hd, rfl⟩ := digit_cases hc
    rw [readDigits_digitChar hd, if_pos hd] at hle
    rw [readDigits_digitChar hd, readDigits_digitChar hd, if_pos hd]
    split
    · rcases Nat.eq_zero_or_pos a with rfl | hpos
      · exact ih hds (by omega) hle
      · exact readDigits_eight_lt hds (by omega)
    · exact Nat.lt_of_lt_of_le (by omega) (le_readDigits_ten hds)

/-- The numbers that are read as they were written. -/
def ReadsBackNumber (number : Nat) : Prop := number < 8 ∨ 100000 ≤ number ∧ number < 2 ^ 64

theorem readDigits_eight_of_lt {number : Nat} (h : number < 8) :
    readDigits 8 0 (padded number) = number := by
  interval_cases number <;> decide

theorem readNumber_eq_iff {number : Nat} : readNumber number = number ↔ ReadsBackNumber number := by
  rw [readNumber, ReadsBackNumber]
  rcases Nat.lt_or_ge number 8 with hlt | hle
  · rw [if_pos (by omega), readDigits_eight_of_lt hlt]
    omega
  · rcases Nat.lt_or_ge number 100000 with hlt | hlarge
    · have hless : readDigits 8 0 (padded number) < number := by
        have hten := readDigits_ten_padded number
        have hdigits : ∀ c ∈ padded number, c.isDigit := fun c hc => isDigit_of_mem_padded hc
        have hless := readDigits_eight_lt_of_le (a := 0) hdigits (by decide) (by rwa [hten])
        rwa [hten] at hless
      rw [if_pos hlt]
      omega
    · rw [if_neg (Nat.not_lt.mpr hlarge)]
      omega

/-! ## Names -/

/-- The names of a database directory, with the number and the type that each stands for. -/
inductive Names : FileName → Nat × FileType → Prop
  | current : Names currentFileName (0, .kCurrentFile)
  | lock : Names lockFileName (0, .kDBLockFile)
  | infoLog : Names "LOG".toList (0, .kInfoLogFile)
  | oldInfoLog : Names "LOG.old".toList (0, .kInfoLogFile)
  | log (number) (hpos : 0 < number) (hlt : number < 2 ^ 64) :
    Names (logFileName number) (number, .kLogFile)
  | table (number) (hpos : 0 < number) (hlt : number < 2 ^ 64) :
    Names (tableFileName number) (number, .kTableFile)
  | sstTable (number) (hpos : 0 < number) (hlt : number < 2 ^ 64) :
    Names (sstTableFileName number) (number, .kTableFile)
  | temp (number) (hpos : 0 < number) (hlt : number < 2 ^ 64) :
    Names (tempFileName number) (number, .kTempFile)
  | descriptor (number) (hpos : 0 < number) (hlt : number < 2 ^ 64) :
    Names (descriptorFileName number) (number, .kDescriptorFile)

/-- `int i = filename.find('.')`. -/
def dotIndex (filename : FileName) : Int :=
  match filename.findIdx? (· = '.') with
  | some i => (i : Int).bmod (2 ^ 32)
  | none => -1

/-- `ParsefileName` of any string; `parsefileName` leaves out that the position of the dot is an
`int`, which matters from a length of `2 ^ 31` on. The outer option is nothing when `remove_prefix`
leaves the string. -/
def parseString (filename : FileName) : Option (Option (Nat × FileType)) :=
  if filename = "CURRENT".toList then some (some (0, .kCurrentFile))
  else if filename = "LOCK".toList then some (some (0, .kDBLockFile))
  else if filename = "LOG".toList ∨ filename = "LOG.old".toList then some (some (0, .kInfoLogFile))
  else if "MANIFEST-".toList <+: filename then
    let pfile := filename.drop "MANIFEST-".toList.length
    let num := strtoull pfile
    if pfile ≠ [] then some none else some (some (num, .kDescriptorFile))
  else if dotIndex filename < 0 ∨ filename.length < dotIndex filename then none
  else
    let suffix := filename.drop (dotIndex filename).toNat
    let num := strtoull filename
    if suffix = ".log".toList then some (some (num, .kLogFile))
    else if suffix = ".sst".toList ∨ suffix = ".ldb".toList then some (some (num, .kTableFile))
    else if suffix = ".dbtmp".toList then some (some (num, .kTempFile))
    else some none

/-- The string is parsed as what it names, and not at all when it names nothing. -/
def ParsesExactly (name : FileName) : Prop :=
  ∃ parsed, parseString name = some parsed ∧ ∀ p, parsed = some p ↔ Names name p

/-- The types of the names without a number. -/
def reservedType (name : FileName) : Option FileType :=
  if name = "CURRENT".toList then some .kCurrentFile
  else if name = "LOCK".toList then some .kDBLockFile
  else if name = "LOG".toList ∨ name = "LOG.old".toList then some .kInfoLogFile
  else none

/-- The types of the extensions. -/
def suffixType (suffix : FileName) : Option FileType :=
  if suffix = ".log".toList then some .kLogFile
  else if suffix = ".sst".toList ∨ suffix = ".ldb".toList then some .kTableFile
  else if suffix = ".dbtmp".toList then some .kTempFile
  else none

variable {name suffix ext : FileName} {number : Nat} {type : FileType} {p : Nat × FileType}

theorem parseString_reserved (h : reservedType name = some type) :
    parseString name = some (some (0, type)) := by
  rw [reservedType] at h
  rw [parseString]
  split_ifs at h ⊢ <;> cases h <;> rfl

theorem parseString_manifest {rest : FileName} :
    parseString ("MANIFEST-".toList ++ rest) =
      if rest ≠ [] then some none else some (some (strtoull rest, .kDescriptorFile)) := by
  have hdrop : ("MANIFEST-".toList ++ rest).drop "MANIFEST-".toList.length = rest := List.drop_left
  have hne (name : FileName) (h : ¬ "MANIFEST-".toList <+: name) :
      "MANIFEST-".toList ++ rest ≠ name := by
    rintro rfl
    exact h (List.prefix_append _ _)
  rw [parseString, if_neg (hne _ (by decide)), if_neg (hne _ (by decide)),
    if_neg (not_or.mpr ⟨hne _ (by decide), hne _ (by decide)⟩), if_pos (List.prefix_append _ _),
    hdrop]

theorem parseString_suffix (hreserved : reservedType name = none)
    (hmanifest : ¬ "MANIFEST-".toList <+: name) :
    parseString name =
      if dotIndex name < 0 ∨ name.length < dotIndex name then none
      else some ((suffixType (name.drop (dotIndex name).toNat)).map (strtoull name, ·)) := by
  rw [reservedType] at hreserved
  split_ifs at hreserved with hcurrent hlock hlog
  rw [parseString, if_neg hcurrent, if_neg hlock, if_neg hlog, if_neg hmanifest]
  refine if_congr Iff.rfl rfl ?_
  dsimp only
  rw [suffixType]
  split_ifs <;> rfl

/-! ## The position of the dot -/

theorem drop_of_findIdx? {i : Nat} (h : name.findIdx? (· = '.') = some i) :
    i < name.length ∧ name.drop i = name.dropWhile (· ≠ '.') := by
  obtain ⟨hlt, rfl⟩ := List.findIdx?_eq_some_iff_findIdx_eq.mp h
  refine ⟨hlt, ?_⟩
  rw [List.dropWhile_eq_drop_findIdx_not]
  simp

theorem dotIndex_of_lt {i : Nat} (h : name.findIdx? (· = '.') = some i) (hlt : i < 2 ^ 31) :
    dotIndex name = i := by
  rw [dotIndex, h]
  exact Int.bmod_eq_of_le (by omega) (by omega)

theorem dotIndex_lt (h : 0 ≤ dotIndex name) : dotIndex name < name.length := by
  cases hfind : name.findIdx? (· = '.') with
  | none => simp [dotIndex, hfind] at h
  | some i =>
    have hlt := (drop_of_findIdx? hfind).1
    have hindex : dotIndex name = (i : Int).bmod (2 ^ 32) := by rw [dotIndex, hfind]
    have hmod : (i : Int).bmod (2 ^ 32) ≤ i := by
      rw [hindex, Int.bmod_def] at h
      rw [Int.bmod_def]
      split_ifs at h ⊢ <;> omega
    omega

/-- On the names of files, whose dots are not that far behind, nothing is left out. -/
theorem parseString_eq (h : name.length < 2 ^ 31) : parseString name = parsefileName name := by
  rw [parseString, parsefileName]
  refine if_congr Iff.rfl rfl (if_congr Iff.rfl rfl (if_congr Iff.rfl rfl (if_congr Iff.rfl rfl ?_)))
  cases hfind : name.findIdx? (· = '.') with
  | none =>
    have hdot : '.' ∉ name := fun hmem => by
      simpa using List.findIdx?_eq_none_iff.mp hfind '.' hmem
    have hindex : dotIndex name = -1 := by rw [dotIndex, hfind]
    rw [hindex, if_pos (.inl (by decide)), if_pos hdot]
  | some i =>
    obtain ⟨hlt, hdrop⟩ := drop_of_findIdx? hfind
    have hindex := dotIndex_of_lt hfind (by omega)
    have hdot : '.' ∈ name := by
      obtain ⟨hlt, hget, -⟩ := List.findIdx?_eq_some_iff_getElem.mp hfind
      exact of_decide_eq_true hget ▸ List.getElem_mem hlt
    rw [hindex, if_neg (by omega), if_neg (not_not.mpr hdot), Int.toNat_natCast, hdrop]

/-! ## The names that are built -/

theorem length_padded_lt {number : Nat} (h : number < 2 ^ 64) :
    (padded number).length < 2 ^ 31 := by
  have hdigits : (Nat.toDigits 10 number).length ≤ 20 :=
    (Nat.length_toDigits_le_iff (by decide) (by decide)).mpr (by omega)
  rw [padded, List.length_append, List.length_replicate]
  omega

theorem findIdx?_makeFileName (number : Nat) (ext : FileName) :
    (makeFileName number ext).findIdx? (· = '.') = some (padded number).length := by
  have hnone : (padded number).findIdx? (· = '.') = none :=
    List.findIdx?_eq_none_iff.mpr fun c hc =>
      decide_eq_false (digit_ne (isDigit_of_mem_padded hc)).2.2.2.2.2
  rw [makeFileName, List.findIdx?_append, hnone]
  simp [List.findIdx?_cons]

theorem dotIndex_makeFileName (h : number < 2 ^ 64) (ext : FileName) :
    dotIndex (makeFileName number ext) = (padded number).length ∧
      (makeFileName number ext).drop (padded number).length = '.' :: ext :=
  ⟨dotIndex_of_lt (findIdx?_makeFileName number ext) (length_padded_lt h), List.drop_left⟩

theorem makeFileName_inj {m n : Nat} {ext ext' : FileName}
    (h : makeFileName m ext = makeFileName n ext') : m = n ∧ ext = ext' := by
  have hlen : (padded m).length = (padded n).length := by
    have hfind := findIdx?_makeFileName m ext
    rw [h, findIdx?_makeFileName] at hfind
    exact (Option.some.inj hfind).symm
  obtain ⟨hpadded, hext⟩ := List.append_inj h hlen
  exact ⟨padded_injective hpadded, (List.cons.inj hext).2⟩

theorem names_iff : Names name p ↔
    (reservedType name = some p.2 ∧ p.1 = 0) ∨
    (0 < p.1 ∧ p.1 < 2 ^ 64 ∧
      ((∃ ext, name = makeFileName p.1 ext ∧ suffixType ('.' :: ext) = some p.2) ∨
        name = descriptorFileName p.1 ∧ p.2 = .kDescriptorFile)) := by
  constructor
  · intro h
    cases h with
    | current | lock | infoLog | oldInfoLog => exact .inl ⟨by decide, rfl⟩
    | descriptor number hpos hlt => exact .inr ⟨hpos, hlt, .inr ⟨rfl, rfl⟩⟩
    | log number hpos hlt | table number hpos hlt | sstTable number hpos hlt
    | temp number hpos hlt => exact .inr ⟨hpos, hlt, .inl ⟨_, rfl, rfl⟩⟩
  · obtain ⟨number, type⟩ := p
    rintro (⟨hreserved, rfl⟩ | ⟨hpos, hlt, ⟨ext, rfl, hsuffix⟩ | ⟨rfl, rfl⟩⟩)
    · rw [reservedType] at hreserved
      split_ifs at hreserved with hcurrent hlock hlog
      · cases hreserved
        exact hcurrent ▸ .current
      · cases hreserved
        exact hlock ▸ .lock
      · cases hreserved
        rcases hlog with rfl | rfl
        · exact .infoLog
        · exact .oldInfoLog
    · rw [suffixType] at hsuffix
      split_ifs at hsuffix with hlog htable htemp
      · cases hsuffix
        rw [(List.cons.inj hlog).2]
        exact .log number hpos hlt
      · cases hsuffix
        rcases htable with hsst | hldb
        · rw [(List.cons.inj hsst).2]
          exact .sstTable number hpos hlt
        · rw [(List.cons.inj hldb).2]
          exact .table number hpos hlt
      · cases hsuffix
        rw [(List.cons.inj htemp).2]
        exact .temp number hpos hlt
    · exact .descriptor number hpos hlt

/-! ## The exact condition -/

/-- The strings that `ParsefileName` gets right: the names without a number; what begins like a
manifest but is none, with something behind; and what has a dot where an `int` can say so, if the
number of a log, a table or a temporary file is one that is read as it was written. -/
def RightName (name : FileName) : Prop :=
  (reservedType name).isSome ∨
  (∃ rest, name = "MANIFEST-".toList ++ rest ∧ rest ≠ [] ∧
    ∀ n, 0 < n → n < 2 ^ 64 → rest ≠ padded n) ∨
  ¬ "MANIFEST-".toList <+: name ∧ 0 ≤ dotIndex name ∧
    ∀ ext, name.drop (dotIndex name).toNat = '.' :: ext → (suffixType ('.' :: ext)).isSome →
      ∃ n, 0 < n ∧ ReadsBackNumber n ∧ name = makeFileName n ext

theorem reservedType_makeFileName (number : Nat) (ext : FileName) :
    reservedType (makeFileName number ext) = none := by
  have hne (name : FileName) (h : name.head? ∈ [some 'C', some 'L', some 'M']) :=
    makeFileName_ne number ext h
  rw [reservedType, if_neg (hne _ (by decide)), if_neg (hne _ (by decide)),
    if_neg (not_or.mpr ⟨hne _ (by decide), hne _ (by decide)⟩)]

theorem not_manifest_of_reserved (h : (reservedType name).isSome) :
    ¬ "MANIFEST-".toList <+: name := by
  rw [reservedType] at h
  split_ifs at h with hcurrent hlock hlog
  · rw [hcurrent]
    decide
  · rw [hlock]
    decide
  · rcases hlog with rfl | rfl <;> decide
  · cases h

theorem parsesExactly_reserved (h : reservedType name = some type) : ParsesExactly name := by
  refine ⟨_, parseString_reserved h, fun p => ?_⟩
  have hsome := Option.isSome_of_eq_some h
  rw [names_iff, h]
  constructor
  · intro hp
    cases hp
    exact .inl ⟨rfl, rfl⟩
  · rintro (⟨htype, hzero⟩ | ⟨-, -, ⟨ext, rfl, -⟩ | ⟨rfl, -⟩⟩)
    · exact congrArg some (Prod.ext hzero.symm (Option.some.inj htype))
    · rw [reservedType_makeFileName] at h
      cases h
    · exact absurd (List.prefix_append _ _) (not_manifest_of_reserved hsome)

theorem names_manifest_iff {rest : FileName} : Names ("MANIFEST-".toList ++ rest) p ↔
    0 < p.1 ∧ p.1 < 2 ^ 64 ∧ rest = padded p.1 ∧ p.2 = .kDescriptorFile := by
  have hprefix : "MANIFEST-".toList <+: "MANIFEST-".toList ++ rest := List.prefix_append _ _
  rw [names_iff]
  constructor
  · rintro (⟨hreserved, -⟩ | ⟨hpos, hlt, ⟨ext, hname, -⟩ | ⟨hname, htype⟩⟩)
    · exact absurd hprefix (not_manifest_of_reserved (Option.isSome_of_eq_some hreserved))
    · exact absurd (hname ▸ hprefix) (not_manifest_makeFileName _ _)
    · exact ⟨hpos, hlt, List.append_cancel_left hname, htype⟩
  · rintro ⟨hpos, hlt, rfl, htype⟩
    exact .inr ⟨hpos, hlt, .inr ⟨rfl, htype⟩⟩

theorem names_suffix_iff (hreserved : reservedType name = none)
    (hmanifest : ¬ "MANIFEST-".toList <+: name) : Names name p ↔
      0 < p.1 ∧ p.1 < 2 ^ 64 ∧
        ∃ ext, name = makeFileName p.1 ext ∧ suffixType ('.' :: ext) = some p.2 := by
  rw [names_iff, hreserved]
  constructor
  · rintro (⟨hnone, -⟩ | ⟨hpos, hlt, hfile | ⟨rfl, -⟩⟩)
    · cases hnone
    · exact ⟨hpos, hlt, hfile⟩
    · exact absurd (List.prefix_append _ _) hmanifest
  · rintro ⟨hpos, hlt, hfile⟩
    exact .inr ⟨hpos, hlt, .inl hfile⟩

theorem parsesExactly_manifest {rest : FileName} : ParsesExactly ("MANIFEST-".toList ++ rest) ↔
    rest ≠ [] ∧ ∀ n, 0 < n → n < 2 ^ 64 → rest ≠ padded n := by
  rw [ParsesExactly, parseString_manifest]
  by_cases hnil : rest = []
  · refine iff_of_false ?_ fun h => h.1 hnil
    rintro ⟨parsed, hparsed, hall⟩
    rw [if_neg (not_not.mpr hnil)] at hparsed
    obtain ⟨-, -, hrest, -⟩ := names_manifest_iff.mp ((hall _).mp (Option.some.inj hparsed).symm)
    exact padded_ne_nil _ (hrest.symm.trans hnil)
  · rw [if_pos hnil, and_iff_right hnil]
    constructor
    · rintro ⟨parsed, hparsed, hall⟩ n hpos hlt hrest
      cases hparsed
      cases (hall (n, .kDescriptorFile)).mpr (names_manifest_iff.mpr ⟨hpos, hlt, hrest, rfl⟩)
    · intro hno
      refine ⟨none, rfl, fun p => iff_of_false nofun fun hnames => ?_⟩
      obtain ⟨hpos, hlt, hrest, -⟩ := names_manifest_iff.mp hnames
      exact hno p.1 hpos hlt hrest

theorem dot_of_suffixType (h : suffixType suffix = some type) : ∃ ext, suffix = '.' :: ext := by
  rw [suffixType] at h
  split_ifs at h with hlog htable htemp
  · exact ⟨_, hlog⟩
  · rcases htable with hsst | hldb
    · exact ⟨_, hsst⟩
    · exact ⟨_, hldb⟩
  · exact ⟨_, htemp⟩

theorem parsesExactly_suffix (hreserved : reservedType name = none)
    (hmanifest : ¬ "MANIFEST-".toList <+: name) : ParsesExactly name ↔ 0 ≤ dotIndex name ∧
      ∀ ext, name.drop (dotIndex name).toNat = '.' :: ext → (suffixType ('.' :: ext)).isSome →
        ∃ n, 0 < n ∧ ReadsBackNumber n ∧ name = makeFileName n ext := by
  have hdropped {n : Nat} (hn : n < 2 ^ 64) {ext : FileName} (hname : name = makeFileName n ext) :
      name.drop (dotIndex name).toNat = '.' :: ext := by
    obtain ⟨hindex, hdrop⟩ := dotIndex_makeFileName hn ext
    rw [hname, hindex]
    exact hdrop
  rw [ParsesExactly, parseString_suffix hreserved hmanifest]
  rcases lt_or_ge (dotIndex name) 0 with hneg | hpos
  · rw [if_pos (.inl hneg)]
    refine iff_of_false ?_ fun h => absurd h.1 (Int.not_le.mpr hneg)
    rintro ⟨parsed, hparsed, -⟩
    cases hparsed
  have hlt := dotIndex_lt hpos
  rw [if_neg (by omega), and_iff_right hpos]
  cases hsuffix : suffixType (name.drop (dotIndex name).toNat) with
  | none =>
    refine iff_of_true ⟨none, rfl, fun p => iff_of_false nofun fun hnames => ?_⟩ ?_
    · obtain ⟨-, hlt, ext, hname, htype⟩ := (names_suffix_iff hreserved hmanifest).mp hnames
      rw [hdropped hlt hname, htype] at hsuffix
      cases hsuffix
    · intro ext hdrop hsome
      rw [← hdrop, hsuffix] at hsome
      cases hsome
  | some type =>
    obtain ⟨ext, hext⟩ := dot_of_suffixType hsuffix
    rw [hext] at hsuffix
    constructor
    · rintro ⟨parsed, hparsed, hall⟩ ext' hdrop -
      cases hparsed
      have hnames := (hall (strtoull name, type)).mp rfl
      obtain ⟨hpos, hlt, ext₁, hname, -⟩ := (names_suffix_iff hreserved hmanifest).mp hnames
      have hread : readNumber (strtoull name) = strtoull name := by
        conv_rhs => rw [hname, strtoull_makeFileName]
      refine ⟨strtoull name, hpos, readNumber_eq_iff.mp hread, ?_⟩
      rw [hdropped hlt hname] at hdrop
      rwa [← (List.cons.inj hdrop).2]
    · intro hnumber
      obtain ⟨n, hpos, hback, hname⟩ := hnumber ext hext (by rw [hsuffix]; rfl)
      have hn : n < 2 ^ 64 := by
        rw [ReadsBackNumber] at hback
        omega
      have hread : strtoull name = n := by
        rw [hname, strtoull_makeFileName, readNumber_eq_iff.mpr hback]
      refine ⟨_, rfl, fun p => ?_⟩
      rw [names_suffix_iff hreserved hmanifest, hread]
      constructor
      · intro hp
        cases hp
        exact ⟨hpos, hn, ext, hname, hsuffix⟩
      · rintro ⟨-, -, ext', hname', htype⟩
        obtain ⟨hnumber, rfl⟩ := makeFileName_inj (hname.symm.trans hname')
        rw [hsuffix] at htype
        exact congrArg some (Prod.ext hnumber (Option.some.inj htype))

/-- `ParsefileName` is right for exactly these strings. -/
theorem parsesExactly_iff (name : FileName) : ParsesExactly name ↔ RightName name := by
  rw [RightName]
  cases hreserved : reservedType name with
  | some type => exact iff_of_true (parsesExactly_reserved hreserved) (.inl rfl)
  | none =>
    rw [Option.isSome_none, or_iff_right Bool.false_ne_true]
    by_cases hmanifest : "MANIFEST-".toList <+: name
    · rw [or_iff_left fun h => h.1 hmanifest]
      obtain ⟨rest, rfl⟩ := hmanifest
      rw [parsesExactly_manifest]
      constructor
      · exact fun h => ⟨rest, rfl, h⟩
      · rintro ⟨rest', heq, h⟩
        rwa [List.append_cancel_left heq]
    · rw [parsesExactly_suffix hreserved hmanifest, or_iff_right, and_iff_right hmanifest]
      rintro ⟨rest, rfl, -⟩
      exact hmanifest (List.prefix_append _ _)

/-- The log number 8 reads back as 0. -/
theorem not_parsesExactly_log : ¬ ParsesExactly (logFileName 8) := by
  rintro ⟨parsed, hparsed, hall⟩
  have hread : parseString (logFileName 8) = some (some (0, .kLogFile)) := by
    rw [parseString_eq (by decide), parsefileName_logFileName]
    decide
  rw [hread] at hparsed
  cases hparsed
  cases (hall (8, .kLogFile)).mpr (.log 8 (by decide) (by decide))

end Yubindb
