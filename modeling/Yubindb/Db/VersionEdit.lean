import Std.Data.ExtTreeSet
import Yubindb.Util.Key

/-!
# Version edits

`src/db/version_edit.h`, `src/db/version_edit.cpp`: the changes that one manifest record carries,
their encoding, and the loop that decodes them.
-/

namespace Yubindb

/-- `config::kNumLevels`. -/
abbrev kNumLevels : Nat := 7

instance : NeZero kNumLevels := ⟨Nat.succ_ne_zero 6⟩

/-- An index into the arrays of `kNumLevels` elements. -/
abbrev Level := Fin kNumLevels

/-! ## The edit -/

section Tag

@[match_pattern] abbrev kLogNumber : Nat := 0
@[match_pattern] abbrev kNextFileNumber : Nat := 1
@[match_pattern] abbrev kLastSequence : Nat := 2
@[match_pattern] abbrev kCompactPointer : Nat := 3
@[match_pattern] abbrev kDeletedFile : Nat := 4
@[match_pattern] abbrev kNewFile : Nat := 5

end Tag

/-- The order of `std::pair`: by level, then by file number. -/
instance : Ord (Level × Nat) := lexOrd

instance : Std.TransOrd (Level × Nat) := inferInstance

/-- `VersionEdit::DeletedFileSet`, iterated in ascending order. -/
abbrev DeletedFileSet := Std.ExtTreeSet (Level × Nat)

/-- `VersionEdit`; a number and its `has_` flag are one `Option`. -/
structure VersionEdit where
  logNumber : Option Nat := none
  nextFileNumber : Option Nat := none
  lastSequence : Option Nat := none
  compactPointers : List (Level × InternalKey) := []
  deletedFiles : DeletedFileSet := ∅
  newFiles : List (Level × FileMate) := []
  deriving DecidableEq

namespace VersionEdit

def setLogNumber (edit : VersionEdit) (num : Nat) : VersionEdit := { edit with logNumber := some num }

def setNextFile (edit : VersionEdit) (num : Nat) : VersionEdit :=
  { edit with nextFileNumber := some num }

def setLastSequence (edit : VersionEdit) (seq : Nat) : VersionEdit :=
  { edit with lastSequence := some seq }

def setCompactPointer (edit : VersionEdit) (level : Level) (key : InternalKey) : VersionEdit :=
  { edit with compactPointers := edit.compactPointers ++ [(level, key)] }

def addFile (edit : VersionEdit) (level : Level) (f : FileMate) : VersionEdit :=
  { edit with newFiles := edit.newFiles ++ [(level, f)] }

def deleteFile (edit : VersionEdit) (level : Level) (file : Nat) : VersionEdit :=
  { edit with deletedFiles := edit.deletedFiles.insert (level, file) }

/-! ## Encoding -/

def encodeCompactPointer (p : Level × InternalKey) : Bytes :=
  putVarint32 kCompactPointer ++ putVarint32 p.1 ++ putLengthPrefixedview p.2.Key

def encodeDeletedFile (d : Level × Nat) : Bytes :=
  putVarint32 kDeletedFile ++ putVarint32 d.1 ++ putVarint64 d.2

def encodeNewFile (p : Level × FileMate) : Bytes :=
  putVarint32 kNewFile ++ putVarint32 p.1 ++ putVarint64 p.2.num ++ putVarint64 p.2.fileSize ++
    putLengthPrefixedview p.2.smallest.Key ++ putLengthPrefixedview p.2.largest.Key

/-- One of the three optional numbers. -/
def encodeNumber (tag : Nat) : Option Nat → Bytes
  | some n => putVarint32 tag ++ putVarint64 n
  | none => []

/-- `VersionEdit::EncodeTo`, onto the empty string. -/
def encodeTo (edit : VersionEdit) : Bytes :=
  encodeNumber kLogNumber edit.logNumber ++
    encodeNumber kNextFileNumber edit.nextFileNumber ++
    encodeNumber kLastSequence edit.lastSequence ++
    edit.compactPointers.flatMap encodeCompactPointer ++
    edit.deletedFiles.toList.flatMap encodeDeletedFile ++
    edit.newFiles.flatMap encodeNewFile

/-! ## Decoding -/

/-- `GetInternalKey`. -/
def getInternalKey (input : Bytes) : Option (InternalKey × Bytes) := do
  let (str, input) ← getLengthPrefixedview input
  let key ← InternalKey.decodeFrom str
  return (key, input)

/-- `GetLevel`. -/
def getLevel (input : Bytes) : Option (Level × Bytes) := do
  let (v, input) ← getVarint32 input
  if h : v < kNumLevels then return (⟨v, h⟩, input) else none

/-- The value of a field, or the message for a field that does not decode. -/
def orMessage {α : Type} (msg : String) (field : Option α) : Except String α :=
  field.elim (.error msg) .ok

/-- The `switch` of `DecodeFrom`: the message that ends the loop, or the edit with the field and the
rest of the input. There is no case for `kCompactPointer`. -/
def decodeField (edit : VersionEdit) (tag : Nat) (input : Bytes) :
    Except String (VersionEdit × Bytes) :=
  match tag with
  | kLogNumber => orMessage "VersionEdit : log number" do
    let (n, input) ← getVarint64 input
    return (edit.setLogNumber n, input)
  | kNextFileNumber => orMessage "VersionEdit : next file number" do
    let (n, input) ← getVarint64 input
    return (edit.setNextFile n, input)
  | kLastSequence => orMessage "VersionEdit : last sequence number" do
    let (n, input) ← getVarint64 input
    return (edit.setLastSequence n, input)
  | kDeletedFile => orMessage "VersionEdit : deleted file" do
    let (level, input) ← getLevel input
    let (number, input) ← getVarint64 input
    return (edit.deleteFile level number, input)
  | kNewFile => orMessage "VersionEdit : new-file entry" do
    let (level, input) ← getLevel input
    let (num, input) ← getVarint64 input
    let (fileSize, input) ← getVarint64 input
    let (smallest, input) ← getInternalKey input
    let (largest, input) ← getInternalKey input
    return (edit.addFile level ⟨num, fileSize, smallest, largest⟩, input)
  | _ => .error "VersionEdit : unknown tag"

theorem length_of_getInternalKey {input rest : Bytes} {key : InternalKey}
    (h : getInternalKey input = some (key, rest)) : rest.length < input.length := by
  simp only [getInternalKey, bind, Option.bind_eq_some_iff] at h
  obtain ⟨⟨str, tail⟩, hstr, k, -, h⟩ := h
  cases h
  exact length_of_getLengthPrefixedview hstr

theorem length_of_getLevel {input rest : Bytes} {level : Level}
    (h : getLevel input = some (level, rest)) : rest.length < input.length := by
  simp only [getLevel, bind, Option.bind_eq_some_iff] at h
  obtain ⟨⟨v, tail⟩, hv, h⟩ := h
  split at h
  · cases h
    exact length_of_getVarint32 hv
  · cases h

theorem orMessage_eq_ok {α : Type} {msg : String} {field : Option α} {a : α} :
    orMessage msg field = .ok a ↔ field = some a := by
  cases field <;> simp [orMessage]

theorem length_of_decodeField {edit edit' : VersionEdit} {tag : Nat} {input rest : Bytes}
    (h : decodeField edit tag input = .ok (edit', rest)) : rest.length < input.length := by
  unfold decodeField at h
  split at h
  case h_6 => cases h
  all_goals
    simp only [orMessage_eq_ok, bind, Option.bind_eq_some_iff] at h
  case h_1 | h_2 | h_3 =>
    obtain ⟨⟨n, tail⟩, hn, h⟩ := h
    cases h
    exact length_of_getVarint64 hn
  case h_4 =>
    obtain ⟨⟨level, t₁⟩, h₁, ⟨n, t₂⟩, h₂, h⟩ := h
    cases h
    exact (length_of_getVarint64 h₂).trans (length_of_getLevel h₁)
  case h_5 =>
    obtain ⟨⟨level, t₁⟩, h₁, ⟨n, t₂⟩, h₂, ⟨size, t₃⟩, h₃, ⟨small, t₄⟩, h₄, ⟨large, t₅⟩, h₅, h⟩ := h
    cases h
    exact (length_of_getInternalKey h₅).trans ((length_of_getInternalKey h₄).trans
      ((length_of_getVarint64 h₃).trans ((length_of_getVarint64 h₂).trans (length_of_getLevel h₁))))

/-- The loop of `DecodeFrom` and the check behind it: `msg` and the edit. -/
def decodeLoop (edit : VersionEdit) (input : Bytes) : Option String × VersionEdit :=
  match _htag : getVarint32 input with
  | none => (if input = [] then none else some "VersionEdit : invalid tag", edit)
  | some (tag, rest) =>
    match _hfield : decodeField edit tag rest with
    | .error msg => (some msg, edit)
    | .ok (edit', rest') => decodeLoop edit' rest'
termination_by input.length
decreasing_by exact (length_of_decodeField _hfield).trans (length_of_getVarint32 _htag)

/-- `VersionEdit::DecodeFrom`. -/
def decodeFrom (src : Bytes) : State × VersionEdit :=
  let (msg, edit) := decodeLoop {} src
  (if msg.isSome then .corruption else .ok, edit)

/-! ## The round trip -/

/-- The numbers fit `uint64_t` and no key is empty. -/
structure WellFormed (edit : VersionEdit) : Prop where
  logNumber : ∀ n ∈ edit.logNumber, n < 2 ^ 64
  nextFileNumber : ∀ n ∈ edit.nextFileNumber, n < 2 ^ 64
  lastSequence : ∀ n ∈ edit.lastSequence, n < 2 ^ 64
  compactPointers : ∀ p ∈ edit.compactPointers, p.2.Key ≠ []
  deletedFiles : ∀ d ∈ edit.deletedFiles, d.2 < 2 ^ 64
  newFiles : ∀ p ∈ edit.newFiles,
    (p.2.num < 2 ^ 64 ∧ p.2.fileSize < 2 ^ 64) ∧ p.2.smallest.Key ≠ [] ∧ p.2.largest.Key ≠ []

/-- `PutLengthPrefixedview` counts the keys of the new files in 32 bits. -/
def ShortKeys (edit : VersionEdit) : Prop :=
  ∀ p ∈ edit.newFiles, p.2.smallest.Key.length < 2 ^ 32 ∧ p.2.largest.Key.length < 2 ^ 32

/-- An edit whose numbers fit `uint64_t` and whose keys are internal keys that `PutLengthPrefixedview`
can encode. -/
structure Encodable (edit : VersionEdit) : Prop where
  logNumber : ∀ n ∈ edit.logNumber, n < 2 ^ 64
  nextFileNumber : ∀ n ∈ edit.nextFileNumber, n < 2 ^ 64
  lastSequence : ∀ n ∈ edit.lastSequence, n < 2 ^ 64
  deletedFiles : ∀ d ∈ edit.deletedFiles, d.2 < 2 ^ 64
  newFiles : ∀ p ∈ edit.newFiles, p.2.Encodable

theorem Encodable.shortKeys {edit : VersionEdit} (h : edit.Encodable) : edit.ShortKeys :=
  fun p hp => ⟨(h.newFiles p hp).smallest.2, (h.newFiles p hp).largest.2⟩

theorem Encodable.wellFormed {edit : VersionEdit} (h : edit.Encodable)
    (hpointers : edit.compactPointers = []) : edit.WellFormed where
  logNumber := h.logNumber
  nextFileNumber := h.nextFileNumber
  lastSequence := h.lastSequence
  compactPointers := by simp [hpointers]
  deletedFiles := h.deletedFiles
  newFiles p hp :=
    have hf := h.newFiles p hp
    ⟨⟨hf.num, hf.fileSize⟩, hf.smallest.ne_nil, hf.largest.ne_nil⟩

theorem getLevel_put (level : Level) (rest : Bytes) :
    getLevel (putVarint32 level ++ rest) = some (level, rest) := by
  have hlevel : (level : Nat) < 2 ^ 32 := level.isLt.trans (by decide)
  simp [getLevel, getVarint32_put hlevel]

theorem getInternalKey_put {key : InternalKey} (hne : key.Key ≠ []) (hlen : key.Key.length < 2 ^ 32)
    (rest : Bytes) :
    getInternalKey (putLengthPrefixedview key.Key ++ rest) = some (key, rest) := by
  simp [getInternalKey, getLengthPrefixedview_put hlen, InternalKey.decodeFrom, hne]

theorem decodeLoop_nil (edit : VersionEdit) : decodeLoop edit [] = (none, edit) := by
  rw [decodeLoop]
  rfl

/-- One turn of the loop. -/
theorem decodeLoop_of_getVarint32 {edit edit' : VersionEdit} {tag : Nat} {input rest rest' : Bytes}
    (htag : getVarint32 input = some (tag, rest))
    (h : decodeField edit tag rest = .ok (edit', rest')) :
    decodeLoop edit input = decodeLoop edit' rest' := by
  rw [decodeLoop]
  split
  · next heq =>
    rw [htag] at heq
    cases heq
  · next heq =>
    rw [htag] at heq
    cases heq
    split
    · next heq =>
      rw [h] at heq
      cases heq
    · next heq =>
      rw [h] at heq
      cases heq
      rfl

theorem decodeLoop_field {edit edit' : VersionEdit} {tag : Nat} {rest rest' : Bytes}
    (htag : tag < 2 ^ 32) (h : decodeField edit tag rest = .ok (edit', rest')) :
    decodeLoop edit (putVarint32 tag ++ rest) = decodeLoop edit' rest' :=
  decodeLoop_of_getVarint32 (getVarint32_put htag rest) h

theorem decodeLoop_error {edit : VersionEdit} {tag : Nat} {rest : Bytes} {msg : String}
    (htag : tag < 2 ^ 32) (h : decodeField edit tag rest = .error msg) :
    decodeLoop edit (putVarint32 tag ++ rest) = (some msg, edit) := by
  rw [decodeLoop]
  split
  · next heq =>
    rw [getVarint32_put htag] at heq
    cases heq
  · next heq =>
    rw [getVarint32_put htag] at heq
    cases heq
    split
    · next heq =>
      rw [h] at heq
      cases heq
      rfl
    · next heq =>
      rw [h] at heq
      cases heq

variable {edit edit' : VersionEdit}

theorem decodeLoop_logNumber {n : Option Nat} (h : ∀ v ∈ n, v < 2 ^ 64) (rest : Bytes) :
    decodeLoop edit (encodeNumber kLogNumber n ++ rest) =
      decodeLoop { edit with logNumber := n.or edit.logNumber } rest := by
  cases n with
  | none => rfl
  | some v =>
    rw [encodeNumber, List.append_assoc]
    exact decodeLoop_field (by decide) (by
      simp [decodeField, getVarint64_put (h v rfl), orMessage, setLogNumber])

theorem decodeLoop_nextFileNumber {n : Option Nat} (h : ∀ v ∈ n, v < 2 ^ 64) (rest : Bytes) :
    decodeLoop edit (encodeNumber kNextFileNumber n ++ rest) =
      decodeLoop { edit with nextFileNumber := n.or edit.nextFileNumber } rest := by
  cases n with
  | none => rfl
  | some v =>
    rw [encodeNumber, List.append_assoc]
    exact decodeLoop_field (by decide) (by
      simp [decodeField, getVarint64_put (h v rfl), orMessage, setNextFile])

theorem decodeLoop_lastSequence {n : Option Nat} (h : ∀ v ∈ n, v < 2 ^ 64) (rest : Bytes) :
    decodeLoop edit (encodeNumber kLastSequence n ++ rest) =
      decodeLoop { edit with lastSequence := n.or edit.lastSequence } rest := by
  cases n with
  | none => rfl
  | some v =>
    rw [encodeNumber, List.append_assoc]
    exact decodeLoop_field (by decide) (by
      simp [decodeField, getVarint64_put (h v rfl), orMessage, setLastSequence])

theorem decodeField_compactPointer (rest : Bytes) :
    decodeField edit kCompactPointer rest = .error "VersionEdit : unknown tag" := rfl

theorem decodeField_deletedFile {d : Level × Nat} (h : d.2 < 2 ^ 64) (rest : Bytes) :
    decodeField edit kDeletedFile (putVarint32 d.1 ++ (putVarint64 d.2 ++ rest)) =
      .ok (edit.deleteFile d.1 d.2, rest) := by
  simp [decodeField, getLevel_put, getVarint64_put h, orMessage]

theorem decodeField_newFile (h : edit'.WellFormed) (hshort : edit'.ShortKeys)
    {p : Level × FileMate} (hp : p ∈ edit'.newFiles) (rest : Bytes) :
    decodeField edit kNewFile (putVarint32 p.1 ++ (putVarint64 p.2.num ++
      (putVarint64 p.2.fileSize ++ (putLengthPrefixedview p.2.smallest.Key ++
        (putLengthPrefixedview p.2.largest.Key ++ rest))))) = .ok (edit.addFile p.1 p.2, rest) := by
  obtain ⟨⟨hnum, hsize⟩, hsmallest, hlargest⟩ := h.newFiles p hp
  obtain ⟨hlen₁, hlen₂⟩ := hshort p hp
  simp [decodeField, getLevel_put, getVarint64_put hnum, getVarint64_put hsize,
    getInternalKey_put hsmallest hlen₁, getInternalKey_put hlargest hlen₂, orMessage]

theorem decodeLoop_deletedFiles {ds : List (Level × Nat)} (h : ∀ d ∈ ds, d.2 < 2 ^ 64)
    (rest : Bytes) :
    decodeLoop edit (ds.flatMap encodeDeletedFile ++ rest) =
      decodeLoop { edit with deletedFiles := edit.deletedFiles.insertMany ds } rest := by
  induction ds generalizing edit with
  | nil => simp
  | cons d ds ih =>
    have hd := h d List.mem_cons_self
    simp only [List.flatMap_cons, encodeDeletedFile, List.append_assoc]
    rw [decodeLoop_field (by decide) (decodeField_deletedFile hd _),
      ih fun e he => h e (List.mem_cons_of_mem _ he), Std.ExtTreeSet.insertMany_cons]
    rfl

theorem decodeLoop_newFiles (h : edit'.WellFormed) (hshort : edit'.ShortKeys)
    {fs : List (Level × FileMate)} (hfs : fs ⊆ edit'.newFiles) (rest : Bytes) :
    decodeLoop edit (fs.flatMap encodeNewFile ++ rest) =
      decodeLoop { edit with newFiles := edit.newFiles ++ fs } rest := by
  induction fs generalizing edit with
  | nil => simp
  | cons p fs ih =>
    obtain ⟨hp, hfs⟩ := List.cons_subset.mp hfs
    simp only [List.flatMap_cons, encodeNewFile, List.append_assoc]
    rw [decodeLoop_field (by decide) (decodeField_newFile h hshort hp _), ih hfs]
    simp [addFile]

/-- Decoding gives back an edit without compaction pointers. -/
theorem decodeFrom_encodeTo_of_shortKeys (h : edit.WellFormed) (hshort : edit.ShortKeys)
    (hpointers : edit.compactPointers = []) : decodeFrom edit.encodeTo = (.ok, edit) := by
  have hdeleted : ∀ d ∈ edit.deletedFiles.toList, d.2 < 2 ^ 64 :=
    fun d hd => h.deletedFiles d (Std.ExtTreeSet.mem_toList.mp hd)
  have hset : (∅ : DeletedFileSet).insertMany edit.deletedFiles.toList = edit.deletedFiles :=
    Std.ExtTreeSet.ext_mem fun d => by simp [Std.ExtTreeSet.mem_insertMany_list]
  have hloop : decodeLoop {} edit.encodeTo = (none, edit) := by
    rw [encodeTo, hpointers, ← List.append_nil (List.flatMap encodeNewFile _)]
    simp only [List.append_assoc, List.flatMap_nil, List.nil_append]
    rw [decodeLoop_logNumber h.logNumber, decodeLoop_nextFileNumber h.nextFileNumber,
      decodeLoop_lastSequence h.lastSequence, decodeLoop_deletedFiles hdeleted,
      decodeLoop_newFiles h hshort (List.Subset.refl _), decodeLoop_nil, hset]
    cases edit
    cases hpointers
    simp
  rw [decodeFrom, hloop]
  rfl

theorem decodeFrom_encodeTo (h : edit.Encodable) (hpointers : edit.compactPointers = []) :
    decodeFrom edit.encodeTo = (.ok, edit) :=
  decodeFrom_encodeTo_of_shortKeys (h.wellFormed hpointers) h.shortKeys hpointers

/-- A record with a compaction pointer does not decode. -/
theorem decodeFrom_of_compactPointers (hlog : ∀ n ∈ edit.logNumber, n < 2 ^ 64)
    (hnext : ∀ n ∈ edit.nextFileNumber, n < 2 ^ 64) (hlast : ∀ n ∈ edit.lastSequence, n < 2 ^ 64)
    (hpointers : edit.compactPointers ≠ []) : (decodeFrom edit.encodeTo).1 = .corruption := by
  obtain ⟨p, ps, hp⟩ := List.exists_cons_of_ne_nil hpointers
  simp only [decodeFrom, encodeTo, hp, List.flatMap_cons, encodeCompactPointer, List.append_assoc]
  rw [decodeLoop_logNumber hlog, decodeLoop_nextFileNumber hnext, decodeLoop_lastSequence hlast,
    decodeLoop_error (by decide) (decodeField_compactPointer _)]
  rfl

/-! ## What decoding can give -/

theorem of_getInternalKey {input rest : Bytes} {key : InternalKey}
    (h : getInternalKey input = some (key, rest)) : key.Key ≠ [] ∧ key.Key.length < 2 ^ 32 := by
  simp only [getInternalKey, bind, Option.bind_eq_some_iff] at h
  obtain ⟨⟨str, tail⟩, hstr, k, hk, h⟩ := h
  cases h
  rw [InternalKey.decodeFrom] at hk
  split at hk
  · cases hk
  · next hne =>
    cases hk
    exact ⟨by simpa using hne, length_lt_of_getLengthPrefixedview hstr⟩

/-- A file as a record can spell it: every number was read into a `uint64_t`, and every key is a
nonempty string with a length prefix. -/
structure ReadFrom (f : FileMate) : Prop where
  num : f.num < 2 ^ 64
  fileSize : f.fileSize < 2 ^ 64
  smallest : f.smallest.Key ≠ [] ∧ f.smallest.Key.length < 2 ^ 32
  largest : f.largest.Key ≠ [] ∧ f.largest.Key.length < 2 ^ 32

/-- What one field adds to the edit. -/
theorem decodeField_cases {tag : Nat} {input rest : Bytes}
    (h : decodeField edit tag input = .ok (edit', rest)) :
    (∃ n < 2 ^ 64, edit' = edit.setLogNumber n) ∨ (∃ n < 2 ^ 64, edit' = edit.setNextFile n) ∨
      (∃ n < 2 ^ 64, edit' = edit.setLastSequence n) ∨
      (∃ level, ∃ n < 2 ^ 64, edit' = edit.deleteFile level n) ∨
      ∃ level f, ReadFrom f ∧ edit' = edit.addFile level f := by
  unfold decodeField at h
  split at h
  case h_6 => cases h
  all_goals
    simp only [orMessage_eq_ok, bind, Option.bind_eq_some_iff] at h
  case h_1 =>
    obtain ⟨⟨n, tail⟩, hn, h⟩ := h
    cases h
    exact .inl ⟨n, lt_of_getVarint64 hn, rfl⟩
  case h_2 =>
    obtain ⟨⟨n, tail⟩, hn, h⟩ := h
    cases h
    exact .inr (.inl ⟨n, lt_of_getVarint64 hn, rfl⟩)
  case h_3 =>
    obtain ⟨⟨n, tail⟩, hn, h⟩ := h
    cases h
    exact .inr (.inr (.inl ⟨n, lt_of_getVarint64 hn, rfl⟩))
  case h_4 =>
    obtain ⟨⟨level, t₁⟩, -, ⟨n, t₂⟩, hn, h⟩ := h
    cases h
    exact .inr (.inr (.inr (.inl ⟨level, n, lt_of_getVarint64 hn, rfl⟩)))
  case h_5 =>
    obtain ⟨⟨level, t₁⟩, -, ⟨n, t₂⟩, hn, ⟨size, t₃⟩, hsize, ⟨small, t₄⟩, h₄, ⟨large, t₅⟩, h₅, h⟩ := h
    cases h
    exact .inr (.inr (.inr (.inr ⟨level, ⟨n, size, small, large⟩,
      ⟨lt_of_getVarint64 hn, lt_of_getVarint64 hsize, of_getInternalKey h₄, of_getInternalKey h₅⟩,
      rfl⟩)))

/-- What every field keeps holds of the edit that the loop leaves, at an error too. -/
theorem decodeLoop_invariant {P : VersionEdit → Prop}
    (hfield : ∀ edit edit' tag input rest, P edit →
      decodeField edit tag input = .ok (edit', rest) → P edit')
    (hedit : P edit) (input : Bytes) : P (decodeLoop edit input).2 := by
  fun_induction decodeLoop edit input with
  | case1 edit input => exact hedit
  | case2 edit input tag rest htag msg hfield => exact hedit
  | case3 edit input tag rest htag edit' rest' heq ih => exact ih (hfield _ _ _ _ _ hedit heq)

/-- What every field of a record keeps: the edit has no compaction pointer, and what it has was
read from a record. -/
structure Decoded (edit : VersionEdit) : Prop where
  logNumber : ∀ n ∈ edit.logNumber, n < 2 ^ 64
  nextFileNumber : ∀ n ∈ edit.nextFileNumber, n < 2 ^ 64
  lastSequence : ∀ n ∈ edit.lastSequence, n < 2 ^ 64
  compactPointers : edit.compactPointers = []
  deletedFiles : ∀ d ∈ edit.deletedFiles, d.2 < 2 ^ 64
  newFiles : ∀ p ∈ edit.newFiles, ReadFrom p.2

theorem decoded_empty : Decoded {} where
  logNumber n hn := absurd hn (Option.not_mem_none n)
  nextFileNumber n hn := absurd hn (Option.not_mem_none n)
  lastSequence n hn := absurd hn (Option.not_mem_none n)
  compactPointers := rfl
  deletedFiles _ hd := absurd hd Std.ExtTreeSet.not_mem_empty
  newFiles := List.forall_mem_nil _

/-- A later field replaces a number, and a deletion that is already there changes nothing. -/
theorem Decoded.decodeField (h : edit.Decoded) {tag : Nat} {input rest : Bytes}
    (hfield : decodeField edit tag input = .ok (edit', rest)) : edit'.Decoded := by
  obtain ⟨n, hn, rfl⟩ | ⟨n, hn, rfl⟩ | ⟨n, hn, rfl⟩ | ⟨level, n, hn, rfl⟩ | ⟨level, f, hf, rfl⟩ :=
    decodeField_cases hfield
  · exact { h with logNumber := fun m hm => Option.some.inj hm ▸ hn }
  · exact { h with nextFileNumber := fun m hm => Option.some.inj hm ▸ hn }
  · exact { h with lastSequence := fun m hm => Option.some.inj hm ▸ hn }
  · refine { h with deletedFiles := fun d hd => ?_ }
    rcases Std.ExtTreeSet.mem_insert.mp hd with heq | hd
    · rw [← Std.LawfulEqCmp.eq_of_compare heq]
      exact hn
    · exact h.deletedFiles d hd
  · refine { h with newFiles := fun p hp => ?_ }
    rcases List.mem_append.mp hp with hp | hp
    · exact h.newFiles p hp
    · rw [List.mem_singleton.mp hp]
      exact hf

theorem decoded_decodeFrom (src : Bytes) : (decodeFrom src).2.Decoded :=
  decodeLoop_invariant (fun _ _ _ _ _ h hfield => h.decodeField hfield) decoded_empty src

theorem Decoded.wellFormed (h : edit.Decoded) : edit.WellFormed where
  logNumber := h.logNumber
  nextFileNumber := h.nextFileNumber
  lastSequence := h.lastSequence
  compactPointers := by simp [h.compactPointers]
  deletedFiles := h.deletedFiles
  newFiles p hp :=
    have hf := h.newFiles p hp
    ⟨⟨hf.num, hf.fileSize⟩, hf.smallest.1, hf.largest.1⟩

theorem Decoded.shortKeys (h : edit.Decoded) : edit.ShortKeys :=
  fun p hp => ⟨(h.newFiles p hp).smallest.2, (h.newFiles p hp).largest.2⟩

/-- No record sets a compaction pointer, and the log number was read into a `uint64_t`. -/
theorem decodeFrom_numbers (src : Bytes) :
    (decodeFrom src).2.compactPointers = [] ∧ ∀ n ∈ (decodeFrom src).2.logNumber, n < 2 ^ 64 :=
  ⟨(decoded_decodeFrom src).compactPointers, (decoded_decodeFrom src).logNumber⟩

/-- Decoding normalises: what a record decodes to, however it spells it, is what its own encoding
decodes to. -/
theorem decodeFrom_encodeTo_of_decodeFrom {src : Bytes} (h : decodeFrom src = (.ok, edit)) :
    decodeFrom edit.encodeTo = (.ok, edit) := by
  have hdecoded := decoded_decodeFrom src
  rw [h] at hdecoded
  exact decodeFrom_encodeTo_of_shortKeys hdecoded.wellFormed hdecoded.shortKeys
    hdecoded.compactPointers

/-- A record with its tag and its number in more bytes than they need, the log number twice, and a
deletion and a file twice. -/
def redundantRecord : Bytes :=
  [128, 0, 131, 0] ++ [0, 5] ++ [4, 1, 7] ++ [4, 1, 135, 0] ++ [5, 0, 9, 1, 1, 107, 1, 107] ++
    [5, 0, 9, 1, 1, 107, 1, 107]

/-- What `redundantRecord` says. -/
def redundantEdit : VersionEdit where
  logNumber := some 5
  deletedFiles := (∅ : DeletedFileSet).insert (1, 7)
  newFiles := [(0, ⟨9, 1, ⟨[107]⟩, ⟨[107]⟩⟩), (0, ⟨9, 1, ⟨[107]⟩, ⟨[107]⟩⟩)]

theorem decodeFrom_redundantRecord : decodeFrom redundantRecord = (.ok, redundantEdit) := by
  have hloop : decodeLoop {} redundantRecord = (none, redundantEdit) := by
    iterate 6 refine (decodeLoop_of_getVarint32 rfl rfl).trans ?_
    exact decodeLoop_nil _
  rw [decodeFrom, hloop]
  rfl

theorem decodeFrom_encodeTo_redundantEdit :
    decodeFrom redundantEdit.encodeTo = (.ok, redundantEdit) :=
  decodeFrom_encodeTo_of_decodeFrom decodeFrom_redundantRecord

/-- Exactly the edits without compaction pointers, and with keys short enough for a length prefix, are
read back as they were written. -/
theorem decodeFrom_encodeTo_iff (h : edit.WellFormed) :
    decodeFrom edit.encodeTo = (.ok, edit) ↔ edit.compactPointers = [] ∧ edit.ShortKeys := by
  constructor
  · intro hdecode
    constructor
    · by_contra hpointers
      have hbad :=
        decodeFrom_of_compactPointers h.logNumber h.nextFileNumber h.lastSequence hpointers
      rw [hdecode] at hbad
      cases hbad
    · have hshort := (decoded_decodeFrom edit.encodeTo).shortKeys
      rwa [hdecode] at hshort
  · rintro ⟨hpointers, hshort⟩
    exact decodeFrom_encodeTo_of_shortKeys h hshort hpointers

/-- An edit with one file, as a memtable's flush makes it. -/
def oneFile : VersionEdit :=
  ((({} : VersionEdit).setLogNumber 3).setLastSequence 1).addFile 0
    ⟨5, 100, .new [107] 1 .value, .new [107] 1 .value⟩

theorem wellFormed_oneFile : oneFile.WellFormed where
  logNumber := by decide
  nextFileNumber := by decide
  lastSequence := by decide
  compactPointers := by decide
  deletedFiles d hd := absurd hd Std.ExtTreeSet.not_mem_empty
  newFiles := by decide

theorem decodeFrom_encodeTo_oneFile :
    decodeFrom oneFile.encodeTo = (.ok, oneFile) ↔
      oneFile.compactPointers = [] ∧ oneFile.ShortKeys :=
  decodeFrom_encodeTo_iff wellFormed_oneFile

/-- The edit of a compaction of level 1 carries the level's compaction pointer. -/
theorem not_decodeFrom_encodeTo :
    ¬ ∀ edit : VersionEdit, edit.WellFormed → decodeFrom edit.encodeTo = (.ok, edit) := by
  intro h
  let edit := ({} : VersionEdit).setCompactPointer 1 (.new [107] 1 .value)
  have hedit : edit.WellFormed :=
    ⟨by decide, by decide, by decide, by decide, fun d hd => absurd hd Std.ExtTreeSet.not_mem_empty,
      by decide⟩
  have hbad := decodeFrom_of_compactPointers hedit.logNumber hedit.nextFileNumber
    hedit.lastSequence (List.cons_ne_nil _ _)
  rw [h edit hedit] at hbad
  cases hbad

end VersionEdit
end Yubindb
