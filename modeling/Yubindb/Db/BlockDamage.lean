import Yubindb.Db.EntryLengths

/-!
# Iterating over a damaged block

`src/db/block.h`: the loop that goes through a block with `SeekToFirst` and `Next`, over any string that
the constructor of `Block` takes.
-/

namespace Yubindb

/-! ## Entries -/

theorem suffix_of_decodeEntry {p rest : Bytes} {shared nonShared valueLength : ℕ}
    (h : decodeEntry p = some (shared, nonShared, valueLength, rest)) : rest <:+ p := by
  obtain ⟨⟨ds₁, ds₂, ds₃, rfl, -⟩, -⟩ := decodeEntry_eq_some_iff.mp h
  exact ⟨ds₁ ++ (ds₂ ++ ds₃), by simp only [List.append_assoc]⟩

/-- The entries of this string parse one behind the other, the first of them behind a key of
`keyLength` bytes: each shares no more than the key in front of it has, and its key and its value lie
in the string. -/
inductive Parses : Bytes → ℕ → Prop
  | nil (keyLength : ℕ) : Parses [] keyLength
  | entry {p rest : Bytes} {keyLength shared nonShared valueLength : ℕ}
    (hentry : decodeEntry p = some (shared, nonShared, valueLength, rest))
    (hshared : shared ≤ keyLength) (hlength : nonShared + valueLength ≤ rest.length)
    (hrest : Parses (rest.drop (nonShared + valueLength)) (shared + nonShared)) : Parses p keyLength

/-! ## The loop -/

namespace BlockIter

/-- `Valid`. -/
def valid (it : BlockIter) : Prop := it.current < it.restarts

instance (it : BlockIter) : Decidable it.valid := inferInstanceAs (Decidable (_ < _))

/-- `state`: nothing assigns `state_`. -/
def state (_ : BlockIter) : State := .ok

/-- The sum of the lengths of the next entry wraps around in `DecodeEntry`, and `ParseNextKey` takes
the key or the value from behind the block, which has no defined outcome. -/
def overruns (it : BlockIter) : Bool :=
  match decodeEntry (it.entriesFrom it.nextEntryOffset) with
  | some (shared, nonShared, valueLength, p) =>
    shared ≤ it.key.length ∧ p.length < nonShared + valueLength
  | none => false

/-- `ParseNextKey` finds an entry that does not parse. -/
def Fails (it : BlockIter) : Prop :=
  it.nextEntryOffset < it.restarts ∧ it.parseNextKey.1 = false

/-- `while (Valid()) Next()` with the call of `ParseNextKey` in front of it that ends `SeekToFirst`:
as many turns as there is fuel, and the iterator behind the loop. -/
def iterate : ℕ → BlockIter → Option BlockIter
  | 0, _ => none
  | fuel + 1, it =>
    if it.overruns then none
    else
      let it := it.parseNextKey.2
      if it.valid then iterate fuel it else some it

/-- On its way the loop comes to an entry that does not parse. -/
inductive MeetsFailure : BlockIter → Prop
  | here {it : BlockIter} (h : it.Fails) : MeetsFailure it
  | later {it : BlockIter} (hvalid : it.parseNextKey.2.valid)
    (h : MeetsFailure it.parseNextKey.2) : MeetsFailure it

/-- The loop ends, and if it came to an entry that does not parse, the iterator is not valid behind it
and reports an error. -/
structure EndsWell (it : BlockIter) : Prop where
  ends : ∃ fuel last, it.iterate fuel = some last
  reports : it.MeetsFailure → ∀ fuel last, it.iterate fuel = some last →
    ¬ last.valid ∧ last.state ≠ .ok

variable {it : BlockIter} {p : Bytes} {shared nonShared valueLength : ℕ}

theorem entriesFrom_eq_nil (h : it.restarts ≤ it.nextEntryOffset) :
    it.entriesFrom it.nextEntryOffset = [] := by
  rw [entriesFrom, List.drop_eq_nil_iff, List.length_take]
  exact (Nat.min_le_left _ _).trans h

/-- Behind the last entry the loop ends. -/
theorem parseNextKey_of_le (h : it.restarts ≤ it.nextEntryOffset) :
    it.parseNextKey = (false, { it with current := it.restarts, restartIndex := it.numRestarts }) := by
  rw [parseNextKey, if_pos h]

/-- What `ParseNextKey` makes of an entry that lies in the block. -/
theorem parseNextKey_of_entry (hlt : it.nextEntryOffset < it.restarts)
    (hdata : it.restarts ≤ it.data.length)
    (hentry : decodeEntry (it.entriesFrom it.nextEntryOffset) = some (shared, nonShared, valueLength, p))
    (hshared : shared ≤ it.key.length) (hlength : nonShared + valueLength ≤ p.length) :
    ∃ it', it.parseNextKey = (true, it') ∧ it'.restarts = it.restarts ∧ it'.data = it.data ∧
      it'.valid ∧ it'.key.length = shared + nonShared ∧
      it'.entriesFrom it'.nextEntryOffset = p.drop (nonShared + valueLength) := by
  have hsuffix : p <:+ it.data.take it.restarts :=
    (suffix_of_decodeEntry hentry).trans (List.drop_suffix _ _)
  obtain ⟨front, hfront⟩ := hsuffix
  have hstart : it.restarts - p.length = front.length := by
    have hlen := congrArg List.length hfront
    rw [List.length_append, List.length_take, Nat.min_eq_left hdata] at hlen
    omega
  rw [parseNextKey, if_neg (Nat.not_le.mpr hlt), hentry]
  dsimp only
  rw [if_neg (Nat.not_lt.mpr hshared)]
  refine ⟨_, rfl, rfl, rfl, hlt, ?_, ?_⟩
  · rw [List.length_append, List.length_take, List.length_take]
    omega
  · have hvalue : ((p.drop nonShared).take valueLength).length = valueLength := by
      rw [List.length_take, List.length_drop]
      omega
    simp only [entriesFrom, nextEntryOffset, hvalue, hstart, ← hfront]
    rw [Nat.add_assoc, ← List.drop_drop, List.drop_left]

/-- What `ParseNextKey` leaves of the iterator in front of an entry that does not parse. -/
def skipKey (it : BlockIter) : BlockIter := { it with current := it.nextEntryOffset, key := [] }

theorem parseNextKey_of_none (hlt : it.nextEntryOffset < it.restarts)
    (hentry : decodeEntry (it.entriesFrom it.nextEntryOffset) = none) :
    it.parseNextKey = (false, it.skipKey) := by
  rw [parseNextKey, if_neg (Nat.not_le.mpr hlt), hentry]
  rfl

theorem parseNextKey_of_short (hlt : it.nextEntryOffset < it.restarts)
    (hentry : decodeEntry (it.entriesFrom it.nextEntryOffset) = some (shared, nonShared, valueLength, p))
    (hshort : it.key.length < shared) :
    it.parseNextKey = (false, it.skipKey) := by
  rw [parseNextKey, if_neg (Nat.not_le.mpr hlt), hentry]
  exact if_pos hshort

/-- An entry that does not parse leaves the iterator valid, and in front of the same entry, which does
not parse with an empty key either. -/
theorem Fails.parseNextKey (h : it.Fails) :
    it.overruns = false ∧ it.parseNextKey.2.valid ∧ it.parseNextKey.2.Fails := by
  obtain ⟨hlt, hfalse⟩ := h
  rcases hentry : decodeEntry (it.entriesFrom it.nextEntryOffset) with _ | ⟨shared, nonShared, n, p⟩
  · rw [parseNextKey_of_none hlt hentry]
    refine ⟨by rw [overruns, hentry], hlt, hlt, ?_⟩
    exact congrArg Prod.fst (@parseNextKey_of_none it.skipKey hlt hentry)
  · rcases Nat.lt_or_ge it.key.length shared with hshort | hshared
    · rw [parseNextKey_of_short hlt hentry hshort]
      refine ⟨by simp [overruns, hentry, hshort], hlt, hlt, ?_⟩
      exact congrArg Prod.fst
        (@parseNextKey_of_short it.skipKey _ _ _ _ hlt hentry (Nat.zero_lt_of_lt hshort))
    · rw [BlockIter.parseNextKey, if_neg (Nat.not_le.mpr hlt), hentry] at hfalse
      dsimp only at hfalse
      rw [if_neg (Nat.not_lt.mpr hshared)] at hfalse
      cases hfalse

theorem overruns_eq_false
    (hentry : decodeEntry (it.entriesFrom it.nextEntryOffset) = some (shared, nonShared, valueLength, p))
    (hshared : shared ≤ it.key.length) :
    it.overruns = false ↔ nonShared + valueLength ≤ p.length := by
  simp [overruns, hentry, hshared]

/-- The loop never leaves an entry that does not parse. -/
theorem Fails.iterate_eq_none (h : it.Fails) (fuel : ℕ) : it.iterate fuel = none := by
  induction fuel generalizing it with
  | zero => rfl
  | succ fuel ih =>
    obtain ⟨hdefined, hvalid, hnext⟩ := h.parseNextKey
    rw [iterate, hdefined]
    exact (if_pos hvalid).trans (ih hnext)

theorem MeetsFailure.iterate_eq_none (h : it.MeetsFailure) (fuel : ℕ) : it.iterate fuel = none := by
  induction h generalizing fuel with
  | here h => exact h.iterate_eq_none fuel
  | later hvalid _ ih =>
    cases fuel with
    | zero => rfl
    | succ fuel =>
      rw [iterate]
      split
      · rfl
      · exact (if_pos hvalid).trans (ih fuel)

/-- Entries that parse up to the restart points bring the loop to its end. -/
theorem exists_iterate_of_parses (hdata : it.restarts ≤ it.data.length) {entries : Bytes}
    {keyLength : ℕ} (h : Parses entries keyLength)
    (hentries : it.entriesFrom it.nextEntryOffset = entries) (hkey : it.key.length = keyLength) :
    ∃ fuel last, it.iterate fuel = some last := by
  induction h generalizing it with
  | nil keyLength =>
    have hle : it.restarts ≤ it.nextEntryOffset := by
      rwa [entriesFrom, List.drop_eq_nil_iff, List.length_take, Nat.min_eq_left hdata] at hentries
    have hdefined : it.overruns = false := by
      rw [overruns, hentries]
      rfl
    refine ⟨1, it.parseNextKey.2, ?_⟩
    rw [iterate, hdefined, parseNextKey_of_le hle]
    exact if_neg (Nat.lt_irrefl _)
  | entry hentry hshared hlength _ ih =>
    subst hkey
    rw [← hentries] at hentry
    have hlt : it.nextEntryOffset < it.restarts := by
      by_contra hge
      rw [entriesFrom_eq_nil (Nat.not_lt.mp hge)] at hentry
      cases hentry
    obtain ⟨it', hparse, hrestarts, hdata', hvalid, hkey', hrest⟩ :=
      parseNextKey_of_entry hlt hdata hentry hshared hlength
    obtain ⟨fuel, last, hend⟩ := ih (by rw [hrestarts, hdata']; exact hdata) hrest hkey'
    refine ⟨fuel + 1, last, ?_⟩
    rw [iterate, (overruns_eq_false hentry hshared).mpr hlength, hparse]
    exact (if_pos hvalid).trans hend

theorem parses_of_iterate (hdata : it.restarts ≤ it.data.length) {fuel : ℕ} {last : BlockIter}
    (h : it.iterate fuel = some last) :
    Parses (it.entriesFrom it.nextEntryOffset) it.key.length := by
  induction fuel generalizing it with
  | zero => cases h
  | succ fuel ih =>
    rcases Nat.lt_or_ge it.nextEntryOffset it.restarts with hlt | hle
    · have hparses : ¬ it.Fails := by
        intro hfails
        rw [hfails.iterate_eq_none] at h
        cases h
      rcases hentry : decodeEntry (it.entriesFrom it.nextEntryOffset) with _ | ⟨shared, nonShared, n, p⟩
      · exact absurd ⟨hlt, congrArg Prod.fst (parseNextKey_of_none hlt hentry)⟩ hparses
      rcases Nat.lt_or_ge it.key.length shared with hshort | hshared
      · exact absurd ⟨hlt, congrArg Prod.fst (parseNextKey_of_short hlt hentry hshort)⟩ hparses
      rw [iterate] at h
      split at h
      · cases h
      · next hdefined =>
        have hlength := (overruns_eq_false hentry hshared).mp (Bool.eq_false_of_not_eq_true hdefined)
        obtain ⟨it', hparse, hrestarts, hdata', hvalid, hkey', hrest⟩ :=
          parseNextKey_of_entry hlt hdata hentry hshared hlength
        rw [hparse] at h
        have hnext := ih (by rw [hrestarts, hdata']; exact hdata) ((if_pos hvalid).symm.trans h)
        rw [hrest, hkey'] at hnext
        exact .entry hentry hshared hlength hnext
    · rw [entriesFrom_eq_nil hle]
      exact .nil _

theorem restarts_le_of_newIterator {data : Bytes} (h : (Block.new data).newIterator = some it) :
    it.restarts ≤ it.data.length := by
  have hle : (Block.new data).restartOffset ≤ (Block.new data).data.length := by
    rw [Block.new]
    dsimp only
    split
    · exact Nat.zero_le _
    · split
      · exact Nat.zero_le _
      · exact (Nat.mod_le _ _).trans (Nat.sub_le _ _)
  rw [Block.newIterator] at h
  split at h
  · cases h
  · split at h
    · cases h
      exact hle
    · cases h

/-- The loop over an accepted string ends well exactly when its entries parse. -/
theorem endsWell_iff {data : Bytes} (h : (Block.new data).newIterator = some it) :
    (it.seekToRestartPoint 0).EndsWell ↔ Parses (it.entriesFrom (it.getRestartPoint 0)) 0 := by
  have hdata : it.restarts ≤ it.data.length := restarts_le_of_newIterator h
  constructor
  · rintro ⟨⟨fuel, last, hend⟩, -⟩
    exact @parses_of_iterate (it.seekToRestartPoint 0) hdata _ _ hend
  · intro hparses
    obtain ⟨fuel, last, hend⟩ :=
      @exists_iterate_of_parses (it.seekToRestartPoint 0) hdata _ _ hparses rfl rfl
    refine ⟨⟨fuel, last, hend⟩, fun hmeets => ?_⟩
    rw [hmeets.iterate_eq_none] at hend
    cases hend

/-- One entry, of the key `a` and the value `x`. -/
theorem endsWell_single :
    ((new [0, 1, 1, 97, 120, 0, 0, 0, 0, 1, 0, 0, 0] 5 1).seekToRestartPoint 0).EndsWell := by
  have hnew : (Block.new [0, 1, 1, 97, 120, 0, 0, 0, 0, 1, 0, 0, 0]).newIterator =
      some (new [0, 1, 1, 97, 120, 0, 0, 0, 0, 1, 0, 0, 0] 5 1) := by decide
  have hentry : decodeEntry [0, 1, 1, 97, 120] = some (0, 1, 1, [97, 120]) := by decide
  exact (endsWell_iff hnew).mpr (.entry hentry (Nat.le_refl 0) (Nat.le_refl 2) (.nil _))

/-- The first entry shares a byte with the empty key in front of it. -/
theorem not_endsWell :
    ¬ ∀ (data : Bytes) (it : BlockIter), (Block.new data).newIterator = some it →
      (∀ i < it.numRestarts, it.getRestartPoint i < it.restarts) →
        (it.seekToRestartPoint 0).EndsWell := by
  intro h
  have hends := h [1, 0, 0, 0, 0, 0, 0, 1, 0, 0, 0] (new [1, 0, 0, 0, 0, 0, 0, 1, 0, 0, 0] 3 1)
    (by decide) (by decide)
  have hfails : ((new [1, 0, 0, 0, 0, 0, 0, 1, 0, 0, 0] 3 1).seekToRestartPoint 0).Fails :=
    ⟨by decide, by decide⟩
  obtain ⟨fuel, last, hend⟩ := hends.ends
  rw [hfails.iterate_eq_none] at hend
  cases hend

end BlockIter
end Yubindb
