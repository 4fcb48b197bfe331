import Yubindb.Db.BlockLayout

/-!
# The lengths in front of an entry

`Block::DecodeEntry` of `src/db/block.h` on any bytes. Its path for three single bytes agrees with
the calls of `GetVarint32Ptr`; its last test adds two lengths in a `uint32_t`.
-/

namespace Yubindb

/-- Three varints one behind the other, and what stands behind them. -/
def IsLengths (p : Bytes) (shared nonShared valueLength : ℕ) (rest : Bytes) : Prop :=
  ∃ ds₁ ds₂ ds₃, p = ds₁ ++ (ds₂ ++ (ds₃ ++ rest)) ∧
    IsVarint32 ds₁ shared ∧ IsVarint32 ds₂ nonShared ∧ IsVarint32 ds₃ valueLength

/-- What `DecodeEntry` returns lies behind the three lengths and in front of `limit`; without the
three lengths it returns a null pointer. -/
structure DecodesInBounds (p : Bytes) : Prop where
  lengths : ∀ {shared nonShared valueLength rest},
    decodeEntry p = some (shared, nonShared, valueLength, rest) →
      IsLengths p shared nonShared valueLength rest
  bounds : ∀ {shared nonShared valueLength rest},
    decodeEntry p = some (shared, nonShared, valueLength, rest) →
      nonShared + valueLength ≤ rest.length
  incomplete : (∀ shared nonShared valueLength rest,
    ¬ IsLengths p shared nonShared valueLength rest) → decodeEntry p = none

variable {p rest : Bytes} {shared nonShared valueLength n : ℕ}

theorem IsVarint32.lt {ds : Bytes} (h : IsVarint32 ds n) : n < 2 ^ 32 := by
  obtain ⟨v, -, -, rfl⟩ := h
  exact Nat.mod_lt _ (Nat.two_pow_pos 32)

theorem IsVarint32.getVarint32Ptr {ds : Bytes} (h : IsVarint32 ds n) (rest : Bytes) :
    getVarint32Ptr (ds ++ rest) = some (n, rest) :=
  getVarint32_eq_some_iff.mpr ⟨ds, rfl, h⟩

theorem decodeVarints_eq_some_iff :
    decodeVarints p = some (shared, nonShared, valueLength, rest) ↔
      IsLengths p shared nonShared valueLength rest := by
  constructor
  · intro h
    obtain ⟨⟨a, p₁⟩, h₁, h⟩ := Option.bind_eq_some_iff.mp h
    obtain ⟨⟨b, p₂⟩, h₂, h⟩ := Option.bind_eq_some_iff.mp h
    obtain ⟨⟨c, p₃⟩, h₃, h⟩ := Option.bind_eq_some_iff.mp h
    cases h
    obtain ⟨ds₁, rfl, hds₁⟩ := getVarint32_eq_some_iff.mp h₁
    obtain ⟨ds₂, rfl, hds₂⟩ := getVarint32_eq_some_iff.mp h₂
    obtain ⟨ds₃, rfl, hds₃⟩ := getVarint32_eq_some_iff.mp h₃
    exact ⟨ds₁, ds₂, ds₃, rfl, hds₁, hds₂, hds₃⟩
  · rintro ⟨ds₁, ds₂, ds₃, rfl, hds₁, hds₂, hds₃⟩
    refine Option.bind_eq_some_iff.mpr ⟨_, hds₁.getVarint32Ptr _, ?_⟩
    refine Option.bind_eq_some_iff.mpr ⟨_, hds₂.getVarint32Ptr _, ?_⟩
    exact Option.bind_eq_some_iff.mpr ⟨_, hds₃.getVarint32Ptr _, rfl⟩

theorem IsLengths.three_le (h : IsLengths p shared nonShared valueLength rest) :
    rest.length + 3 ≤ p.length := by
  obtain ⟨ds₁, ds₂, ds₃, rfl, ⟨_, h₁, -⟩, ⟨_, h₂, -⟩, ⟨_, h₃, -⟩⟩ := h
  have := h₁.length_pos
  have := h₂.length_pos
  have := h₃.length_pos
  simp only [List.length_append]
  omega

theorem decodeLengths_eq_some_iff :
    decodeLengths p = some (shared, nonShared, valueLength, rest) ↔
      IsLengths p shared nonShared valueLength rest := by
  rcases Nat.lt_or_ge p.length 3 with hshort | hlong
  · have hnone : decodeLengths p = none := by
      match p, hshort with
      | [], _ => rfl
      | [_], _ => rfl
      | [_, _], _ => rfl
    rw [hnone]
    refine iff_of_false nofun fun h => ?_
    have := h.three_le
    omega
  · rw [decodeLengths_eq hlong, decodeVarints_eq_some_iff]

theorem decodeEntry_eq_some_iff :
    decodeEntry p = some (shared, nonShared, valueLength, rest) ↔
      IsLengths p shared nonShared valueLength rest ∧
        (nonShared + valueLength) % 2 ^ 32 ≤ rest.length % 2 ^ 32 := by
  rw [← decodeLengths_eq_some_iff]
  constructor
  · intro h
    obtain ⟨⟨a, b, c, p'⟩, hlengths, h⟩ := Option.bind_eq_some_iff.mp h
    dsimp only at h
    split at h
    · cases h
    · next hfits =>
      cases h
      exact ⟨hlengths, Nat.le_of_not_lt hfits⟩
  · rintro ⟨hlengths, hfits⟩
    exact Option.bind_eq_some_iff.mpr ⟨_, hlengths, if_neg (Nat.not_lt.mpr hfits)⟩

/-- Where the sum of the lengths of key and value does not wrap around to one that seems to fit. -/
theorem decodesInBounds_iff (h : p.length < 2 ^ 32) :
    DecodesInBounds p ↔ ∀ shared nonShared valueLength rest,
      IsLengths p shared nonShared valueLength rest →
        nonShared + valueLength < 2 ^ 32 ∨ rest.length + 2 ^ 32 < nonShared + valueLength := by
  constructor
  · intro hsafe shared nonShared valueLength rest hlengths
    have hrest := hlengths.three_le
    obtain ⟨ds₁, ds₂, ds₃, -, -, h₂, h₃⟩ := id hlengths
    have h₂ := h₂.lt
    have h₃ := h₃.lt
    by_contra hwraps
    have hentry := decodeEntry_eq_some_iff.mpr ⟨hlengths, by omega⟩
    have hbounds := hsafe.bounds hentry
    omega
  · intro hsum
    refine ⟨fun hentry => (decodeEntry_eq_some_iff.mp hentry).1, fun hentry => ?_, fun hnone => ?_⟩
    · obtain ⟨hlengths, hfits⟩ := decodeEntry_eq_some_iff.mp hentry
      have hrest := hlengths.three_le
      have hsum := hsum _ _ _ _ hlengths
      obtain ⟨ds₁, ds₂, ds₃, -, -, h₂, h₃⟩ := hlengths
      have h₂ := h₂.lt
      have h₃ := h₃.lt
      omega
    · rw [Option.eq_none_iff_forall_not_mem]
      intro ⟨shared, nonShared, valueLength, rest⟩ hentry
      exact hnone _ _ _ _ (decodeEntry_eq_some_iff.mp hentry).1

/-- The key `a` with the value `x`. -/
theorem decodesInBounds_single : DecodesInBounds [0, 1, 1, 97, 120] := by
  refine (decodesInBounds_iff (by decide)).mpr fun shared nonShared valueLength rest hlengths => ?_
  have hdecode : decodeLengths [0, 1, 1, 97, 120] = some (0, 1, 1, [97, 120]) := by decide
  rw [← decodeLengths_eq_some_iff, hdecode] at hlengths
  cases hlengths
  exact .inl (by decide)

/-- A key of `2 ^ 32 - 1` bytes and a value of one byte in front of nothing. -/
theorem not_decodesInBounds : ¬ ∀ p : Bytes, p.length < 2 ^ 32 → DecodesInBounds p := by
  intro h
  have hentry : decodeEntry [0, 255, 255, 255, 255, 15, 1] = some (0, 2 ^ 32 - 1, 1, []) := by
    decide
  exact absurd ((h _ (by decide)).bounds hentry) (by decide)

end Yubindb
