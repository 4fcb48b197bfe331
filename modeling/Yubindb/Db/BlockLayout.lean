import Yubindb.Db.Block

/-!
# The layout of a block

Where the builder puts each entry and each restart point: the entry `j` starts at the length of the
buffer behind the first `j` entries, and every `R`-th entry has a restart point.
-/

namespace Yubindb

/-! ## Lengths in front of an entry -/

theorem take_sharedLength (a b : Bytes) :
    a.take (sharedLength a b) = b.take (sharedLength a b) := by
  induction a generalizing b with
  | nil => simp [sharedLength]
  | cons x as ih =>
    cases b with
    | nil => simp [sharedLength]
    | cons y bs =>
      rw [sharedLength]
      split
      · next h => rw [List.take_succ_cons, List.take_succ_cons, ih, h]
      · rfl

theorem sharedLength_le (a b : Bytes) :
    sharedLength a b ≤ a.length ∧ sharedLength a b ≤ b.length := by
  induction a generalizing b with
  | nil => simp [sharedLength]
  | cons x as ih =>
    cases b with
    | nil => simp [sharedLength]
    | cons y bs =>
      have := ih bs
      rw [sharedLength, List.length_cons, List.length_cons]
      split <;> omega

/-- The path for three single bytes agrees with the calls. -/
theorem decodeLengths_eq {p : Bytes} (h : 3 ≤ p.length) : decodeLengths p = decodeVarints p := by
  match p, h with
  | b₀ :: b₁ :: b₂ :: rest, _ =>
    have hbyte (b : UInt8) (tail : Bytes) (hb : b.toNat < 128) :
        getVarint32Ptr (b :: tail) = some (b.toNat, tail) := by
      rw [getVarint32Ptr, if_pos (ByteCodec.and_128_of_lt hb)]
    rw [decodeLengths]
    split
    · next hsmall =>
      have h₀ : b₀.toNat < 128 := Nat.lt_of_le_of_lt
        (Nat.le_trans Nat.left_le_or Nat.left_le_or) hsmall
      have h₁ : b₁.toNat < 128 := Nat.lt_of_le_of_lt
        (Nat.le_trans Nat.right_le_or Nat.left_le_or) hsmall
      have h₂ : b₂.toNat < 128 := Nat.lt_of_le_of_lt Nat.right_le_or hsmall
      simp [decodeVarints, hbyte _ _ h₀, hbyte _ _ h₁, hbyte _ _ h₂]
    · rfl

/-- The bytes of an entry. -/
def encodeEntry (shared : ℕ) (e : Bytes × Bytes) : Bytes :=
  putVarint32 shared ++ putVarint32 (e.1.length - shared) ++ putVarint32 e.2.length ++
    e.1.drop shared ++ e.2

theorem three_le_length_encodeEntry (shared : ℕ) (e : Bytes × Bytes) :
    3 ≤ (encodeEntry shared e).length := by
  have h (v : ℕ) : 1 ≤ (putVarint32 v).length := List.length_pos_iff.mpr (putVarint32_ne_nil v)
  have h₁ := h shared
  have h₂ := h (e.1.length - shared)
  have h₃ := h e.2.length
  simp only [encodeEntry, List.length_append]
  omega

theorem decodeEntry_encodeEntry {shared : ℕ} {e : Bytes × Bytes} {rest : Bytes}
    (hshared : shared < 2 ^ 32) (hlen : (encodeEntry shared e ++ rest).length < 2 ^ 32) :
    decodeEntry (encodeEntry shared e ++ rest) =
      some (shared, e.1.length - shared, e.2.length, e.1.drop shared ++ e.2 ++ rest) := by
  have hlen' := hlen
  simp only [encodeEntry, List.length_append, List.length_drop] at hlen'
  have hlong : 3 ≤ (encodeEntry shared e ++ rest).length := by
    rw [List.length_append]
    exact Nat.le_add_right_of_le (three_le_length_encodeEntry shared e)
  have hvarints : decodeVarints (encodeEntry shared e ++ rest) =
      some (shared, e.1.length - shared, e.2.length, e.1.drop shared ++ e.2 ++ rest) := by
    have h (v : ℕ) (tail : Bytes) (hv : v < 2 ^ 32) :
        getVarint32Ptr (putVarint32 v ++ tail) = some (v, tail) := getVarint32_put hv tail
    simp only [decodeVarints, encodeEntry, List.append_assoc]
    rw [h _ _ hshared, Option.bind_eq_bind, Option.bind_some, h _ _ (by omega), Option.bind_some,
      h _ _ (by omega)]
    rfl
  rw [decodeEntry, decodeLengths_eq hlong, hvarints]
  refine if_neg ?_
  simp only [List.length_append, List.length_drop]
  rw [Nat.mod_eq_of_lt (by omega), Nat.mod_eq_of_lt (by omega)]
  omega

/-! ## The entries of a block -/

namespace Blockbuilder
variable {R : ℕ} {es : List (Bytes × Bytes)} {i j : ℕ}

/-- Where the entry `j` starts. -/
def entryOffset (R : ℕ) (es : List (Bytes × Bytes)) (j : ℕ) : ℕ := (build R (es.take j)).buffer.length

/-- The key in front of the entry `j`. -/
def previousKey (es : List (Bytes × Bytes)) : ℕ → Bytes
  | 0 => []
  | j + 1 => (es.getD j default).1

/-- How many bytes the entry `j` drops. -/
def sharedAt (R : ℕ) (es : List (Bytes × Bytes)) (j : ℕ) : ℕ :=
  if j % R = 0 then 0 else sharedLength (previousKey es j) (es.getD j default).1

theorem empty_add (b : Blockbuilder) (R : ℕ) (key val : Bytes) :
    (b.add R key val).empty = false := by
  rw [empty, add, List.isEmpty_eq_false_iff]
  dsimp only
  intro h
  obtain ⟨_, h⟩ := List.append_eq_nil_iff.mp h
  simp only [List.append_eq_nil_iff] at h
  exact putVarint32_ne_nil _ h.1.1.1.1

theorem build_take_succ (hj : j < es.length) :
    build R (es.take (j + 1)) = (build R (es.take j)).add R es[j].1 es[j].2 := by
  rw [List.take_succ_eq_append_getElem hj, build, List.foldl_append]
  rfl

/-- The state of the builder behind the first `j` entries. -/
structure BuiltTo (R : ℕ) (es : List (Bytes × Bytes)) (j : ℕ) : Prop where
  entrynum : (build R (es.take j)).entrynum = if j = 0 then 0 else (j - 1) % R + 1
  lastKey : (build R (es.take j)).lastKey = previousKey es j
  restarts : (build R (es.take j)).restarts =
    (List.range ((j - 1) / R + 1)).map fun i => entryOffset R es (i * R) % 2 ^ 32

/-- Whether the next entry starts a run. -/
theorem BuiltTo.entrynum_lt (hR : 1 ≤ R) (h : BuiltTo R es j) :
    (build R (es.take j)).entrynum < R ↔ j = 0 ∨ j % R ≠ 0 := by
  rw [h.entrynum]
  cases j with
  | zero => simp; omega
  | succ i =>
    have hmod := Nat.mod_lt i hR
    rw [if_neg (Nat.succ_ne_zero i), Nat.add_sub_cancel]
    have hnext : (i + 1) % R = if i % R + 1 = R then 0 else i % R + 1 := by
      rw [Nat.add_mod]
      split
      · next heq =>
        by_cases hone : R = 1
        · subst hone
          omega
        · rw [Nat.mod_eq_of_lt (show 1 < R by omega), heq, Nat.mod_self]
      · next hne =>
        by_cases hone : R = 1
        · omega
        · rw [Nat.mod_eq_of_lt (show 1 < R by omega), Nat.mod_eq_of_lt (by omega)]
    rw [hnext]
    split <;> simp <;> omega

theorem builtTo_zero : BuiltTo R es 0 := by
  refine ⟨rfl, rfl, ?_⟩
  simp [build, entryOffset]

theorem previousKey_succ (hj : j < es.length) : previousKey es (j + 1) = es[j].1 := by
  rw [previousKey, List.getD_eq_getElem _ _ hj]

/-- What `Add` counts as shared. -/
theorem BuiltTo.shared_eq (hR : 1 ≤ R) (h : BuiltTo R es j) (hj : j < es.length) :
    (if (build R (es.take j)).entrynum < R then sharedLength (build R (es.take j)).lastKey es[j].1
      else 0) = sharedAt R es j := by
  rw [sharedAt, List.getD_eq_getElem _ _ hj, h.lastKey]
  have hlt := h.entrynum_lt hR
  cases j with
  | zero => simp [previousKey, sharedLength]
  | succ i =>
    by_cases hmod : (i + 1) % R = 0
    · rw [if_neg (by simp [hlt, hmod]), if_pos hmod]
    · rw [if_pos (by simp [hlt, hmod]), if_neg hmod]

theorem BuiltTo.succ (hR : 1 ≤ R) (h : BuiltTo R es j) (hj : j < es.length) :
    BuiltTo R es (j + 1) := by
  have hlt := h.entrynum_lt hR
  have hmod (hmore : ¬ (build R (es.take j)).entrynum < R) : j % R = 0 := by
    rw [hlt] at hmore
    by_contra hne
    exact hmore (.inr hne)
  have hdiv : (j + 1 - 1) / R = (j - 1) / R + if (build R (es.take j)).entrynum < R then 0 else 1 := by
    cases j with
    | zero =>
      have hzero : (build R []).entrynum < R := hR
      simp [hzero]
    | succ i =>
      rw [Nat.add_sub_cancel, Nat.add_sub_cancel, Nat.succ_div]
      by_cases hmod : (i + 1) % R = 0
      · rw [if_pos (Nat.dvd_of_mod_eq_zero hmod), if_neg (by simp [hlt, hmod])]
      · rw [if_neg (mt Nat.mod_eq_zero_of_dvd hmod), if_pos (by simp [hlt, hmod])]
  rw [Nat.add_sub_cancel] at hdiv
  constructor
  · rw [build_take_succ hj, if_neg (Nat.succ_ne_zero j), Nat.add_sub_cancel]
    simp only [add]
    split
    · next hmore =>
      have hentry := h.entrynum
      rw [hentry] at hmore ⊢
      cases j with
      | zero => simp
      | succ i =>
        rw [if_neg (Nat.succ_ne_zero i), Nat.add_sub_cancel] at hmore ⊢
        have hone : 1 < R := by omega
        rw [Nat.add_mod i, Nat.mod_eq_of_lt hone, Nat.mod_eq_of_lt hmore]
    · next hmore => rw [hmod hmore]
  · rw [build_take_succ hj, previousKey_succ hj]
    have hshared := h.shared_eq hR hj
    simp only [add]
    split
    · rw [take_sharedLength, List.take_append_drop]
    · simp
  · rw [build_take_succ hj, Nat.add_sub_cancel, hdiv]
    simp only [add]
    split
    · rw [h.restarts]
    · next hmore =>
      have hmul : ((j - 1) / R + 1) * R = j := by
        rw [if_neg hmore] at hdiv
        rw [← hdiv, Nat.div_mul_cancel (Nat.dvd_of_mod_eq_zero (hmod hmore))]
      rw [List.range_succ (n := (j - 1) / R + 1), List.map_append, h.restarts, List.map_singleton,
        hmul]
      rfl

theorem builtTo (hR : 1 ≤ R) (hj : j ≤ es.length) : BuiltTo R es j := by
  induction j with
  | zero => exact builtTo_zero
  | succ j ih => exact (ih (Nat.le_of_succ_le hj)).succ hR hj

theorem buffer_take_succ (hR : 1 ≤ R) (hj : j < es.length) :
    (build R (es.take (j + 1))).buffer =
      (build R (es.take j)).buffer ++ encodeEntry (sharedAt R es j) es[j] := by
  have hshared := (builtTo hR hj.le).shared_eq hR hj
  rw [build_take_succ hj]
  simp only [add, hshared]
  rfl

theorem buffer_mono (hR : 1 ≤ R) (hij : i ≤ j) (hj : j ≤ es.length) :
    (build R (es.take i)).buffer <+: (build R (es.take j)).buffer := by
  induction j with
  | zero =>
    obtain rfl : i = 0 := by omega
    exact List.prefix_refl _
  | succ j ih =>
    rcases Nat.lt_or_eq_of_le hij with hlt | rfl
    · refine (ih (Nat.le_of_lt_succ hlt) (Nat.le_of_succ_le hj)).trans ?_
      rw [buffer_take_succ hR hj]
      exact List.prefix_append _ _
    · exact List.prefix_refl _

theorem entryOffset_succ (hR : 1 ≤ R) (hj : j < es.length) :
    entryOffset R es (j + 1) =
      entryOffset R es j + (encodeEntry (sharedAt R es j) es[j]).length := by
  rw [entryOffset, buffer_take_succ hR hj, List.length_append]
  rfl

theorem entryOffset_length : entryOffset R es es.length = (build R es).buffer.length := by
  rw [entryOffset, List.take_length]

theorem entryOffset_lt (hR : 1 ≤ R) (hij : i < j) (hj : j ≤ es.length) :
    entryOffset R es i < entryOffset R es j := by
  have hi : i < es.length := hij.trans_le hj
  have hsucc := entryOffset_succ hR hi
  have hnext : i + 1 ≤ j := hij
  have hprefix := (buffer_mono hR hnext hj).length_le
  have := three_le_length_encodeEntry (sharedAt R es i) es[i]
  simp only [entryOffset] at hsucc ⊢
  omega

theorem entryOffset_lt_iff (hR : 1 ≤ R) (hi : i ≤ es.length) (hj : j ≤ es.length) :
    entryOffset R es i < entryOffset R es j ↔ i < j := by
  constructor
  · intro h
    by_contra hji
    rcases Nat.lt_or_eq_of_le (Nat.not_lt.mp hji) with hlt | rfl
    · exact absurd (entryOffset_lt hR hlt hi) (Nat.lt_asymm h)
    · exact Nat.lt_irrefl _ h
  · exact fun h => entryOffset_lt hR h hj

/-- What stands in the buffer from an entry on. -/
theorem drop_entryOffset (hR : 1 ≤ R) (hj : j < es.length) :
    (build R es).buffer.drop (entryOffset R es j) =
      encodeEntry (sharedAt R es j) es[j] ++ (build R es).buffer.drop (entryOffset R es (j + 1)) := by
  obtain ⟨rest, hrest⟩ := buffer_mono hR (Nat.succ_le_of_lt hj) (Nat.le_refl es.length)
  rw [List.take_length] at hrest
  rw [entryOffset, entryOffset, ← hrest, List.drop_left, buffer_take_succ hR hj, List.append_assoc,
    List.drop_left]

/-- No key is longer than the bytes up to the end of its entry. -/
theorem length_key_le (hR : 1 ≤ R) (hj : j < es.length) :
    es[j].1.length ≤ entryOffset R es (j + 1) := by
  induction j with
  | zero =>
    rw [entryOffset_succ hR hj]
    have : sharedAt R es 0 = 0 := by simp [sharedAt]
    simp only [this, encodeEntry, List.length_append, List.drop_zero]
    omega
  | succ j ih =>
    have hprev := ih (Nat.lt_of_succ_lt hj)
    rw [entryOffset_succ hR hj]
    have hshared : sharedAt R es (j + 1) ≤ es[j].1.length := by
      rw [sharedAt, previousKey_succ (Nat.lt_of_succ_lt hj)]
      split
      · exact Nat.zero_le _
      · exact (sharedLength_le _ _).1
    simp only [encodeEntry, List.length_append, List.length_drop]
    omega

/-- The key in front of an entry gives the bytes that the entry drops. -/
theorem take_sharedAt (hj : j < es.length) :
    (previousKey es j).take (sharedAt R es j) = es[j].1.take (sharedAt R es j) := by
  rw [sharedAt, List.getD_eq_getElem _ _ hj]
  split
  · simp
  · exact take_sharedLength _ _

theorem sharedAt_le (hj : j < es.length) :
    sharedAt R es j ≤ (previousKey es j).length ∧ sharedAt R es j ≤ es[j].1.length := by
  rw [sharedAt, List.getD_eq_getElem _ _ hj]
  split
  · exact ⟨Nat.zero_le _, Nat.zero_le _⟩
  · exact sharedLength_le _ _

theorem sharedAt_mul (R : ℕ) (es : List (Bytes × Bytes)) (i : ℕ) : sharedAt R es (i * R) = 0 := by
  rw [sharedAt, if_pos (Nat.mul_mod_left i R)]

end Blockbuilder
end Yubindb
