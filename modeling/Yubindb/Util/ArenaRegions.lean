import Yubindb.Theory.Extent
import Yubindb.Theory.Steps
import Yubindb.Util.Arena

/-!
# The regions of an arena

`src/util/arena.h`, `src/util/arena.cpp` once more, with the addresses of the blocks and the 64 bits
of a `size_t`. What `operator new[]` returns is part of a call.
-/

namespace Yubindb

/-- `Arena`. -/
structure HeapArena where
  allocPtr : ℕ := 0
  allocBytesRemaining : ℕ := 0
  /-- `blocks_`, with the sizes of the blocks. -/
  blocks : List Extent := []
  memoryUsage : ℕ := 0
  deriving DecidableEq, Repr

namespace HeapArena

/-- `AllocateNewBlock`, where `operator new[]` returns `block`. -/
def allocateNewBlock (a : HeapArena) (block blockBytes : ℕ) : HeapArena :=
  { a with
    blocks := a.blocks ++ [⟨block, blockBytes⟩]
    memoryUsage := (a.memoryUsage + (blockBytes + 8)) % 2 ^ 64 }

/-- `alloc_ptr_ += n` and `alloc_bytes_remaining_ -= n`, unless the difference is negative. -/
def advance (a : HeapArena) (n : ℕ) : Option HeapArena :=
  if n ≤ a.allocBytesRemaining then
    some { a with allocPtr := a.allocPtr + n, allocBytesRemaining := a.allocBytesRemaining - n }
  else none

/-- `AllocateFallback`. -/
def allocateFallback (a : HeapArena) (block bytes : ℕ) : Option (ℕ × HeapArena) :=
  if bytes > BlockSize / 4 then some (block, a.allocateNewBlock block bytes)
  else do
    let a := a.allocateNewBlock block BlockSize
    let a ← { a with allocPtr := block, allocBytesRemaining := BlockSize }.advance bytes
    return (block, a)

/-- `Allocate`. -/
def allocate (a : HeapArena) (block bytes : ℕ) : Option (ℕ × HeapArena) :=
  if bytes ≤ a.allocBytesRemaining then do
    let a' ← a.advance bytes
    return (a.allocPtr, a')
  else a.allocateFallback block bytes

/-- `slop`: what `alloc_ptr_` lacks to be a multiple of 8. -/
def slop (a : HeapArena) : ℕ :=
  let currentMod := a.allocPtr &&& (8 - 1)
  if currentMod = 0 then 0 else 8 - currentMod

/-- `AllocateAligned`. -/
def allocateAligned (a : HeapArena) (block bytes : ℕ) : Option (ℕ × HeapArena) :=
  let needed := (bytes + a.slop) % 2 ^ 64
  if needed ≤ a.allocBytesRemaining then do
    let a' ← a.advance needed
    return (a.allocPtr + a.slop, a')
  else a.allocateFallback block bytes

/-- The rest of the current block. -/
def free (a : HeapArena) : Extent := ⟨a.allocPtr, a.allocBytesRemaining⟩

end HeapArena

/-! ## Runs -/

/-- A call of `Allocate` or `AllocateAligned` with at least one byte, and what `operator new[]`
returns if it is called. -/
structure ArenaCall where
  aligned : Bool
  bytes : ℕ
  block : ℕ
  one_le : 1 ≤ bytes
  lt : bytes < 2 ^ 64

/-- What a call has returned. -/
structure Grant where
  aligned : Bool
  region : Extent
  deriving DecidableEq, Repr

/-- An arena and its grants, the newest first. -/
structure ArenaRun where
  arena : HeapArena := {}
  grants : List Grant := []
  deriving DecidableEq, Repr

/-- What `operator new[]` has returned: blocks that share no address and start at multiples of 8, in
the lower half of the addresses. -/
structure FreshBlocks (blocks : List Extent) : Prop where
  apart : blocks.Pairwise Extent.Apart
  aligned : ∀ b ∈ blocks, b.start % 8 = 0
  stop : ∀ b ∈ blocks, b.stop ≤ 2 ^ 63

instance (blocks : List Extent) : Decidable (FreshBlocks blocks) :=
  decidable_of_iff (blocks.Pairwise Extent.Apart ∧ (∀ b ∈ blocks, b.start % 8 = 0) ∧
    ∀ b ∈ blocks, b.stop ≤ 2 ^ 63)
    ⟨fun h => ⟨h.1, h.2.1, h.2.2⟩, fun h => ⟨h.apart, h.aligned, h.stop⟩⟩

namespace FreshBlocks
variable {blocks blocks' : List Extent} {b : Extent}

theorem of_prefix (h : FreshBlocks blocks') (hfront : blocks <+: blocks') : FreshBlocks blocks where
  apart := h.apart.sublist hfront.sublist
  aligned b hb := h.aligned b (hfront.subset hb)
  stop b hb := h.stop b (hfront.subset hb)

/-- The newest block shares nothing with the others. -/
theorem apart_last (h : FreshBlocks (blocks ++ [b])) : ∀ b' ∈ blocks, b'.Apart b := by
  intro b' hb'
  exact (List.pairwise_append.mp h.apart).2.2 b' hb' b (List.mem_singleton_self b)

theorem last_aligned (h : FreshBlocks (blocks ++ [b])) : b.start % 8 = 0 :=
  h.aligned b (List.mem_append_right _ (List.mem_singleton_self b))

end FreshBlocks

namespace ArenaRun

/-- One call; `none` where `alloc_bytes_remaining_` goes below 0. -/
def step (c : ArenaCall) (s : ArenaRun) : Option ArenaRun := do
  let (result, arena) ←
    if c.aligned then s.arena.allocateAligned c.block c.bytes else s.arena.allocate c.block c.bytes
  return { arena, grants := ⟨c.aligned, ⟨result, c.bytes⟩⟩ :: s.grants }

/-- The regions lie in blocks of the arena and share no address, those of `AllocateAligned` start at
multiples of 8, and `MemoryUsage` counts each block with a pointer. -/
structure Sound (s : ArenaRun) : Prop where
  inside : ∀ g ∈ s.grants, ∃ b ∈ s.arena.blocks, g.region.Within b
  apart : s.grants.Pairwise fun g g' => g.region.Apart g'.region
  aligned : ∀ g ∈ s.grants, g.aligned = true → g.region.start % 8 = 0
  usage : s.arena.memoryUsage = (s.arena.blocks.map fun b => b.size + 8).sum

/-- The sum of `AllocateAligned` does not wrap around. -/
def NoWrap (s : ArenaRun) (c : ArenaCall) (_ : ArenaRun) : Prop :=
  c.aligned = true → c.bytes + s.arena.slop < 2 ^ 64

end ArenaRun

/-! ## What an allocation does -/

/-- It takes a front of the rest of the current block, or a block of its own, or starts a block. -/
inductive Allocates (a : HeapArena) (block bytes : ℕ) : ℕ → HeapArena → Prop
  | front (slop : ℕ) (h : bytes + slop ≤ a.allocBytesRemaining) :
    Allocates a block bytes (a.allocPtr + slop) { a with
      allocPtr := a.allocPtr + (bytes + slop)
      allocBytesRemaining := a.allocBytesRemaining - (bytes + slop) }
  | own (h : BlockSize / 4 < bytes) : Allocates a block bytes block (a.allocateNewBlock block bytes)
  | start (h : bytes ≤ BlockSize / 4) :
    Allocates a block bytes block { a.allocateNewBlock block BlockSize with
      allocPtr := block + bytes, allocBytesRemaining := BlockSize - bytes }

/-- No block is given up. -/
theorem Allocates.blocks_prefix {a a' : HeapArena} {block bytes result : ℕ}
    (h : Allocates a block bytes result a') : a.blocks <+: a'.blocks := by
  cases h with
  | front => exact List.prefix_rfl
  | own => exact List.prefix_append _ _
  | start => exact List.prefix_append _ _

namespace HeapArena
variable {a : HeapArena} {block bytes n : ℕ}

theorem advance_of_le (h : n ≤ a.allocBytesRemaining) : a.advance n =
    some { a with allocPtr := a.allocPtr + n, allocBytesRemaining := a.allocBytesRemaining - n } :=
  if_pos h

theorem allocateFallback_spec (a : HeapArena) (block bytes : ℕ) : ∃ a' size,
    a.allocateFallback block bytes = some (block, a') ∧ Allocates a block bytes block a' ∧
      a'.blocks = a.blocks ++ [⟨block, size⟩] := by
  rw [allocateFallback]
  split
  · next hlarge => exact ⟨_, _, rfl, .own hlarge, rfl⟩
  · next hsmall =>
    have hle : bytes ≤ BlockSize / 4 := Nat.le_of_not_lt hsmall
    have hroom : bytes ≤ BlockSize := hle.trans (Nat.div_le_self _ _)
    dsimp only
    rw [advance_of_le hroom]
    exact ⟨_, _, rfl, .start hle, rfl⟩

theorem allocate_spec (a : HeapArena) (block bytes : ℕ) : ∃ result a',
    a.allocate block bytes = some (result, a') ∧ Allocates a block bytes result a' := by
  rw [allocate]
  split
  · next hle =>
    rw [advance_of_le hle]
    exact ⟨_, _, rfl, .front 0 hle⟩
  · obtain ⟨a', size, hfallback, hallocates, -⟩ := a.allocateFallback_spec block bytes
    exact ⟨block, a', hfallback, hallocates⟩

theorem slop_le (a : HeapArena) : a.slop ≤ 7 := by
  rw [slop]
  split <;> omega

/-- Behind the slop the address is a multiple of 8. -/
theorem add_slop_mod (a : HeapArena) : (a.allocPtr + a.slop) % 8 = 0 := by
  have hmod : a.allocPtr &&& (8 - 1) = a.allocPtr % 8 := Nat.and_two_pow_sub_one_eq_mod _ 3
  rw [slop, hmod]
  split <;> omega

theorem allocateAligned_spec (block : ℕ) (hwrap : bytes + a.slop < 2 ^ 64) : ∃ result a',
    a.allocateAligned block bytes = some (result, a') ∧ Allocates a block bytes result a' ∧
      (FreshBlocks a'.blocks → result % 8 = 0) := by
  rw [allocateAligned, Nat.mod_eq_of_lt hwrap]
  split
  · next hle =>
    rw [advance_of_le hle]
    exact ⟨_, _, rfl, .front a.slop hle, fun _ => a.add_slop_mod⟩
  · obtain ⟨a', size, hfallback, hallocates, hblocks⟩ := a.allocateFallback_spec block bytes
    refine ⟨_, _, hfallback, hallocates, fun hfresh => ?_⟩
    exact FreshBlocks.last_aligned (hblocks ▸ hfresh)

/-- Even where its sum wraps around, `AllocateAligned` does not take more than there is. -/
theorem exists_allocateAligned (a : HeapArena) (block bytes : ℕ) : ∃ result a',
    a.allocateAligned block bytes = some (result, a') ∧ a.blocks <+: a'.blocks := by
  rw [allocateAligned]
  split
  · next hle =>
    rw [advance_of_le hle]
    exact ⟨_, _, rfl, List.prefix_rfl⟩
  · obtain ⟨a', size, hfallback, hallocates, -⟩ := a.allocateFallback_spec block bytes
    exact ⟨_, _, hfallback, hallocates.blocks_prefix⟩

end HeapArena
/-! ## What a run keeps -/

namespace ArenaRun
variable {s t : ArenaRun} {c : ArenaCall} {cs : List ArenaCall} {a' : HeapArena}
  {block bytes result : ℕ}

/-- Each grant lies in a block, away from the other grants and from the rest of the current block. -/
structure Inv (s : ArenaRun) : Prop where
  free : 0 < s.arena.allocBytesRemaining → (∃ b ∈ s.arena.blocks, s.arena.free.Within b) ∧
    ∀ g ∈ s.grants, g.region.Apart s.arena.free
  inside : ∀ g ∈ s.grants, ∃ b ∈ s.arena.blocks, g.region.Within b
  apart : s.grants.Pairwise fun g g' => g.region.Apart g'.region
  aligned : ∀ g ∈ s.grants, g.aligned = true → g.region.start % 8 = 0
  large : ∀ b ∈ s.arena.blocks, BlockSize / 4 ≤ b.size
  usage : s.arena.memoryUsage = (s.arena.blocks.map fun b => b.size + 8).sum % 2 ^ 64

namespace Inv

theorem empty : Inv {} := by
  refine ⟨nofun, nofun, .nil, nofun, nofun, rfl⟩

/-- With a new block: what was granted is in other blocks. -/
theorem apart_block (h : s.Inv) {b : Extent} (hblocks : FreshBlocks (s.arena.blocks ++ [b])) :
    ∀ g ∈ s.grants, g.region.Apart b := by
  intro g hg
  obtain ⟨b', hb', hwithin⟩ := h.inside g hg
  exact (hblocks.apart_last b' hb').mono hwithin (.refl b)

theorem inside_block (h : s.Inv) (b : Extent) :
    ∀ g ∈ s.grants, ∃ b' ∈ s.arena.blocks ++ [b], g.region.Within b' := by
  intro g hg
  obtain ⟨b', hb', hwithin⟩ := h.inside g hg
  exact ⟨b', List.mem_append_left _ hb', hwithin⟩

theorem large_block (h : s.Inv) {b : Extent} (hb : BlockSize / 4 ≤ b.size) :
    ∀ b' ∈ s.arena.blocks ++ [b], BlockSize / 4 ≤ b'.size := by
  intro b' hb'
  rcases List.mem_append.mp hb' with hb' | hb'
  · exact h.large b' hb'
  · rwa [List.mem_singleton.mp hb']

theorem usage_block (h : s.Inv) (b : Extent) : (s.arena.memoryUsage + (b.size + 8)) % 2 ^ 64 =
    ((s.arena.blocks ++ [b]).map fun b => b.size + 8).sum % 2 ^ 64 := by
  rw [h.usage, List.map_append, List.sum_append, Nat.mod_add_mod, List.map_singleton,
    List.sum_singleton]

/-- An allocation keeps the invariant. -/
theorem allocates (h : s.Inv) (hblocks : FreshBlocks a'.blocks)
    (hallocates : Allocates s.arena block bytes result a') (hbytes : 1 ≤ bytes) {aligned : Bool}
    (haligned : aligned = true → result % 8 = 0) :
    Inv ⟨a', ⟨aligned, ⟨result, bytes⟩⟩ :: s.grants⟩ := by
  have hgrants : ∀ g ∈ (⟨aligned, ⟨result, bytes⟩⟩ : Grant) :: s.grants,
      g.aligned = true → g.region.start % 8 = 0 := List.forall_mem_cons.mpr ⟨haligned, h.aligned⟩
  cases hallocates with
  | front slop hroom =>
    obtain ⟨⟨b, hb, hwithin⟩, hapart⟩ := h.free (by omega)
    have hnew : Extent.Within ⟨s.arena.allocPtr + slop, bytes⟩ s.arena.free :=
      ⟨Nat.le_add_right _ _, by simp only [Extent.stop, HeapArena.free]; omega⟩
    have hrest : Extent.Within ⟨s.arena.allocPtr + (bytes + slop),
        s.arena.allocBytesRemaining - (bytes + slop)⟩ s.arena.free :=
      ⟨Nat.le_add_right _ _, by simp only [Extent.stop, HeapArena.free]; omega⟩
    refine ⟨fun _ => ⟨⟨b, hb, hrest.trans hwithin⟩, ?_⟩, ?_, ?_, hgrants, h.large, h.usage⟩
    · refine List.forall_mem_cons.mpr ⟨.inl ?_, fun g hg => (hapart g hg).mono (.refl _) hrest⟩
      simp only [Extent.stop, HeapArena.free]
      omega
    · exact List.forall_mem_cons.mpr ⟨⟨b, hb, hnew.trans hwithin⟩, h.inside⟩
    · exact .cons (fun g hg => ((hapart g hg).mono (.refl _) hnew).symm) h.apart
  | own hlarge =>
    have hfar := h.apart_block hblocks
    have hmem := List.mem_append_right s.arena.blocks (List.mem_singleton_self ⟨block, bytes⟩)
    refine ⟨fun hfree => ?_, ?_, ?_, hgrants, h.large_block hlarge.le,
      h.usage_block ⟨block, bytes⟩⟩
    · obtain ⟨⟨b, hb, hwithin⟩, hapart⟩ := h.free hfree
      refine ⟨⟨b, List.mem_append_left _ hb, hwithin⟩, List.forall_mem_cons.mpr ⟨?_, hapart⟩⟩
      exact ((hblocks.apart_last b hb).mono hwithin (.refl _)).symm
    · exact List.forall_mem_cons.mpr ⟨⟨_, hmem, .refl _⟩, h.inside_block _⟩
    · exact .cons (fun g hg => (hfar g hg).symm) h.apart
  | start hsmall =>
    have hfar := h.apart_block hblocks
    have hroom : bytes ≤ BlockSize := hsmall.trans (Nat.div_le_self _ _)
    have hnew : Extent.Within ⟨block, bytes⟩ ⟨block, BlockSize⟩ :=
      ⟨Nat.le_refl _, Nat.add_le_add_left hroom block⟩
    have hrest : Extent.Within ⟨block + bytes, BlockSize - bytes⟩ ⟨block, BlockSize⟩ := by
      refine ⟨Nat.le_add_right _ _, ?_⟩
      simp only [Extent.stop]
      omega
    have hmem := List.mem_append_right s.arena.blocks (List.mem_singleton_self ⟨block, BlockSize⟩)
    refine ⟨fun _ => ⟨⟨_, hmem, hrest⟩, ?_⟩, ?_, ?_, hgrants, h.large_block (Nat.div_le_self _ _),
      h.usage_block ⟨block, BlockSize⟩⟩
    · refine List.forall_mem_cons.mpr ⟨.inl (Nat.le_refl _), fun g hg => ?_⟩
      exact (hfar g hg).mono (.refl _) hrest
    · exact List.forall_mem_cons.mpr ⟨⟨_, hmem, hnew⟩, h.inside_block _⟩
    · exact .cons (fun g hg => ((hfar g hg).mono (.refl _) hnew).symm) h.apart

end Inv

/-- Every call returns. -/
theorem exists_step (c : ArenaCall) (s : ArenaRun) : ∃ result a',
    step c s = some ⟨a', ⟨c.aligned, ⟨result, c.bytes⟩⟩ :: s.grants⟩ ∧
      s.arena.blocks <+: a'.blocks := by
  rw [step]
  split
  · obtain ⟨result, a', hreturn, hfront⟩ := s.arena.exists_allocateAligned c.block c.bytes
    rw [hreturn]
    exact ⟨result, a', rfl, hfront⟩
  · obtain ⟨result, a', hreturn, hallocates⟩ := s.arena.allocate_spec c.block c.bytes
    rw [hreturn]
    exact ⟨result, a', rfl, hallocates.blocks_prefix⟩

/-- One call keeps the invariant. -/
theorem Inv.step (h : s.Inv) (hstep : ArenaRun.step c s = some t) (hwrap : NoWrap s c t)
    (hblocks : FreshBlocks t.arena.blocks) : t.Inv := by
  rw [ArenaRun.step] at hstep
  split at hstep
  · next haligned =>
    obtain ⟨result, a', hreturn, hallocates, hmod⟩ :=
      HeapArena.allocateAligned_spec c.block (hwrap haligned)
    rw [hreturn] at hstep
    cases hstep
    exact h.allocates hblocks hallocates c.one_le fun _ => hmod hblocks
  · next haligned =>
    obtain ⟨result, a', hreturn, hallocates⟩ := s.arena.allocate_spec c.block c.bytes
    rw [hreturn] at hstep
    cases hstep
    exact h.allocates hblocks hallocates c.one_le fun htrue => absurd htrue haligned

/-- A run never stops, and gives nothing up. -/
theorem exists_runAll (cs : List ArenaCall) (s : ArenaRun) : ∃ t,
    runAll ArenaRun.step cs s = some t ∧ s.arena.blocks <+: t.arena.blocks ∧
      s.grants <:+ t.grants := by
  induction cs generalizing s with
  | nil => exact ⟨s, rfl, List.prefix_rfl, List.suffix_rfl⟩
  | cons c cs ih =>
    obtain ⟨result, a', hstep, hfront⟩ := exists_step c s
    obtain ⟨t, hrun, hblocks, hgrants⟩ := ih ⟨a', ⟨c.aligned, ⟨result, c.bytes⟩⟩ :: s.grants⟩
    refine ⟨t, ?_, hfront.trans hblocks, (List.suffix_cons _ _).trans hgrants⟩
    rw [runAll, hstep]
    exact hrun

theorem kept_of_runAll (hrun : runAll ArenaRun.step cs s = some t) :
    s.arena.blocks <+: t.arena.blocks ∧ s.grants <:+ t.grants := by
  obtain ⟨t', hrun', hkept⟩ := exists_runAll cs s
  rw [hrun] at hrun'
  cases hrun'
  exact hkept

/-- A run whose sums do not wrap around keeps the invariant. -/
theorem Inv.runAll (h : s.Inv) (hwrap : EachStep ArenaRun.step NoWrap cs s)
    (hrun : Yubindb.runAll ArenaRun.step cs s = some t) (hblocks : FreshBlocks t.arena.blocks) :
    t.Inv := by
  induction cs generalizing s with
  | nil =>
    cases hrun
    exact h
  | cons c cs ih =>
    obtain ⟨s', hstep, hrun⟩ := Option.bind_eq_some_iff.mp hrun
    obtain ⟨hnext, hwrap⟩ := hwrap s' hstep
    exact ih (h.step hstep hnext (hblocks.of_prefix (kept_of_runAll hrun).1)) hwrap hrun

/-- The pointers are few beside the blocks. -/
theorem sum_add_eight_le {blocks : List Extent} (h : ∀ b ∈ blocks, BlockSize / 4 ≤ b.size) :
    128 * (blocks.map fun b => b.size + 8).sum ≤ 129 * (blocks.map Extent.size).sum := by
  induction blocks with
  | nil => exact Nat.le_refl 0
  | cons b blocks ih =>
    obtain ⟨hb, hrest⟩ := List.forall_mem_cons.mp h
    have hb : 1024 ≤ b.size := hb
    have hrest := ih hrest
    rw [List.map_cons, List.map_cons, List.sum_cons, List.sum_cons]
    omega

theorem Inv.sound (h : s.Inv) (hblocks : FreshBlocks s.arena.blocks) : s.Sound := by
  have hsum := Extent.sum_size_le hblocks.apart hblocks.stop
  have hfew := sum_add_eight_le h.large
  exact ⟨h.inside, h.apart, h.aligned, h.usage.trans (Nat.mod_eq_of_lt (by omega))⟩

/-- A region of `2 ^ 64 - 7` bytes or more lies in no block. -/
theorem eachStep_noWrap (hrun : Yubindb.runAll ArenaRun.step cs s = some t)
    (hsize : ∀ g ∈ t.grants, g.region.size ≤ 2 ^ 63) : EachStep ArenaRun.step NoWrap cs s := by
  induction cs generalizing s with
  | nil => trivial
  | cons c cs ih =>
    intro s' hstep
    obtain ⟨s'', hstep', hrun⟩ := Option.bind_eq_some_iff.mp hrun
    obtain ⟨result, a', hreturn, -⟩ := exists_step c s
    rw [hreturn] at hstep hstep'
    cases hstep
    cases hstep'
    refine ⟨fun _ => ?_, ih hrun⟩
    have hgrant := hsize _ ((kept_of_runAll hrun).2.subset List.mem_cons_self)
    have hslop := s.arena.slop_le
    dsimp only at hgrant
    omega

/-- The regions of a run are sound just where no sum of `AllocateAligned` wraps around. -/
theorem regions_sound_iff (calls : List ArenaCall)
    (hnew : ∀ s, Yubindb.runAll ArenaRun.step calls {} = some s → FreshBlocks s.arena.blocks) :
    (∃ s, Yubindb.runAll ArenaRun.step calls {} = some s ∧ s.Sound) ↔
      EachStep ArenaRun.step NoWrap calls {} := by
  constructor
  · rintro ⟨s, hrun, hsound⟩
    refine eachStep_noWrap hrun fun g hg => ?_
    obtain ⟨b, hb, hwithin⟩ := hsound.inside g hg
    have hstop := (hnew s hrun).stop b hb
    exact hwithin.size_le.trans ((Nat.le_add_left _ _).trans hstop)
  · intro hwrap
    obtain ⟨s, hrun, -⟩ := exists_runAll calls {}
    have hinv := Inv.empty.runAll hwrap hrun (hnew s hrun)
    exact ⟨s, hrun, hinv.sound (hnew s hrun)⟩

/-- Sizes that leave room for the slop do not wrap around. -/
theorem eachStep_noWrap_of_le (h : ∀ c ∈ cs, c.bytes ≤ 2 ^ 64 - 8) (s : ArenaRun) :
    EachStep ArenaRun.step NoWrap cs s := by
  induction cs generalizing s with
  | nil => trivial
  | cons c cs ih =>
    obtain ⟨hc, hcs⟩ := List.forall_mem_cons.mp h
    refine fun t _ => ⟨fun _ => ?_, ih hcs t⟩
    have hslop := s.arena.slop_le
    omega

/-- A small region, an aligned one behind it and one with a block of its own. -/
def threeCalls : List ArenaCall :=
  [⟨false, 13, 4096, by decide, by decide⟩, ⟨true, 24, 0, by decide, by decide⟩,
    ⟨false, 5000, 16384, by decide, by decide⟩]

theorem regions_sound_threeCalls :
    ∃ s, Yubindb.runAll ArenaRun.step threeCalls {} = some s ∧ s.Sound := by
  refine (regions_sound_iff threeCalls fun s hrun => ?_).mpr (eachStep_noWrap_of_le (by decide) _)
  have hblocks : (Yubindb.runAll ArenaRun.step threeCalls {}).map (fun s => s.arena.blocks) =
      some [⟨4096, 4096⟩, ⟨16384, 5000⟩] := by decide
  rw [hrun, Option.map_some, Option.some.injEq] at hblocks
  rw [hblocks]
  decide

/-- One byte, and then as many as there are: the sum with the slop is 6. -/
def wrappingCalls : List ArenaCall :=
  [⟨false, 1, 4096, by decide, by decide⟩, ⟨true, 2 ^ 64 - 1, 0, by decide, by decide⟩]

theorem runAll_wrappingCalls : Yubindb.runAll ArenaRun.step wrappingCalls {} =
    some ⟨⟨4103, 4089, [⟨4096, 4096⟩], 4104⟩, [⟨true, ⟨4104, 2 ^ 64 - 1⟩⟩, ⟨false, ⟨4096, 1⟩⟩]⟩ := by
  decide

theorem not_regions_sound : ¬ ∀ calls : List ArenaCall,
    (∀ s, Yubindb.runAll ArenaRun.step calls {} = some s → FreshBlocks s.arena.blocks) →
      ∃ s, Yubindb.runAll ArenaRun.step calls {} = some s ∧ s.Sound := by
  intro h
  obtain ⟨s, hrun, hsound⟩ := h wrappingCalls fun s hrun => by
    rw [runAll_wrappingCalls] at hrun
    cases hrun
    decide
  rw [runAll_wrappingCalls] at hrun
  cases hrun
  obtain ⟨b, hb, hwithin⟩ := hsound.inside _ List.mem_cons_self
  cases List.mem_singleton.mp hb
  exact absurd hwithin (by decide)

end ArenaRun

/-! ## Without addresses -/

/-- The arena whose pointers are offsets into its blocks stands for one with addresses. -/
structure Places (h : HeapArena) (a : Arena) : Prop where
  blocks : h.blocks.map Extent.size = a.blocks
  remaining : h.allocBytesRemaining = a.allocBytesRemaining
  usage : h.memoryUsage = a.memoryUsage % 2 ^ 64
  pointer : 0 < a.allocBytesRemaining →
    ∃ b, h.blocks[a.current]? = some b ∧ h.allocPtr = b.start + a.allocPtr

/-- The address of a region. -/
def PlacesRegion (h : HeapArena) (address : ℕ) (r : Region) : Prop :=
  ∃ b, h.blocks[r.block]? = some b ∧ address = b.start + r.offset

namespace Places
variable {h : HeapArena} {a : Arena} {block bytes : ℕ}

theorem empty : Places {} {} := ⟨rfl, rfl, rfl, nofun⟩

theorem allocateNewBlock (hp : Places h a) (block blockBytes : ℕ) :
    Places (h.allocateNewBlock block blockBytes) (a.allocateNewBlock blockBytes).2 ∧
      (h.allocateNewBlock block blockBytes).blocks[(a.allocateNewBlock blockBytes).1]? =
        some ⟨block, blockBytes⟩ := by
  refine ⟨⟨?_, hp.remaining, ?_, fun hfree => ?_⟩, ?_⟩
  · rw [HeapArena.allocateNewBlock, Arena.allocateNewBlock, List.map_append, hp.blocks]
    rfl
  · rw [HeapArena.allocateNewBlock, Arena.allocateNewBlock, hp.usage, Nat.mod_add_mod]
  · obtain ⟨b, hb, hptr⟩ := hp.pointer hfree
    have hlt := (List.getElem?_eq_some_iff.mp hb).1
    exact ⟨b, (List.getElem?_append_left hlt).trans hb, hptr⟩
  · rw [HeapArena.allocateNewBlock, Arena.allocateNewBlock, ← hp.blocks, List.length_map]
    exact List.getElem?_concat_length

theorem allocateFallback (hp : Places h a) (block bytes : ℕ) : ∃ h',
    h.allocateFallback block bytes = some (block, h') ∧ Places h' (a.allocateFallback bytes).2 ∧
      PlacesRegion h' block (a.allocateFallback bytes).1 := by
  rw [HeapArena.allocateFallback, Arena.allocateFallback]
  split
  · obtain ⟨hnew, hblock⟩ := hp.allocateNewBlock block bytes
    exact ⟨_, rfl, hnew, _, hblock, rfl⟩
  · next hsmall =>
    have hroom : bytes ≤ BlockSize := (Nat.le_of_not_lt hsmall).trans (Nat.div_le_self _ _)
    obtain ⟨hnew, hblock⟩ := hp.allocateNewBlock block BlockSize
    dsimp only
    rw [HeapArena.advance_of_le hroom]
    exact ⟨_, rfl, ⟨hnew.blocks, rfl, hnew.usage, fun _ => ⟨_, hblock, rfl⟩⟩, _, hblock, rfl⟩

/-- The pointer moves on in both. -/
theorem advance (hp : Places h a) {n : ℕ} (hpos : 0 < n) (hle : n ≤ a.allocBytesRemaining) : ∃ h',
    h.advance n = some h' ∧ h'.blocks = h.blocks ∧ Places h' { a with
      allocPtr := a.allocPtr + n, allocBytesRemaining := a.allocBytesRemaining - n } := by
  obtain ⟨b, hb, hptr⟩ := hp.pointer (hpos.trans_le hle)
  refine ⟨_, HeapArena.advance_of_le (hp.remaining ▸ hle), rfl, hp.blocks, ?_, hp.usage, fun _ => ?_⟩
  · exact congrArg (· - n) hp.remaining
  · exact ⟨b, hb, by rw [hptr, Nat.add_assoc]⟩

/-- `Allocate` does the same to both. -/
theorem allocate (hp : Places h a) (hpos : 0 < bytes) (block : ℕ) : ∃ address h',
    h.allocate block bytes = some (address, h') ∧ Places h' (a.allocate bytes).2 ∧
      PlacesRegion h' address (a.allocate bytes).1 := by
  rw [HeapArena.allocate, Arena.allocate, hp.remaining]
  split
  · next hle =>
    obtain ⟨b, hb, hptr⟩ := hp.pointer (hpos.trans_le hle)
    obtain ⟨h', hadvance, hblocks, hp'⟩ := hp.advance hpos hle
    rw [hadvance]
    exact ⟨_, _, rfl, hp', b, hblocks ▸ hb, hptr⟩
  · exact ⟨block, hp.allocateFallback block bytes⟩

/-- Where blocks start at multiples of 8, the offset lacks what the address lacks. -/
theorem slop_eq (hp : Places h a) (hfree : 0 < a.allocBytesRemaining)
    (hblocks : FreshBlocks h.blocks) : h.slop = if a.allocPtr % 8 = 0 then 0 else 8 - a.allocPtr % 8 := by
  obtain ⟨b, hb, hptr⟩ := hp.pointer hfree
  have haligned := hblocks.aligned b (List.mem_of_getElem? hb)
  have hmod : h.allocPtr &&& (8 - 1) = a.allocPtr % 8 := by
    rw [hptr, show 8 - 1 = 2 ^ 3 - 1 from rfl, Nat.and_two_pow_sub_one_eq_mod]
    omega
  rw [HeapArena.slop, hmod]

/-- `AllocateAligned` does, where its sum does not wrap around. -/
theorem allocateAligned (hp : Places h a) (hpos : 0 < bytes) (hblocks : FreshBlocks h.blocks)
    (hwrap : bytes + h.slop < 2 ^ 64) (block : ℕ) : ∃ address h',
    h.allocateAligned block bytes = some (address, h') ∧ Places h' (a.allocateAligned bytes).2 ∧
      PlacesRegion h' address (a.allocateAligned bytes).1 := by
  rw [HeapArena.allocateAligned, Arena.allocateAligned, hp.remaining, Nat.mod_eq_of_lt hwrap]
  rcases Nat.eq_zero_or_pos a.allocBytesRemaining with hzero | hfree
  · rw [if_neg (by omega), if_neg (by omega)]
    exact ⟨block, hp.allocateFallback block bytes⟩
  · rw [← hp.slop_eq hfree hblocks]
    split
    · next hle =>
      obtain ⟨b, hb, hptr⟩ := hp.pointer hfree
      obtain ⟨h', hadvance, hblocks', hp'⟩ := hp.advance (Nat.add_pos_left hpos _) hle
      rw [hadvance]
      exact ⟨_, _, rfl, hp', b, hblocks' ▸ hb, by rw [hptr, Nat.add_assoc]⟩
    · exact ⟨block, hp.allocateFallback block bytes⟩

end Places
end Yubindb
