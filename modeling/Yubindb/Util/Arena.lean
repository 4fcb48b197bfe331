import Mathlib.Data.List.Basic

/-!
# The arena

`src/util/arena.h`, `src/util/arena.cpp`. A pointer into the arena is an offset into one of its
blocks; `operator new[]` returns blocks whose addresses are multiples of 8.
-/

namespace Yubindb

/-- `BlockSize`. -/
def BlockSize : Nat := 4096

/-- `Arena`. -/
structure Arena where
  /-- `blocks_`: the sizes of the blocks, in the order in which they were allocated. -/
  blocks : List Nat := []
  /-- The block into which `alloc_ptr_` points. -/
  current : Nat := 0
  /-- The offset of `alloc_ptr_` in it; also 0 for the null pointer. -/
  allocPtr : Nat := 0
  allocBytesRemaining : Nat := 0
  memoryUsage : Nat := 0
  deriving DecidableEq, Repr

/-- What an allocation returns: `size` bytes from `offset` in a block. -/
structure Region where
  block : Nat
  offset : Nat
  size : Nat
  deriving DecidableEq, Repr

namespace Arena

/-- `AllocateNewBlock`: the index of the new block. -/
def allocateNewBlock (a : Arena) (blockBytes : Nat) : Nat × Arena :=
  (a.blocks.length, { a with
    blocks := a.blocks ++ [blockBytes]
    memoryUsage := a.memoryUsage + (blockBytes + 8) })

/-- `AllocateFallback`. -/
def allocateFallback (a : Arena) (bytes : Nat) : Region × Arena :=
  if bytes > BlockSize / 4 then
    let (block, a) := a.allocateNewBlock bytes
    (⟨block, 0, bytes⟩, a)
  else
    let (block, a) := a.allocateNewBlock BlockSize
    (⟨block, 0, bytes⟩,
      { a with current := block, allocPtr := bytes, allocBytesRemaining := BlockSize - bytes })

/-- `Allocate`. -/
def allocate (a : Arena) (bytes : Nat) : Region × Arena :=
  if bytes ≤ a.allocBytesRemaining then
    (⟨a.current, a.allocPtr, bytes⟩,
      { a with
        allocPtr := a.allocPtr + bytes, allocBytesRemaining := a.allocBytesRemaining - bytes })
  else a.allocateFallback bytes

/-- `AllocateAligned`. -/
def allocateAligned (a : Arena) (bytes : Nat) : Region × Arena :=
  let currentMod := a.allocPtr % 8
  let slop := if currentMod = 0 then 0 else 8 - currentMod
  let needed := bytes + slop
  if needed ≤ a.allocBytesRemaining then
    (⟨a.current, a.allocPtr + slop, bytes⟩,
      { a with
        allocPtr := a.allocPtr + needed, allocBytesRemaining := a.allocBytesRemaining - needed })
  else a.allocateFallback bytes

end Arena
end Yubindb
