import Yubindb.Theory.Cursor
import Yubindb.Util.Key

/-!
# Iterators over iterators

`src/db/iterator.h`, `src/db/iterator.cpp`: `IteratorWrapper`, which keeps what it last saw of an
iterator, the merging iterator and the two-level iterator.
-/

namespace Yubindb
open Cursor

/-- `Iterator`. -/
abbrev Iterator (σ : Type) := Iter σ Bytes Bytes

/-! ## Wrappers -/

/-- `IteratorWrapper`. -/
structure IteratorWrapper (σ : Type) where
  iter : Option σ := none
  valid : Bool := false
  key : Bytes := []

namespace IteratorWrapper
variable {σ : Type} (it : Iterator σ)

/-- `Update`, behind a call that left the iterator in the state `s`. -/
def update (w : IteratorWrapper σ) (s : σ) : IteratorWrapper σ :=
  { iter := some s, valid := it.valid s, key := if it.valid s then it.key s else w.key }

/-- `Set`. -/
def set (w : IteratorWrapper σ) : Option σ → IteratorWrapper σ
  | none => { w with iter := none, valid := false }
  | some s => w.update it s

def clear (w : IteratorWrapper σ) : IteratorWrapper σ := { w with iter := none, valid := false }

/-- The calls, which assert that there is an iterator. -/
def iterator : Iterator (IteratorWrapper σ) where
  valid w := w.valid
  key w := w.key
  value w := (w.iter.map it.value).getD []
  move m w := do
    let s ← w.iter
    let s ← it.move m s
    return w.update it s

end IteratorWrapper

/-! ## Merging -/

inductive Direction
  | forward
  | reverse
  deriving DecidableEq

/-- `Merageitor`; `current_` is the number of a child. -/
structure Merageitor (σ : Type) where
  children : List (IteratorWrapper σ)
  current : Option ℕ := none
  direction : Direction := .forward

namespace Merageitor
variable {σ : Type} (it : Iterator σ)

/-- `Merageitor::Merageitor`. -/
def new (children : List σ) : Merageitor σ where
  children := children.map fun child => ({} : IteratorWrapper σ).set it (some child)

/-- The loop of `FindSmallest` and `FindLargest`: a child replaces the one found so far when its key is
`better`. -/
def pick (better : Bytes → Bytes → Bool) (children : List (IteratorWrapper σ × ℕ)) :
    Option (IteratorWrapper σ × ℕ) :=
  children.foldl (fun found child =>
    if child.1.valid then
      match found with
      | none => some child
      | some best => if better child.1.key best.1.key then some child else some best
    else found) none

/-- `FindSmallest`. -/
def findSmallest (children : List (IteratorWrapper σ)) : Option ℕ :=
  (pick (fun a b => cmp a b = .lt) children.zipIdx).map Prod.snd

/-- `FindLargest`, from the last child on. -/
def findLargest (children : List (IteratorWrapper σ)) : Option ℕ :=
  (pick (fun a b => cmp a b = .gt) children.zipIdx.reverse).map Prod.snd

def currentChild (m : Merageitor σ) : Option (IteratorWrapper σ) :=
  m.current.bind fun i => m.children[i]?

/-- A call for every child, then `FindSmallest`. -/
def moveForward (call : Move Bytes) (m : Merageitor σ) : Option (Merageitor σ) := do
  let children ← m.children.mapM ((IteratorWrapper.iterator it).move call)
  return { children, current := findSmallest children, direction := .forward }

/-- `SeekToFirst`. -/
def seekToFirst : Merageitor σ → Option (Merageitor σ) := moveForward it .seekToFirst

/-- `Seek`. -/
def seek (target : Bytes) : Merageitor σ → Option (Merageitor σ) := moveForward it (.seek target)

/-- `SeekToLast`. -/
def seekToLast (m : Merageitor σ) : Option (Merageitor σ) := do
  let children ← m.children.mapM ((IteratorWrapper.iterator it).move .seekToLast)
  return { children, current := findLargest children, direction := .reverse }

/-- The body of the loop of `Next`. -/
def turnForward (key : Bytes) (child : IteratorWrapper σ) : Option (IteratorWrapper σ) := do
  let child ← (IteratorWrapper.iterator it).move (.seek key) child
  if child.valid ∧ cmp key child.key = .eq then (IteratorWrapper.iterator it).move .next child
  else some child

/-- The body of the loop of `Prev`. -/
def turnReverse (key : Bytes) (child : IteratorWrapper σ) : Option (IteratorWrapper σ) := do
  let child ← (IteratorWrapper.iterator it).move (.seek key) child
  if child.valid then (IteratorWrapper.iterator it).move .prev child
  else (IteratorWrapper.iterator it).move .seekToLast child

/-- The loop over the children other than `current_`. -/
def turn (f : IteratorWrapper σ → Option (IteratorWrapper σ)) (i : ℕ)
    (children : List (IteratorWrapper σ)) : Option (List (IteratorWrapper σ)) :=
  children.zipIdx.mapM fun child => if child.2 ≠ i then f child.1 else some child.1

/-- The change of direction. -/
def turnTo (direction : Direction) (f : IteratorWrapper σ → Option (IteratorWrapper σ)) (i : ℕ)
    (m : Merageitor σ) : Option (List (IteratorWrapper σ)) :=
  if m.direction ≠ direction then turn f i m.children else some m.children

/-- `current_->Next()`, `current_->Prev()`. -/
def moveCurrent (call : Move Bytes) (i : ℕ) (children : List (IteratorWrapper σ)) :
    Option (List (IteratorWrapper σ)) := do
  let child ← children[i]?
  let child ← (IteratorWrapper.iterator it).move call child
  return children.set i child

/-- `Next`. -/
def next (m : Merageitor σ) : Option (Merageitor σ) := do
  let i ← m.current
  let current ← m.currentChild
  let children ← m.turnTo .forward (turnForward it current.key) i
  let children ← moveCurrent it .next i children
  return { children, current := findSmallest children, direction := .forward }

/-- `Prev`. -/
def prev (m : Merageitor σ) : Option (Merageitor σ) := do
  let i ← m.current
  let current ← m.currentChild
  let children ← m.turnTo .reverse (turnReverse it current.key) i
  let children ← moveCurrent it .prev i children
  return { children, current := findLargest children, direction := .reverse }

def iterator : Iterator (Merageitor σ) where
  valid m := m.current.isSome
  key m := (m.currentChild.map IteratorWrapper.key).getD []
  value m := (m.currentChild.map (IteratorWrapper.iterator it).value).getD []
  move
    | .seekToFirst => seekToFirst it
    | .seekToLast => seekToLast it
    | .seek target => seek it target
    | .next => next it
    | .prev => prev it

end Merageitor

/-! ## Two levels -/

/-- `TweLevelIterator`. -/
structure TweLevelIterator (σ τ : Type) where
  indexIter : IteratorWrapper σ
  dataIter : IteratorWrapper τ := {}
  dataBlockHandle : Bytes := []

namespace TweLevelIterator
variable {σ τ : Type} (index : Iterator σ) (data : Iterator τ) (blockFunction : Bytes → Option τ)

/-- `TweLevelIterator::TweLevelIterator`. -/
def new (indexIter : σ) : TweLevelIterator σ τ where
  indexIter := ({} : IteratorWrapper σ).set index (some indexIter)

/-- `clear`. -/
def clear (t : TweLevelIterator σ τ) : TweLevelIterator σ τ :=
  if t.dataIter.iter.isSome then { t with dataIter := t.dataIter.clear } else t

/-- `SetDataIterator`. -/
def setDataIterator (t : TweLevelIterator σ τ) (dataIter : Option τ) : TweLevelIterator σ τ :=
  if t.dataIter.iter.isSome then { t with dataIter := t.dataIter.set data dataIter } else t

/-- `InitDataBlock`. -/
def initDataBlock (t : TweLevelIterator σ τ) : TweLevelIterator σ τ :=
  if !t.indexIter.valid then t.clear
  else
    let handle := (IteratorWrapper.iterator index).value t.indexIter
    if t.dataIter.iter.isSome ∧ handle = t.dataBlockHandle then t
    else
      let iter := blockFunction handle
      { t with dataBlockHandle := handle }.setDataIterator data iter

def moveIndex (call : Move Bytes) (t : TweLevelIterator σ τ) : Option (TweLevelIterator σ τ) := do
  let indexIter ← (IteratorWrapper.iterator index).move call t.indexIter
  return { t with indexIter }

def moveData (call : Move Bytes) (t : TweLevelIterator σ τ) : Option (TweLevelIterator σ τ) := do
  let dataIter ← (IteratorWrapper.iterator data).move call t.dataIter
  return { t with dataIter }

/-- `if (data_iter.iter() != nullptr)`. -/
def moveDataIfSet (call : Move Bytes) (t : TweLevelIterator σ τ) :
    Option (TweLevelIterator σ τ) :=
  if t.dataIter.iter.isSome then t.moveData data call else some t

/-- A call for the index iterator, `InitDataBlock`, and a call for the data iterator. -/
def enterBlock (indexCall dataCall : Move Bytes) (t : TweLevelIterator σ τ) :
    Option (TweLevelIterator σ τ) := do
  let t ← t.moveIndex index indexCall
  (t.initDataBlock index data blockFunction).moveDataIfSet data dataCall

/-- `SkipEmptyDataBlocksForward` with `Next` and `SeekToFirst`, `SkipEmptyDataBlocksBackward` with
`Prev` and `SeekToLast`. -/
def skipEmptyDataBlocks (step seek : Move Bytes) (t : TweLevelIterator σ τ) :
    Option (TweLevelIterator σ τ) := do
  if t.dataIter.iter.isNone ∨ !t.dataIter.valid then
    if !t.indexIter.valid then return t.clear
    else
      let t ← t.enterBlock index data blockFunction step seek
      t |>.skipEmptyDataBlocks step seek
  else return t
partial_fixpoint

/-- `SkipEmptyDataBlocksForward`. -/
def skipEmptyDataBlocksForward : TweLevelIterator σ τ → Option (TweLevelIterator σ τ) :=
  skipEmptyDataBlocks index data blockFunction .next .seekToFirst

/-- `SkipEmptyDataBlocksBackward`. -/
def skipEmptyDataBlocksBackward : TweLevelIterator σ τ → Option (TweLevelIterator σ τ) :=
  skipEmptyDataBlocks index data blockFunction .prev .seekToLast

/-- `Seek`, `SeekToFirst` and `SeekToLast`: the same call for the index and the block. -/
def moveBoth (call : Move Bytes) (skip : TweLevelIterator σ τ → Option (TweLevelIterator σ τ))
    (t : TweLevelIterator σ τ) : Option (TweLevelIterator σ τ) := do
  let t ← t.enterBlock index data blockFunction call call
  skip t

/-- `Next` and `Prev`. -/
def moveInBlock (call : Move Bytes) (skip : TweLevelIterator σ τ → Option (TweLevelIterator σ τ))
    (t : TweLevelIterator σ τ) : Option (TweLevelIterator σ τ) := do
  let t ← t.moveData data call
  skip t

/-- The calls. -/
def move : Move Bytes → TweLevelIterator σ τ → Option (TweLevelIterator σ τ)
  | .seek target => moveBoth index data blockFunction (.seek target)
      (skipEmptyDataBlocksForward index data blockFunction)
  | .seekToFirst => moveBoth index data blockFunction .seekToFirst
      (skipEmptyDataBlocksForward index data blockFunction)
  | .seekToLast => moveBoth index data blockFunction .seekToLast
      (skipEmptyDataBlocksBackward index data blockFunction)
  | .next => moveInBlock data .next (skipEmptyDataBlocksForward index data blockFunction)
  | .prev => moveInBlock data .prev (skipEmptyDataBlocksBackward index data blockFunction)

def iterator : Iterator (TweLevelIterator σ τ) where
  valid t := t.dataIter.valid
  key t := t.dataIter.key
  value t := (IteratorWrapper.iterator data).value t.dataIter
  move := move index data blockFunction

end TweLevelIterator
end Yubindb
