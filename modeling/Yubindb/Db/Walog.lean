import Yubindb.Util.Env

/-!
# The write-ahead log writer

`src/db/walog.h`, `src/db/walog.cpp`. `crc32c` is a third-party package and enters as a parameter;
`castagnoli` is the checksum it computes.
-/

namespace Yubindb
open ByteCodec

/-- The two functions the log uses of `crc32c`, and the law that links them: extending the checksum
of `x` by `y` is the checksum of `x` followed by `y`. -/
structure Crc32c where
  crc32c : Bytes → UInt32
  extend : UInt32 → Bytes → UInt32
  extend_crc32c : ∀ x y, extend (crc32c x) y = crc32c (x ++ y)

namespace Crc32c

/-- One bit of the reflected polynomial division. -/
def stepBit (c : UInt32) : UInt32 :=
  if c &&& 1 = 1 then (c >>> 1) ^^^ 0x82F63B78 else c >>> 1

/-- One byte of it. -/
def stepByte (c : UInt32) (b : UInt8) : UInt32 := Nat.iterate stepBit 8 (c ^^^ b.toUInt32)

/-- CRC-32C with its usual initial value and final inversion. -/
def castagnoli : Crc32c where
  crc32c x := ~~~ x.foldl stepByte (~~~ 0)
  extend c y := ~~~ y.foldl stepByte (~~~ c)
  extend_crc32c x y := by simp [List.foldl_append]

end Crc32c

/-- `enum RecordType`. -/
inductive RecordType
  | zero | full | first | middle | last
  deriving DecidableEq, Repr

/-- The enumerator's value. -/
def RecordType.code : RecordType → Nat
  | .zero => 0
  | .full => 1
  | .first => 2
  | .middle => 3
  | .last => 4

def kBlockSize : Nat := 32768
def kHeaderSize : Nat := 7

theorem kBlockSize_eq : kBlockSize = 32768 := rfl
theorem kHeaderSize_eq : kHeaderSize = 7 := rfl

/-- One call of `Flushphyrecord`, with the number of padding bytes that `Appendrecord` put before
it and the offset in the block at which its header starts. -/
structure PhysRecord where
  trailer : Nat
  blockOffset : Nat
  type : RecordType
  payload : Bytes
  deriving DecidableEq, Repr

/-- `walWriter`. `emitted` is a ghost: the calls of `Flushphyrecord` so far. -/
structure WalWriter (F : Type) where
  file : F
  blockOffset : Nat
  emitted : List PhysRecord

namespace WalWriter
variable {F : Type} [AppendFile F] (C : Crc32c)

/-- `walWriter::walWriter`. -/
def new (file : F) : WalWriter F := ⟨file, 0, []⟩

/-- The `kHeaderSize` bytes in front of a payload: checksum, length, type. -/
def header (type : RecordType) (buf_ : Bytes) : Bytes :=
  let typeCrc := C.crc32c [UInt8.ofNat type.code]
  encodeFixed32 (C.extend typeCrc buf_).toNat ++
    [UInt8.ofNat (buf_.length &&& 0xff), UInt8.ofNat (buf_.length >>> 8), UInt8.ofNat type.code]

/-- `walWriter::Flushphyrecord`. The result of `file->Flush()` is dropped. -/
def flushphyrecord (w : WalWriter F) (type : RecordType) (buf_ : Bytes) : State × WalWriter F :=
  let (s, file) := AppendFile.append w.file (header C type buf_)
  if s ≠ .ok then (s, { w with file })
  else
    let (s, file) := AppendFile.append file buf_
    if s ≠ .ok then (s, { w with file })
    else
      let (_, file) := AppendFile.flush file
      (s, { w with file, blockOffset := w.blockOffset + kHeaderSize + buf_.length })

/-- The start of one round of `Appendrecord`: fewer than `kHeaderSize` bytes left in the block are
filled with zeros and the next block begins. The result of that `Append` is dropped too. -/
def padBlock (w : WalWriter F) : WalWriter F :=
  let blockleft := kBlockSize - w.blockOffset
  if blockleft < kHeaderSize then
    let file := if blockleft > 0 then (AppendFile.append w.file (List.replicate blockleft 0)).2
      else w.file
    { w with file, blockOffset := 0 }
  else w

/-- The padding that `padBlock` writes. -/
def trailer (w : WalWriter F) : Nat :=
  if kBlockSize - w.blockOffset < kHeaderSize then kBlockSize - w.blockOffset else 0

/-- The fragment type: `begin` is never cleared, and `end` is `avail > size ? size : avail`
read as a `bool`. -/
def fragmentType (avail size : Nat) : RecordType :=
  let begin_ := true
  let end_ : Bool := if avail > size then size ≠ 0 else avail ≠ 0
  if begin_ && end_ then .full
  else if begin_ then .first
  else if end_ then .last
  else .middle

/-- One round of the loop of `Appendrecord` on the `ptr.length` bytes still to write. -/
def appendRound (w : WalWriter F) (ptr : Bytes) : State × WalWriter F :=
  let trailer := w.trailer
  let w := w.padBlock
  let avail := kBlockSize - w.blockOffset - kHeaderSize
  let type := fragmentType avail ptr.length
  let chunk := ptr.take (min ptr.length avail)
  let (s, w') := w.flushphyrecord C type chunk
  (s, { w' with emitted := w.emitted ++ [⟨trailer, w.blockOffset, type, chunk⟩] })

/-- The bytes of `ptr` that one round writes. -/
def roundSize (w : WalWriter F) (ptr : Bytes) : Nat :=
  min ptr.length (kBlockSize - w.padBlock.blockOffset - kHeaderSize)

/-- The loop of `Appendrecord`; `none` when it goes round for ever. A failed fragment does not stop
it, and the next fragment's state replaces its own. -/
def appendLoop (w : WalWriter F) (ptr : Bytes) (s : State) : Option (State × WalWriter F) :=
  if ptr = [] then some (s, w)
  else
    let r := w.appendRound C ptr
    r.2 |>.appendLoop (ptr.drop (w.roundSize ptr)) r.1
partial_fixpoint

/-- `walWriter::Appendrecord`. The length is kept in a `uint32_t`. -/
def appendrecord (w : WalWriter F) (str : Bytes) : Option (State × WalWriter F) :=
  appendLoop C w (str.take (str.length % 2 ^ 32)) .ok

/-- Appending a list of records one after the other, while the appends succeed. -/
def appendAll (w : WalWriter F) : List Bytes → Option (WalWriter F)
  | [] => some w
  | str :: records =>
    match w.appendrecord C str with
    | some (.ok, w') => appendAll w' records
    | _ => none

end WalWriter
end Yubindb
