import Yubindb.Util.Common

/-!
# Files

`src/util/env.h`, `src/util/env.cpp`: the buffered `WritableFile` over a kernel that accepts every
byte it is given, and the sequential `ReadFile`. The log writer is written against the three
operations `AppendFile` of a file, so that the same writer also runs over a file whose operations
fail.
-/

namespace Yubindb

/-- What `walWriter` uses of its file: every operation reports a `State` and moves the file on. -/
class AppendFile (F : Type) where
  append : F → Bytes → State × F
  flush : F → State × F
  sync : F → State × F

/-- `kWritableFileBufferSize`. -/
def kWritableFileBufferSize : Nat := 65536

/-- `WritableFile`: `buf` is `buf_[0, offset)`, `disk` what `::write` has accepted. -/
structure WritableFile where
  buf : Bytes
  disk : Bytes
  deriving DecidableEq, Repr

namespace WritableFile

/-- A file just created or truncated by `NewWritableFile`. -/
def empty : WritableFile := ⟨[], []⟩

/-- `WritableFile::Flush`, where `::write` accepts all bytes it is given. -/
def flush (f : WritableFile) : State × WritableFile :=
  (.ok, { buf := [], disk := f.disk ++ f.buf })

/-- `WritableFile::Append(const char*, uint32_t)`. -/
def append (f : WritableFile) (ptr : Bytes) : State × WritableFile :=
  let size := ptr.length % 2 ^ 32
  let wrsize := min size (kWritableFileBufferSize - f.buf.length)
  let f := { f with buf := f.buf ++ ptr.take wrsize }
  if size - wrsize = 0 then (.ok, f)
  else
    let f := f.flush.2
    if size - wrsize < kWritableFileBufferSize then
      -- the second memcpy starts at `ptr` again, not at `wrptr`
      (.ok, { f with buf := f.buf ++ ptr.take (size - wrsize) })
    else f.flush

/-- `WritableFile::Sync`: the flush, then an `fsync` that succeeds. -/
def sync (f : WritableFile) : State × WritableFile := f.flush

instance : AppendFile WritableFile := ⟨append, flush, sync⟩

/-- Everything handed to the file so far. -/
def stream (f : WritableFile) : Bytes := f.disk ++ f.buf

@[simp] theorem append_def (f : WritableFile) (ptr : Bytes) :
    AppendFile.append f ptr = f.append ptr := rfl

@[simp] theorem flush_def (f : WritableFile) : AppendFile.flush f = f.flush := rfl

/-- What fits in the buffer is only copied there. -/
theorem append_of_fits {f : WritableFile} {ptr : Bytes}
    (h : f.buf.length + ptr.length ≤ kWritableFileBufferSize) :
    f.append ptr = (.ok, { f with buf := f.buf ++ ptr }) := by
  have hcap : kWritableFileBufferSize = 65536 := rfl
  have hsize : ptr.length % 2 ^ 32 = ptr.length := Nat.mod_eq_of_lt (by omega)
  have hmin : min ptr.length (kWritableFileBufferSize - f.buf.length) = ptr.length := by omega
  simp only [append, hsize, hmin, Nat.sub_self, if_true, List.take_length]

end WritableFile

/-- `ReadFile`: the bytes behind the read position. -/
structure ReadFile where
  rest : Bytes
  deriving DecidableEq, Repr

namespace ReadFile

/-- `ReadFile::Read`: `min(n, remaining)` bytes. -/
def read (f : ReadFile) (n : Nat) : Bytes × ReadFile := (f.rest.take n, ⟨f.rest.drop n⟩)

/-- `ReadFile::Skip`. -/
def skip (f : ReadFile) (n : Nat) : ReadFile := ⟨f.rest.drop n⟩

end ReadFile

end Yubindb
