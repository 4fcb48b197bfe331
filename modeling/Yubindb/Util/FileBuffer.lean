import Yubindb.Theory.Steps
import Yubindb.Util.Env

/-!
# The buffer of a file

`src/util/env.cpp`: the stream that `WritableFile::Append` and `WritableFile::Flush` put on a file
whose `::write` accepts what it is given, and the loop of `Flush` over a `::write` that accepts as
much as it likes.
-/

namespace Yubindb
namespace WritableFile

/-! ## The stream -/

/-- A call on a file. -/
inductive Call
  | append (data : Bytes)
  | flush
  deriving DecidableEq, Repr

/-- What a call adds to the stream. -/
def Call.data : Call → Bytes
  | append data => data
  | flush => []

/-- The file behind a call. -/
def call (f : WritableFile) : Call → WritableFile
  | .append data => (f.append data).2
  | .flush => f.flush.2

/-- The file behind a sequence of calls. -/
def calls (f : WritableFile) (cs : List Call) : WritableFile := cs.foldl call f

/-- `Append` puts all of `data` on the stream: it counts `data` in 32 bits, and where the buffer takes
only a front of `data`, the rest is shorter than a buffer and `data` begins with it. -/
def TakesWhole (f : WritableFile) (data : Bytes) : Prop :=
  let room := kWritableFileBufferSize - f.buf.length
  data.length < 2 ^ 32 ∧ (data.length ≤ room ∨
    data.length - room < kWritableFileBufferSize ∧ data.take (data.length - room) = data.drop room)

variable {f : WritableFile} {data : Bytes}

theorem length_buf_append (h : f.buf.length ≤ kWritableFileBufferSize) (data : Bytes) :
    (f.append data).2.buf.length ≤ kWritableFileBufferSize := by
  simp only [append]
  split
  · simp only [List.length_append, List.length_take]
    omega
  · split
    · simp only [flush, List.nil_append, List.length_take]
      omega
    · exact Nat.zero_le _

/-- What `Append` adds to the stream: the front that the buffer takes and, where the rest is shorter
than a buffer, as many bytes of the front again. -/
theorem stream_append (f : WritableFile) (data : Bytes) :
    (f.append data).2.stream =
      let size := data.length % 2 ^ 32
      let room := kWritableFileBufferSize - f.buf.length
      f.stream ++ (data.take (min size room) ++
        if size - room < kWritableFileBufferSize then data.take (size - room) else []) := by
  have hsub (m n : Nat) : m - min m n = m - n := by omega
  simp only [append, hsub, stream]
  generalize data.length % 2 ^ 32 = size, kWritableFileBufferSize - f.buf.length = room
  split
  · next hzero => simp [hzero]
  · split <;> simp [flush]

theorem stream_append_iff : (f.append data).2.stream = f.stream ++ data ↔ f.TakesWhole data := by
  simp only [stream_append, List.append_cancel_left_eq, TakesWhole]
  generalize kWritableFileBufferSize - f.buf.length = room
  rcases Nat.lt_or_ge data.length (2 ^ 32) with hsize | hsize
  · rw [Nat.mod_eq_of_lt hsize]
    rcases Nat.lt_or_ge room data.length with hroom | hroom
    · rw [Nat.min_eq_right hroom.le]
      split
      · next hrest =>
        conv_lhs => rhs; rw [← List.take_append_drop room data]
        rw [List.append_cancel_left_eq]
        simp only [hsize, hrest, hroom.not_ge, true_and, false_or]
      · next hrest =>
        refine iff_of_false (fun h => ?_) ?_
        · have hlen := congrArg List.length h
          rw [List.append_nil, List.length_take] at hlen
          omega
        · rintro ⟨-, hle | ⟨hlt, -⟩⟩
          · exact hroom.not_ge hle
          · exact hrest hlt
    · simp only [Nat.min_eq_left hroom, Nat.sub_eq_zero_of_le hroom, List.take_length, List.take_zero,
        ite_self, List.append_nil, hsize, hroom, true_and, true_or]
  · refine iff_of_false (fun h => ?_) fun h => hsize.not_gt h.1
    -- fewer than `2 ^ 32` bytes are added
    have hmod := Nat.mod_lt data.length (Nat.two_pow_pos 32)
    have hlen := congrArg List.length h
    rw [List.length_append, List.length_take] at hlen
    split at hlen
    · rw [List.length_take] at hlen
      omega
    · rw [List.length_nil] at hlen
      omega

theorem calls_append_singleton (f : WritableFile) (cs : List Call) (c : Call) :
    f.calls (cs ++ [c]) = (f.calls cs).call c := List.foldl_append

theorem stream_flush (f : WritableFile) : f.flush.2.stream = f.stream ++ [] := by
  simp [stream, flush]

theorem takesWhole_nil (f : WritableFile) : f.TakesWhole [] :=
  ⟨Nat.two_pow_pos 32, .inl (Nat.zero_le _)⟩

/-- The stream is whole behind every call, and the buffer within its array, exactly when every
`Append` takes the whole of its data. -/
theorem calls_iff (cs : List Call) :
    (∀ pre, pre <+: cs → (empty.calls pre).stream = pre.flatMap Call.data ∧
      (empty.calls pre).buf.length ≤ kWritableFileBufferSize) ↔
      ∀ pre c, pre ++ [c] <+: cs → (empty.calls pre).TakesWhole c.data := by
  refine forall_isPrefix_iff ⟨rfl, Nat.zero_le _⟩ (fun pre c => ?_) cs
  rintro ⟨hstream, hcap⟩
  rw [calls_append_singleton, List.flatMap_append, List.flatMap_singleton, ← hstream]
  cases c with
  | append data => exact (and_iff_left (length_buf_append hcap data)).trans stream_append_iff
  | flush => exact iff_of_true ⟨stream_flush _, Nat.zero_le _⟩ (takesWhole_nil _)

/-- One byte more than the buffer holds: the first byte of the data is buffered in its place. -/
theorem not_calls_stream :
    ¬ ∀ cs : List Call, ∀ pre, pre <+: cs → (empty.calls pre).stream = pre.flatMap Call.data ∧
      (empty.calls pre).buf.length ≤ kWritableFileBufferSize := by
  intro h
  obtain ⟨n, hn⟩ : ∃ n, kWritableFileBufferSize = n + 1 := ⟨65535, rfl⟩
  let data : Bytes := 0 :: List.replicate n 0 ++ [1]
  have hlength : data.length = n + 2 := by simp [data]
  have hstream : (empty.append data).2.stream = empty.stream ++ data :=
    (h [.append data] _ (List.prefix_refl _)).1.trans (List.append_nil data)
  obtain ⟨-, hfits | ⟨-, hfront⟩⟩ := stream_append_iff.mp hstream
  · rw [hlength, hn] at hfits
    exact Nat.not_succ_le_self _ hfits
  · have hroom : kWritableFileBufferSize - empty.buf.length = n + 1 := hn
    have hdrop : data.drop (n + 1) = [1] := by simp [data]
    have htake : data.take (n + 2 - (n + 1)) = [0] := by
      rw [Nat.add_sub_add_left]
      rfl
    rw [hroom, hlength, htake, hdrop] at hfront
    exact absurd hfront (by decide)

/-! ## The loop of `Flush` -/

/-- A result of `::write`: a signal came first, another error, or the bytes that were accepted. -/
inductive WriteResult
  | eintr
  | error
  | count (n : Nat)
  deriving DecidableEq, Repr

namespace WriteResult

def accepted : WriteResult → Nat
  | count n => n
  | _ => 0

/-- What `::write` gives for a request of `size` bytes, errors other than a signal apart. -/
def Answers (size : Nat) : WriteResult → Prop
  | eintr => True
  | error => False
  | count n => 1 ≤ n ∧ n ≤ size

/-- The bytes that a sequence of results accepts. -/
def total (rs : List WriteResult) : Nat := (rs.map accepted).sum

@[simp] theorem total_nil : total [] = 0 := rfl

@[simp] theorem total_cons (r : WriteResult) (rs : List WriteResult) :
    total (r :: rs) = r.accepted + total rs := List.sum_cons

end WriteResult

/-- Between two turns of the loop: `size`, what the kernel has accepted since the call began, and
whether `size -= n` went below zero. -/
structure Flushing where
  size : Nat
  written : Bytes
  wrapped : Bool
  deriving DecidableEq, Repr

namespace Flushing

/-- The loop is entered with `size = offset`. -/
def start (buf : Bytes) : Flushing := ⟨buf.length, [], false⟩

/-- A turn in which `::write(fd, buf_, offset)` accepts `n` bytes: `t` moves on, and is not read. -/
def accept (buf : Bytes) (s : Flushing) (n : Nat) : Flushing where
  size := (s.size + 2 ^ 64 - n) % 2 ^ 64
  written := s.written ++ buf.take n
  wrapped := s.wrapped || decide (s.size < n)

/-- The loop over the results of `::write`, and the results that it leaves. It is `none` where it
waits for another one. -/
def run (buf : Bytes) (s : Flushing) : List WriteResult → Option (State × Flushing × List WriteResult)
  | [] => if s.size = 0 then some (.ok, s, []) else none
  | r :: rs =>
    if s.size = 0 then some (.ok, s, r :: rs)
    else
      match r with
      | .eintr => run buf s rs
      | .error => some (.ioError, s, rs)
      | .count n => run buf (s.accept buf n) rs

end Flushing

/-- `WritableFile::Flush` over the results of `::write`; `offset` stays where it returns an error. -/
def flushWith (f : WritableFile) (rs : List WriteResult) :
    Option (State × WritableFile × List WriteResult) := do
  let (state, s, rest) ← (Flushing.start f.buf).run f.buf rs
  let buf := if state = .ok then [] else f.buf
  return (state, { buf, disk := f.disk ++ s.written }, rest)

/-! ## Short writes -/

namespace Flushing
open WriteResult (total)

variable {buf : Bytes} {s s' : Flushing} {rs rest : List WriteResult} {state : State}

/-- Every count behind the first `accepted` bytes repeats, from the front of the buffer, just the
bytes that come next. -/
def Repeats (buf : Bytes) (accepted : Nat) (rs : List WriteResult) : Prop :=
  ∀ pre n, pre ++ [.count n] <+: rs → accepted + total pre < buf.length →
    buf.take n <+: buf.drop (accepted + total pre)

theorem repeats_cons {accepted : Nat} {r : WriteResult} (hlt : accepted < buf.length) :
    Repeats buf accepted (r :: rs) ↔
      (∀ n, r = .count n → buf.take n <+: buf.drop accepted) ∧
        Repeats buf (accepted + r.accepted) rs := by
  constructor
  · intro h
    refine ⟨?_, fun pre n hpre hlt' => ?_⟩
    · rintro n rfl
      exact h [] n (List.prefix_append _ rs) hlt
    · have hcons := h (r :: pre) n (List.cons_prefix_cons.mpr ⟨rfl, hpre⟩)
      rw [WriteResult.total_cons, ← Nat.add_assoc] at hcons
      exact hcons hlt'
  · rintro ⟨hfirst, hrest⟩ pre n hpre hlt'
    cases pre with
    | nil =>
      obtain ⟨rfl, -⟩ := List.cons_prefix_cons.mp hpre
      exact hfirst n rfl
    | cons r' pre =>
      obtain ⟨rfl, htail⟩ := List.cons_prefix_cons.mp hpre
      rw [WriteResult.total_cons, ← Nat.add_assoc] at hlt' ⊢
      exact hrest pre n htail hlt'

theorem run_of_size (h : s.size = 0) (rs : List WriteResult) :
    run buf s rs = some (.ok, s, rs) := by
  cases rs <;> simp [run, h]

theorem run_eintr (h : s.size ≠ 0) : run buf s (.eintr :: rs) = run buf s rs := by
  simp [run, h]

theorem run_error (h : s.size ≠ 0) : run buf s (.error :: rs) = some (.ioError, s, rs) := by
  simp [run, h]

theorem run_count (h : s.size ≠ 0) (n : Nat) :
    run buf s (.count n :: rs) = run buf (s.accept buf n) rs := by
  simp [run, h]

/-- No turn takes back what the kernel has accepted, or that the size has wrapped. -/
theorem run_mono (h : run buf s rs = some (state, s', rest)) :
    s.written <+: s'.written ∧ (s.wrapped = true → s'.wrapped = true) := by
  induction rs generalizing s with
  | nil =>
    by_cases hsize : s.size = 0
    · rw [run_of_size hsize] at h
      cases h
      exact ⟨List.prefix_refl _, id⟩
    · rw [run, if_neg hsize] at h
      cases h
  | cons r rs ih =>
    by_cases hsize : s.size = 0
    · rw [run_of_size hsize] at h
      cases h
      exact ⟨List.prefix_refl _, id⟩
    cases r with
    | eintr =>
      rw [run_eintr hsize] at h
      exact ih h
    | error =>
      rw [run_error hsize] at h
      cases h
      exact ⟨List.prefix_refl _, id⟩
    | count n =>
      rw [run_count hsize] at h
      obtain ⟨hwritten, hwrapped⟩ := ih h
      refine ⟨(List.prefix_append _ _).trans hwritten, fun hs => hwrapped ?_⟩
      rw [accept, hs, Bool.true_or]

/-- The loop when the kernel has accepted the first `accepted` bytes of the buffer. -/
def after (buf : Bytes) (accepted : Nat) : Flushing :=
  ⟨buf.length - accepted, buf.take accepted, false⟩

/-- A turn that accepts the bytes that come next. -/
theorem accept_after {accepted n : Nat} (hlt : accepted < buf.length) (hsize : buf.length < 2 ^ 64)
    (hn : n ≤ buf.length) (h : buf.take n <+: buf.drop accepted) :
    accepted + n ≤ buf.length ∧ (after buf accepted).accept buf n = after buf (accepted + n) := by
  have hle := h.length_le
  rw [List.length_take, List.length_drop, Nat.min_eq_left hn] at hle
  have hbound : accepted + n ≤ buf.length := by omega
  have htake : buf.take n = (buf.drop accepted).take n := by
    rw [List.prefix_iff_eq_take.mp h, List.length_take, Nat.min_eq_left hn]
  have hmod : (buf.length - accepted + 2 ^ 64 - n) % 2 ^ 64 = buf.length - (accepted + n) := by
    omega
  have hwrapped : ¬ buf.length - accepted < n := by omega
  refine ⟨hbound, ?_⟩
  simp only [accept, after, hmod, htake, hwrapped, ← List.take_add, decide_false, Bool.or_self]

theorem run_after_iff {accepted : Nat} (hsize : buf.length < 2 ^ 64) (hle : accepted ≤ buf.length)
    (hrs : ∀ r ∈ rs, r.Answers buf.length) (htotal : buf.length ≤ accepted + total rs) :
    (∃ rest, run buf (after buf accepted) rs = some (.ok, ⟨0, buf, false⟩, rest)) ↔
      Repeats buf accepted rs := by
  induction rs generalizing accepted with
  | nil =>
    obtain rfl : accepted = buf.length := Nat.le_antisymm hle htotal
    exact iff_of_true ⟨[], by simp [run, after]⟩ fun pre n _ hlt => by omega
  | cons r rs ih =>
    rcases Nat.lt_or_ge accepted buf.length with hlt | hge
    · have hne : (after buf accepted).size ≠ 0 := Nat.sub_ne_zero_of_lt hlt
      obtain ⟨hr, hrest⟩ := List.forall_mem_cons.mp hrs
      rw [repeats_cons hlt]
      cases r with
      | eintr =>
        have hsum : total (.eintr :: rs) = total rs := Nat.zero_add _
        rw [run_eintr hne, ih hle hrest (by rwa [← hsum])]
        exact (and_iff_right fun n hn => nomatch hn).symm
      | error => exact hr.elim
      | count n =>
        rw [run_count hne]
        by_cases hnext : buf.take n <+: buf.drop accepted
        · obtain ⟨hbound, haccept⟩ := accept_after hlt hsize hr.2 hnext
          rw [haccept, ih hbound hrest (by rwa [Nat.add_assoc])]
          refine (and_iff_right fun m hm => ?_).symm
          cases hm
          exact hnext
        · refine iff_of_false ?_ fun h => hnext (h.1 n rfl)
          rintro ⟨rest, hrun⟩
          have hwritten : buf.take accepted ++ buf.take n <+: buf := (run_mono hrun).1
          conv_rhs at hwritten => rw [← List.take_append_drop accepted buf]
          exact hnext ((List.prefix_append_right_inj _).mp hwritten)
    · obtain rfl : accepted = buf.length := Nat.le_antisymm hle hge
      exact iff_of_true ⟨r :: rs, by simp [run, after]⟩ fun pre n _ hlt => by omega

end Flushing

/-- Where the results repeat the bytes that are due, as the one result of a `::write` that takes all
bytes does, it is the `flush` of above. -/
theorem flushWith_eq_flush {f : WritableFile} {rs : List WriteResult} (hsize : f.buf.length < 2 ^ 64)
    (hrs : ∀ r ∈ rs, r.Answers f.buf.length) (htotal : f.buf.length ≤ WriteResult.total rs)
    (h : Flushing.Repeats f.buf 0 rs) :
    ∃ rest, f.flushWith rs = some (f.flush.1, f.flush.2, rest) := by
  obtain ⟨rest, hrun⟩ :=
    (Flushing.run_after_iff hsize (Nat.zero_le _) hrs (by rwa [Nat.zero_add])).mpr h
  have hstart : Flushing.start f.buf = Flushing.after f.buf 0 := rfl
  refine ⟨rest, ?_⟩
  rw [flushWith, hstart, hrun]
  rfl

/-- `Flush` gives the buffer to the kernel once and in order, and its counter does not wrap, exactly
when every count that comes in repeats from the buffer's front the bytes that are due. -/
theorem flushes_whole_iff {f : WritableFile} {rs : List WriteResult}
    (hcap : f.buf.length ≤ kWritableFileBufferSize) (hrs : ∀ r ∈ rs, r.Answers f.buf.length)
    (htotal : f.buf.length ≤ WriteResult.total rs) :
    (∃ rest, (Flushing.start f.buf).run f.buf rs =
      some (.ok, { size := 0, written := f.buf, wrapped := false }, rest)) ↔
      Flushing.Repeats f.buf 0 rs := by
  have hsize : f.buf.length < 2 ^ 64 := hcap.trans_lt (by decide)
  exact Flushing.run_after_iff hsize (Nat.zero_le _) hrs (by rwa [Nat.zero_add])

theorem flushes_whole_interrupted :
    (∃ rest, (Flushing.start [1, 2]).run [1, 2] [.eintr, .count 2] =
      some (.ok, { size := 0, written := [1, 2], wrapped := false }, rest)) ↔
      Flushing.Repeats [1, 2] 0 [.eintr, .count 2] :=
  flushes_whole_iff (f := ⟨[1, 2], []⟩) (by decide) (by simp [WriteResult.Answers]) (by decide)

/-- A short write: the second `::write` sends the first byte of the buffer again. -/
theorem not_flush_short :
    ¬ ∀ (f : WritableFile) (rs : List WriteResult), f.buf.length ≤ kWritableFileBufferSize →
      (∀ r ∈ rs, r.Answers f.buf.length) → f.buf.length ≤ WriteResult.total rs →
        ∃ rest, (Flushing.start f.buf).run f.buf rs =
          some (.ok, { size := 0, written := f.buf, wrapped := false }, rest) := by
  intro h
  obtain ⟨rest, hrun⟩ := h ⟨[1, 2], []⟩ [.count 1, .count 1] (by decide)
    (by simp [WriteResult.Answers]) (by decide)
  cases hrun

end WritableFile
end Yubindb
