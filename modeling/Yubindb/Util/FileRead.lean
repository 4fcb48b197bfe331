import Yubindb.Util.Env

/-!
# Reading a file

`ReadFile::Read` and `ReadFileToString` in `src/util/env.cpp`, over what the kernel answers to each
`::read`.
-/

namespace Yubindb

/-- What a `::read` gives: a signal came first, another error, or the bytes that were read. -/
inductive ReadAnswer
  | eintr
  | error
  | count (n : Nat)
  deriving DecidableEq, Repr

/-- What the kernel gives to requests of `n` bytes, on a file of which this many bytes are left: it reads
nothing at the end of the file only. -/
def ReadAnswer.Legal (n : Nat) : Nat → List ReadAnswer → Prop
  | _, [] => True
  | left, .count k :: answers =>
    k ≤ n ∧ k ≤ left ∧ (k = 0 → left = 0) ∧ Legal n (left - k) answers
  | left, _ :: answers => Legal n left answers

/-- What a `Read` leaves: its state, `*result`, `*readsize`, the file, and the answers that are left. -/
structure ReadReturn where
  state : State
  result : Bytes
  readsize : Nat
  file : ReadFile
  answers : List ReadAnswer

/-- `ReadFile::Read`, over the answers of the kernel; it is `none` where it waits for another one. The
`resize` of a turn stays when the turn is repeated. -/
def ReadFile.readWith (f : ReadFile) (n : Nat) (result : Bytes) (readsize : Nat) :
    List ReadAnswer → Option ReadReturn
  | [] => none
  | .eintr :: answers => f.readWith n (result ++ List.replicate n 0) readsize answers
  | .error :: answers => some ⟨.ioError, result ++ List.replicate n 0, readsize, f, answers⟩
  | .count k :: answers => some ⟨.ok, result ++ f.rest.take k, k, ⟨f.rest.drop k⟩, answers⟩

namespace ReadFile
variable {f : ReadFile} {n readsize : Nat} {result : Bytes} {answers : List ReadAnswer} {r : ReadReturn}

/-- A call ends with the first answer that is not a signal. -/
theorem readWith_cases (h : f.readWith n result readsize answers = some r) :
    ∃ j rest, (answers = List.replicate j .eintr ++ .error :: rest ∧
        r = ⟨.ioError, result ++ List.replicate ((j + 1) * n) 0, readsize, f, rest⟩) ∨
      ∃ k, answers = List.replicate j .eintr ++ .count k :: rest ∧
        r = ⟨.ok, result ++ (List.replicate (j * n) 0 ++ f.rest.take k), k, ⟨f.rest.drop k⟩, rest⟩ := by
  induction answers generalizing result with
  | nil => cases h
  | cons answer answers ih =>
    cases answer with
    | eintr =>
      have hzeros (j : Nat) : result ++ List.replicate n (0 : UInt8) ++ List.replicate (j * n) 0 =
          result ++ List.replicate ((j + 1) * n) 0 := by
        rw [List.append_assoc, List.replicate_append_replicate, Nat.add_one_mul, Nat.add_comm n]
      obtain ⟨j, rest, ⟨rfl, rfl⟩ | ⟨k, rfl, rfl⟩⟩ := ih h
      · exact ⟨j + 1, rest, .inl ⟨rfl, by rw [hzeros]⟩⟩
      · exact ⟨j + 1, rest, .inr ⟨k, rfl, by rw [← List.append_assoc, hzeros, List.append_assoc]⟩⟩
    | error =>
      cases h
      exact ⟨0, answers, .inl ⟨rfl, by rw [Nat.zero_add, Nat.one_mul]⟩⟩
    | count k =>
      cases h
      exact ⟨0, answers, .inr ⟨k, rfl, by rw [Nat.zero_mul, List.replicate_zero, List.nil_append]⟩⟩

theorem length_answers_readWith (h : f.readWith n result readsize answers = some r) :
    r.answers.length < answers.length := by
  obtain ⟨j, rest, ⟨rfl, rfl⟩ | ⟨k, rfl, rfl⟩⟩ := readWith_cases h
  all_goals
    simp only [List.length_append, List.length_cons]
    omega

end ReadFile

namespace ReadAnswer
variable {n left k : Nat} {answers : List ReadAnswer}

theorem Legal.of_eintr {j : Nat} (h : Legal n left (List.replicate j .eintr ++ answers)) :
    Legal n left answers := by
  induction j with
  | zero => exact h
  | succ j ih => exact ih h

end ReadAnswer

/-! ## `ReadFileToString` -/

/-- The loop of `ReadFileToString`, with its `kBufferSize`. `readsize` is written before it is read. -/
def readToEnd (f : ReadFile) (data : Bytes) (answers : List ReadAnswer) :
    Option (State × Bytes × List ReadAnswer) :=
  match _h : f.readWith 8192 data 0 answers with
  | none => none
  | some r =>
    if r.state ≠ .ok then some (r.state, r.result, r.answers)
    else if r.readsize ≤ 0 then some (.ok, r.result, r.answers)
    else readToEnd r.file r.result r.answers
termination_by answers.length
decreasing_by exact ReadFile.length_answers_readWith _h

/-- `ReadFileToString`, on a file with these contents, where it can be opened. -/
def readFileToString (contents : Option Bytes) (answers : List ReadAnswer) :
    Option (State × Bytes × List ReadAnswer) :=
  match contents with
  | none => some (.ioError, [], answers)
  | some contents => readToEnd ⟨contents⟩ [] answers

variable {f : ReadFile} {data data' contents : Bytes} {answers answers' : List ReadAnswer}

theorem readToEnd_ok {r : ReadReturn} (hread : f.readWith 8192 data 0 answers = some r)
    (hstate : r.state = .ok) :
    readToEnd f data answers =
      if r.readsize ≤ 0 then some (.ok, r.result, r.answers) else readToEnd r.file r.result r.answers := by
  rw [readToEnd]
  split
  · next hnone => exact absurd (hnone.symm.trans hread) nofun
  · next r' hsome =>
    obtain rfl := Option.some.inj (hsome.symm.trans hread)
    exact if_neg (not_not.mpr hstate)

/-- Up to the end of the file, each signal puts a buffer of zeros in front of the bytes that follow. -/
theorem of_readToEnd (hlegal : ReadAnswer.Legal 8192 f.rest.length answers)
    (h : readToEnd f data answers = some (.ok, data', answers')) :
    ∃ used text, answers = used ++ answers' ∧ data' = data ++ text ∧ f.rest.Sublist text ∧
      text.length = f.rest.length + 8192 * used.count .eintr := by
  induction hn : answers.length using Nat.strong_induction_on generalizing f data answers with
  | _ n ih =>
    subst hn
    cases hread : f.readWith 8192 data 0 answers with
    | none =>
      rw [readToEnd, hread] at h
      cases h
    | some r =>
      have hlen := ReadFile.length_answers_readWith hread
      obtain ⟨j, rest, ⟨-, rfl⟩ | ⟨k, rfl, rfl⟩⟩ := ReadFile.readWith_cases hread
      · rw [readToEnd, hread] at h
        cases h
      obtain ⟨-, hk, hend, hlegal⟩ := hlegal.of_eintr
      rw [readToEnd_ok hread rfl] at h
      split at h
      · next hzero =>
        cases h
        obtain rfl := Nat.le_zero.mp hzero
        have hrest : f.rest = [] := List.length_eq_zero_iff.mp (hend rfl)
        refine ⟨List.replicate j .eintr ++ [.count 0], List.replicate (j * 8192) 0, ?_, ?_, ?_, ?_⟩
        · exact List.append_cons _ _ _
        · rw [List.take_zero, List.append_nil]
        · rw [hrest]
          exact List.nil_sublist _
        · simp [hrest, Nat.mul_comm]
      · rw [← List.length_drop] at hlegal
        obtain ⟨used, text, rfl, rfl, hsub, htext⟩ := ih _ hlen hlegal h rfl
        refine ⟨List.replicate j .eintr ++ .count k :: used,
          List.replicate (j * 8192) 0 ++ (f.rest.take k ++ text), ?_, ?_, ?_, ?_⟩
        · rw [List.append_assoc, List.cons_append]
        · simp only [List.append_assoc]
        · conv_lhs => rw [← List.take_append_drop k f.rest]
          exact ((List.Sublist.refl _).append hsub).trans (List.sublist_append_right _ _)
        · have hcount : (List.replicate j ReadAnswer.eintr ++ .count k :: used).count .eintr =
              j + used.count .eintr := by simp
          rw [hcount, List.length_append, List.length_append, htext, List.length_replicate,
            List.length_take, List.length_drop]
          omega

/-- Where `ReadFileToString` succeeds, each signal has put 8192 zeros into the contents: they are
returned as they are exactly where no signal has come. -/
theorem readFileToString_ok (hlegal : ReadAnswer.Legal 8192 contents.length answers)
    (h : readFileToString (some contents) answers = some (.ok, data, answers')) :
    ∃ used, answers = used ++ answers' ∧ contents.Sublist data ∧
      data.length = contents.length + 8192 * used.count .eintr ∧
      (data = contents ↔ .eintr ∉ used) := by
  obtain ⟨used, text, hused, rfl, hsub, hlen⟩ := of_readToEnd (f := ⟨contents⟩) hlegal h
  dsimp only at hlen
  refine ⟨used, hused, hsub, hlen, fun heq => ?_, fun hnone => ?_⟩
  · rw [heq] at hlen
    exact List.count_eq_zero.mp (by omega)
  · rw [List.count_eq_zero.mpr hnone] at hlen
    exact (hsub.eq_of_length hlen.symm).symm

/-- A signal in front of the last answer: zeros follow the line. -/
theorem readFileToString_ok_interrupted :
    ∃ used : List ReadAnswer, [.count 2, .eintr, .count 0] = used ++ [] ∧
      ([77, 10] : Bytes).Sublist ([77, 10] ++ List.replicate 8192 0) ∧
      ([77, 10] ++ List.replicate 8192 0 : Bytes).length = 2 + 8192 * used.count .eintr ∧
      (([77, 10] ++ List.replicate 8192 0 : Bytes) = [77, 10] ↔ .eintr ∉ used) := by
  have hlegal : ReadAnswer.Legal 8192 2 [.count 2, .eintr, .count 0] := by
    simp [ReadAnswer.Legal]
  have hrun : readFileToString (some [77, 10]) [.count 2, .eintr, .count 0] =
      some (.ok, [77, 10] ++ List.replicate 8192 0 ++ ([] : Bytes).take 0, []) := by
    rw [readFileToString, readToEnd_ok (r := ⟨.ok, [77, 10], 2, ⟨[]⟩, [.eintr, .count 0]⟩) rfl rfl,
      if_neg (Nat.not_succ_le_zero 1),
      readToEnd_ok (r := ⟨.ok, [77, 10] ++ List.replicate 8192 0 ++ ([] : Bytes).take 0, 0, ⟨[]⟩, []⟩)
        rfl rfl, if_pos (Nat.le_refl 0)]
  rw [List.take_nil, List.append_nil] at hrun
  exact readFileToString_ok hlegal hrun

end Yubindb
