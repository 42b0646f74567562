import Hush.Lib.PostcardCrate
import Hush.Protocol.Messages

/-! The frames that carry the messages on a stream, with raw bytes behind them. -/
namespace Hush.Protocol
open Hush.Lib Hush.Lib.Postcard Hush.Lib.Wire
open Hush.FileCopy (Bytes StreamResponse maxFrameLen)

inductive FrameError
  | unexpectedEof
  | finishedEarly (read : Nat)
  | tooLarge (len : Nat)
  | deserialize (err : Postcard.Error)
  deriving DecidableEq, Repr

/-- `RecvStream::read_exact`, which has its own error for a stream that ends too early. -/
def readExact (len : Nat) : Reader FrameError Bytes := fun buf =>
  take (.finishedEarly buf.length) len buf

/-- Why a frame is not read of which there are only so many bytes: the stream ends in the length,
or in what the length announces. -/
def cutError (read : Nat) : FrameError :=
  if read < 4 then .unexpectedEof else .finishedEarly (read - 4)

section Frame

variable {α : Type} (format : Format α)

/-- The bytes that `write_frame` puts on the stream. -/
def writeFrame (value : α) : Except String Bytes :=
  let bytes := format.encode value
  if maxFrameLen < bytes.length then .error s!"frame too large: {bytes.length} bytes"
  else .ok (beBytes 4 bytes.length ++ bytes)

def readFrame : Reader FrameError α := do
  let len ← u32 .unexpectedEof
  if maxFrameLen < len then throw (.tooLarge len)
  let buf ← readExact len
  -- `from_bytes` does not look at what the value leaves of the frame.
  match format.read buf with
  | .ok (value, _) => return value
  | .error err => throw (.deserialize err)

def writeFrames : List α → Except String Bytes
  | [] => .ok []
  | value :: values => do return (← writeFrame format value) ++ (← writeFrames values)

/-- So many frames one after the other: those read, and what is left or why it ends there. -/
def readFrames : Nat → Bytes → List α × Except FrameError Bytes
  | 0, buf => ([], .ok buf)
  | k + 1, buf =>
    match readFrame format buf with
    | .error err => ([], .error err)
    | .ok (value, rest) => (value :: (readFrames k rest).1, (readFrames k rest).2)

variable {format} {value : α} {values : List α} {bytes : Bytes}

theorem writeFrame_eq_ok (h : writeFrame format value = .ok bytes) :
    (format.encode value).length ≤ maxFrameLen ∧
      bytes = beBytes 4 (format.encode value).length ++ format.encode value := by
  simp only [writeFrame] at h
  split at h
  · cases h
  · next hle => exact ⟨Nat.not_lt.mp hle, (Except.ok.inj h).symm⟩

theorem reads_length {n : Nat} (h : n ≤ maxFrameLen) :
    Reads FrameError.unexpectedEof (u32 FrameError.unexpectedEof) (beBytes 4 n) n := by
  have hmax : maxFrameLen < 2 ^ 32 := by decide
  exact reads_u32 (by omega)

/-- A frame is read back whatever is behind it. -/
theorem readFrame_ok (h : writeFrame format value = .ok bytes) (rest : Bytes) :
    readFrame format (bytes ++ rest) = .ok (value, rest) := by
  obtain ⟨hle, rfl⟩ := writeFrame_eq_ok h
  have hmax : maxFrameLen < 2 ^ 32 := by decide
  have hread := format.takes value (by omega) []
  rw [List.append_nil] at hread
  rw [List.append_assoc]
  refine bind_eq_ok_iff.mpr ⟨_, _, (reads_length hle).ok _, ?_⟩
  simp only [if_neg (Nat.not_lt.mpr hle)]
  refine bind_eq_ok_iff.mpr ⟨format.encode value, rest, (reads_take rfl).ok rest, ?_⟩
  rw [hread]
  rfl

/-- No part of it is taken for a frame. -/
theorem readFrame_cut (h : writeFrame format value = .ok bytes) {m : Nat}
    (hm : m < bytes.length) : readFrame format (bytes.take m) = .error (cutError m) := by
  obtain ⟨hle, rfl⟩ := writeFrame_eq_ok h
  have hlength := reads_length hle
  rw [List.length_append, length_beBytes] at hm
  rw [cutError]
  by_cases hshort : m < 4
  · have hcut := hlength.short m (by rwa [length_beBytes])
    rw [if_pos hshort, List.take_append_of_le_length (by rw [length_beBytes]; omega)]
    change (u32 FrameError.unexpectedEof _ >>= _) = _
    rw [hcut]
    rfl
  · rw [if_neg hshort, List.take_append, length_beBytes,
      List.take_of_length_le (by rw [length_beBytes]; omega)]
    refine hlength.bind_error ?_
    simp only [if_neg (Nat.not_lt.mpr hle)]
    have hexact : readExact (format.encode value).length ((format.encode value).take (m - 4)) =
        .error (.finishedEarly (m - 4)) := by
      have htake : ((format.encode value).take (m - 4)).length = m - 4 :=
        List.length_take_of_le (by omega)
      rw [readExact, htake]
      exact (reads_take rfl).short (m - 4) (by omega)
    change (readExact _ _ >>= _) = _
    rw [hexact]
    rfl

theorem writeFrames_cons {front back : Bytes} (hfront : writeFrame format value = .ok front)
    (hback : writeFrames format values = .ok back) :
    writeFrames format (value :: values) = .ok (front ++ back) := by
  simp only [writeFrames, hfront, hback]
  rfl

theorem writeFrames_cons_eq_ok (h : writeFrames format (value :: values) = .ok bytes) :
    ∃ front back, writeFrame format value = .ok front ∧ writeFrames format values = .ok back ∧
      bytes = front ++ back := by
  rw [writeFrames] at h
  cases hfront : writeFrame format value with
  | error err =>
    rw [hfront] at h
    cases h
  | ok front =>
    cases hback : writeFrames format values with
    | error err =>
      rw [hfront, hback] at h
      cases h
    | ok back =>
      rw [hfront, hback] at h
      exact ⟨front, back, rfl, rfl, (Except.ok.inj h).symm⟩

theorem readFrames_succ_ok {k : Nat} {buf rest : Bytes}
    (h : readFrame format buf = .ok (value, rest)) :
    readFrames format (k + 1) buf =
      (value :: (readFrames format k rest).1, (readFrames format k rest).2) := by
  simp only [readFrames, h]

theorem readFrames_writeFrames (h : writeFrames format values = .ok bytes) (rest : Bytes) :
    readFrames format values.length (bytes ++ rest) = (values, .ok rest) := by
  induction values generalizing bytes with
  | nil =>
    cases h
    rfl
  | cons value values ih =>
    obtain ⟨front, back, hfront, hback, rfl⟩ := writeFrames_cons_eq_ok h
    rw [List.append_assoc, List.length_cons, readFrames_succ_ok (readFrame_ok hfront _), ih hback]

/-- A stream that is cut gives the frames before the cut, and then its end. -/
theorem readFrames_cut (h : writeFrames format values = .ok bytes) {m : Nat}
    (hm : m < bytes.length) :
    ∃ k < values.length, ∃ front next, writeFrames format (values.take k) = .ok front ∧
      writeFrames format (values.take (k + 1)) = .ok next ∧ front.length ≤ m ∧ m < next.length ∧
      readFrames format values.length (bytes.take m) =
        (values.take k, .error (cutError (m - front.length))) := by
  induction values generalizing bytes m with
  | nil =>
    cases h
    exact absurd hm (Nat.not_lt_zero m)
  | cons value values ih =>
    obtain ⟨first, back, hfirst, hback, rfl⟩ := writeFrames_cons_eq_ok h
    by_cases hshort : m < first.length
    · -- The cut is in the first frame.
      have hnext : writeFrames format [value] = .ok (first ++ []) :=
        writeFrames_cons hfirst rfl
      rw [List.append_nil] at hnext
      refine ⟨0, Nat.zero_lt_succ _, [], first, rfl, hnext, Nat.zero_le _, hshort, ?_⟩
      rw [List.take_append_of_le_length (Nat.le_of_lt hshort)]
      simp only [List.length_cons, readFrames, readFrame_cut hfirst hshort, List.take_zero,
        List.length_nil, Nat.sub_zero]
    · rw [List.length_append] at hm
      have hm' : m - first.length < back.length := by omega
      obtain ⟨k, hk, front, next, hfront, hnext, hle, hlt, hcut⟩ := ih hback hm'
      refine ⟨k + 1, Nat.succ_lt_succ hk, first ++ front, first ++ next,
        writeFrames_cons hfirst hfront, writeFrames_cons hfirst hnext, ?_, ?_, ?_⟩
      · rw [List.length_append]
        omega
      · rw [List.length_append]
        omega
      · rw [List.take_append, List.take_of_length_le (Nat.not_lt.mp hshort), List.length_cons,
          readFrames_succ_ok (readFrame_ok hfirst _), hcut, List.take_succ_cons,
          List.length_append, Nat.sub_add_eq]

end Frame

/-- A stream is opened by one message and answered by others, with data behind both. Each side
reads the messages the other has written and is left with the data. Cut short, the opening message
is not read at all, and of the answers only those before the cut; the error says whether the cut is
in the length of a message or behind it. -/
theorem stream_messages_delivered [Postcard] {message : StreamOpen} {answers : List StreamResponse}
    {opened answered : Bytes} (hopened : writeFrame StreamOpen.format message = .ok opened)
    (hanswered : writeFrames responseFormat answers = .ok answered) :
    (∀ payload, readFrame StreamOpen.format (opened ++ payload) = .ok (message, payload)) ∧
    (∀ m < opened.length, readFrame StreamOpen.format (opened.take m) = .error (cutError m)) ∧
    (∀ payload, readFrames responseFormat answers.length (answered ++ payload) =
      (answers, .ok payload)) ∧
    ∀ m < answered.length, ∃ k < answers.length, ∃ front next,
      writeFrames responseFormat (answers.take k) = .ok front ∧
      writeFrames responseFormat (answers.take (k + 1)) = .ok next ∧
      front.length ≤ m ∧ m < next.length ∧
      readFrames responseFormat answers.length (answered.take m) =
        (answers.take k, .error (cutError (m - front.length))) := by
  refine ⟨readFrame_ok hopened, fun m hm => readFrame_cut hopened hm,
    readFrames_writeFrames hanswered, fun m hm => readFrames_cut hanswered hm⟩

/-- A signal's stream with a byte behind its message, two answers with nothing behind them, and the
signal's message cut in its length and behind it. -/
theorem stream_messages_delivered_signal :
    readFrame StreamOpen.format ([0, 0, 0, 2, 5, 3] ++ [7]) = .ok (.signal .sighup, [7]) ∧
    readFrames responseFormat 2 ([0, 0, 0, 1, 1, 0, 0, 0, 1, 0] ++ []) =
      ([.sessionReady, .ok], .ok []) ∧
    readFrame StreamOpen.format [0, 0] = .error .unexpectedEof ∧
    readFrame StreamOpen.format [0, 0, 0, 2, 5] = .error (.finishedEarly 1) := by
  have hopened : writeFrame StreamOpen.format (.signal .sighup) = .ok [0, 0, 0, 2, 5, 3] := rfl
  have hanswered : writeFrames responseFormat [.sessionReady, .ok] =
      .ok [0, 0, 0, 1, 1, 0, 0, 0, 1, 0] := rfl
  obtain ⟨hopen, hcut, hanswers, -⟩ := stream_messages_delivered hopened hanswered
  exact ⟨hopen [7], hanswers [], hcut 2 (by decide), hcut 5 (by decide)⟩

end Hush.Protocol
