import Hush.FileCopy.Tar
import Hush.Lib.Loop

/-! The writers under the tar builder: the byte limit and the stream's buffer. -/
namespace Hush.FileCopy
open Hush.Lib

/-- Passes on at most `limit` bytes. `ops` is what it has passed on. -/
structure LimitedWriter where
  limit : Nat
  ops : List WriteOp
  deriving DecidableEq, Repr

def LimitedWriter.new (limit : Nat) : LimitedWriter := ⟨limit, []⟩

def limitReachedMessage : String := "file-copy archive byte limit reached"

namespace LimitedWriter

def writes (w : LimitedWriter) : List Bytes := w.ops.map WriteOp.bytes

def written (w : LimitedWriter) : Nat := w.writes.flatten.length

def push (w : LimitedWriter) (buf : Bytes) : LimitedWriter :=
  { w with ops := w.ops ++ [.write buf] }

/-- `poll_flush` is passed through. -/
def flush (w : LimitedWriter) : LimitedWriter := { w with ops := w.ops ++ [.flush] }

@[simp] theorem push_limit (w : LimitedWriter) (buf : Bytes) : (w.push buf).limit = w.limit := rfl

@[simp] theorem push_writes (w : LimitedWriter) (buf : Bytes) :
    (w.push buf).writes = w.writes ++ [buf] := by
  simp only [writes, push, List.map_append, List.map_singleton, WriteOp.bytes]

@[simp] theorem push_written (w : LimitedWriter) (buf : Bytes) :
    (w.push buf).written = w.written + buf.length := by
  simp only [written, push_writes, List.flatten_append, List.flatten_singleton, List.length_append]

@[simp] theorem flush_limit (w : LimitedWriter) : w.flush.limit = w.limit := rfl

@[simp] theorem flush_flatten (w : LimitedWriter) : w.flush.writes.flatten = w.writes.flatten := by
  simp [writes, flush, WriteOp.bytes]

@[simp] theorem flush_written (w : LimitedWriter) : w.flush.written = w.written := by
  rw [written, written, flush_flatten]

/-- `write_all`: the part that fits is still passed on. -/
def writeAll (w : LimitedWriter) (buf : Bytes) : LimitedWriter × Option String :=
  let available := w.limit - w.written
  if buf.length ≤ available then (w.push buf, none)
  else if available = 0 then (w, some limitReachedMessage)
  else (w.push (buf.take available), some limitReachedMessage)

def perform (w : LimitedWriter) : WriteOp → LimitedWriter × Option String
  | .write buf => w.writeAll buf
  | .flush => (w.flush, none)

def performEach (w : LimitedWriter) (ops : List WriteOp) : LimitedWriter × Option String :=
  tryEach perform w ops

/-- The builder appends a member: what it asks of the writer, up to the first error. -/
def append (w : LimitedWriter) (a : Append) : LimitedWriter × Option String :=
  match w.performEach a.ops with
  | (w, none) => (w, a.err)
  | (w, some err) => (w, some err)

variable {w w' : LimitedWriter} {buf : Bytes} {op : WriteOp} {ops : List WriteOp} {err : String}

theorem writeAll_of_le (h : buf.length ≤ w.limit - w.written) :
    w.writeAll buf = (w.push buf, none) := if_pos h

/-- A write is passed on as a whole if it fits. -/
theorem writeAll_cases (buf : Bytes) (hw : w.written ≤ w.limit) :
    (w.written + buf.length ≤ w.limit ∧ w.writeAll buf = (w.push buf, none)) ∨
    (w.limit < w.written + buf.length ∧
      ∃ w', w.writeAll buf = (w', some limitReachedMessage)) := by
  by_cases hfit : w.written + buf.length ≤ w.limit
  · exact Or.inl ⟨hfit, writeAll_of_le (by omega)⟩
  · refine Or.inr ⟨Nat.not_le.mp hfit, ?_⟩
    unfold writeAll
    simp only [if_neg (show ¬ buf.length ≤ w.limit - w.written by omega)]
    split
    · exact ⟨w, rfl⟩
    · exact ⟨_, rfl⟩

theorem writeAll_ok (h : w.writeAll buf = (w', none)) (hw : w.written ≤ w.limit) :
    w' = w.push buf ∧ w'.written ≤ w'.limit := by
  unfold writeAll at h
  simp only at h
  split at h
  · next hfit =>
    cases h
    refine ⟨rfl, ?_⟩
    rw [push_written, push_limit]
    omega
  · split at h <;> cases h

/-- A failed write passes on a beginning of the buffer. -/
theorem writeAll_err (h : w.writeAll buf = (w', some err)) :
    ∃ cut, w'.writes.flatten = w.writes.flatten ++ cut ∧ cut <+: buf := by
  unfold writeAll at h
  simp only at h
  split at h
  · cases h
  · split at h
    · cases h
      exact ⟨[], by simp, List.nil_prefix⟩
    · cases h
      exact ⟨buf.take (w.limit - w.written), by simp, List.take_prefix _ _⟩

theorem perform_ok (h : w.perform op = (w', none)) (hw : w.written ≤ w.limit) :
    w'.ops = w.ops ++ [op] ∧ w'.limit = w.limit ∧ w'.written ≤ w'.limit := by
  cases op with
  | write buf =>
    obtain ⟨rfl, hle⟩ := writeAll_ok h hw
    exact ⟨rfl, rfl, hle⟩
  | flush =>
    cases h
    exact ⟨rfl, rfl, by rwa [flush_written, flush_limit]⟩

theorem perform_err (h : w.perform op = (w', some err)) :
    ∃ cut, w'.writes.flatten = w.writes.flatten ++ cut ∧ cut <+: op.bytes := by
  cases op with
  | write buf => exact writeAll_err h
  | flush => cases h

theorem performEach_ok (h : w.performEach ops = (w', none)) (hw : w.written ≤ w.limit) :
    w'.ops = w.ops ++ ops ∧ w'.limit = w.limit ∧ w'.written ≤ w'.limit := by
  induction ops generalizing w with
  | nil =>
    cases h
    exact ⟨by simp, rfl, hw⟩
  | cons op rest ih =>
    obtain ⟨w₁, h₁, hrest⟩ := tryEach_cons_ok h
    obtain ⟨hops, hlimit, hle⟩ := perform_ok h₁ hw
    obtain ⟨hops', hlimit', hle'⟩ := ih hrest hle
    exact ⟨by simp [hops', hops], hlimit'.trans hlimit, hle'⟩

theorem performEach_err (h : w.performEach ops = (w', some err)) (hw : w.written ≤ w.limit) :
    ∃ cut, w'.writes.flatten = w.writes.flatten ++ cut ∧
      cut <+: (ops.map WriteOp.bytes).flatten := by
  induction ops generalizing w with
  | nil => cases h
  | cons op rest ih =>
    rcases tryEach_cons_err h with h₁ | ⟨w₁, h₁, hrest⟩
    · obtain ⟨cut, hflat, hprefix⟩ := perform_err h₁
      exact ⟨cut, hflat, hprefix.trans (List.prefix_append _ _)⟩
    · obtain ⟨hops, _, hle⟩ := perform_ok h₁ hw
      obtain ⟨cut, hflat, hprefix⟩ := ih hrest hle
      refine ⟨op.bytes ++ cut, ?_, by simpa using hprefix⟩
      rw [hflat]
      simp [writes, hops]

/-- What fits within the limit is written. -/
theorem performEach_of_le (h : w.written + (ops.map WriteOp.bytes).flatten.length ≤ w.limit) :
    ∃ w', w.performEach ops = (w', none) := by
  induction ops generalizing w with
  | nil => exact ⟨w, rfl⟩
  | cons op rest ih =>
    simp only [List.map_cons, List.flatten_cons, List.length_append] at h
    cases op with
    | write buf =>
      simp only [WriteOp.bytes] at h
      have hrest : (w.push buf).written + (rest.map WriteOp.bytes).flatten.length ≤
          (w.push buf).limit := by
        rw [push_written, push_limit]
        omega
      obtain ⟨w', hw'⟩ := ih hrest
      have hfit : w.perform (.write buf) = (w.push buf, none) := writeAll_of_le (by omega)
      exact ⟨w', by simpa [performEach, tryEach, hfit] using hw'⟩
    | flush =>
      have hrest : w.flush.written + (rest.map WriteOp.bytes).flatten.length ≤ w.flush.limit := by
        rw [flush_written, flush_limit]
        omega
      obtain ⟨w', hw'⟩ := ih hrest
      exact ⟨w', by simpa [performEach, tryEach, perform] using hw'⟩

/-- What does not fit within the limit is an error. -/
theorem performEach_of_lt (hw : w.written ≤ w.limit)
    (h : w.limit < w.written + (ops.map WriteOp.bytes).flatten.length) :
    ∃ w', w.performEach ops = (w', some limitReachedMessage) := by
  induction ops generalizing w with
  | nil =>
    simp only [List.map_nil, List.flatten_nil, List.length_nil] at h
    omega
  | cons op rest ih =>
    simp only [List.map_cons, List.flatten_cons, List.length_append] at h
    cases op with
    | write buf =>
      simp only [WriteOp.bytes] at h
      rcases writeAll_cases buf hw with ⟨hfit, hpush⟩ | ⟨_, w', hw'⟩
      · have hle : (w.push buf).written ≤ (w.push buf).limit := by
          rw [push_written, push_limit]
          exact hfit
        have hlt : (w.push buf).limit <
            (w.push buf).written + (rest.map WriteOp.bytes).flatten.length := by
          rw [push_written, push_limit]
          omega
        obtain ⟨w', hw'⟩ := ih hle hlt
        exact ⟨w', by simpa [performEach, tryEach, perform, hpush] using hw'⟩
      · exact ⟨w', by simp [performEach, tryEach, perform, hw']⟩
    | flush =>
      have hle : w.flush.written ≤ w.flush.limit := by
        rw [flush_written, flush_limit]
        exact hw
      have hlt : w.flush.limit < w.flush.written + (rest.map WriteOp.bytes).flatten.length := by
        rw [flush_written, flush_limit]
        simpa [WriteOp.bytes] using h
      obtain ⟨w', hw'⟩ := ih hle hlt
      exact ⟨w', by simpa [performEach, tryEach, perform] using hw'⟩

/-- What is passed on is the beginning that fits. -/
theorem performEach_flatten (ops : List WriteOp) (hw : w.written ≤ w.limit) :
    (w.performEach ops).1.writes.flatten =
      (w.writes.flatten ++ (ops.map WriteOp.bytes).flatten).take w.limit := by
  induction ops generalizing w with
  | nil => simpa [performEach, tryEach] using (List.take_of_length_le hw).symm
  | cons op rest ih =>
    cases op with
    | flush =>
      have hle : w.flush.written ≤ w.flush.limit := by
        rw [flush_written, flush_limit]
        exact hw
      have hrest := ih hle
      simpa [performEach, tryEach, perform, WriteOp.bytes] using hrest
    | write buf =>
      by_cases hfit : buf.length ≤ w.limit - w.written
      · have hle : (w.push buf).written ≤ (w.push buf).limit := by
          rw [push_written, push_limit]
          omega
        have hrest := ih hle
        simpa [performEach, tryEach, perform, writeAll_of_le hfit, WriteOp.bytes] using hrest
      · have hcut : (w.performEach (.write buf :: rest)).1.writes.flatten =
            w.writes.flatten ++ buf.take (w.limit - w.written) := by
          rw [performEach, tryEach]
          unfold perform writeAll
          simp only [if_neg hfit]
          by_cases hzero : w.limit - w.written = 0
          · simp [hzero]
          · simp [hzero]
        have hnone : w.limit - w.writes.flatten.length - buf.length = 0 := by
          simp only [written] at hfit
          omega
        rw [hcut, List.map_cons, List.flatten_cons, WriteOp.bytes, List.take_append,
          List.take_append, hnone, List.take_zero, List.append_nil, List.take_of_length_le hw]
        rfl

variable {a : Append}

/-- A member without an error of its own is appended if it fits. -/
theorem append_cases (hw : w.written ≤ w.limit) (ha : a.err = none) :
    (w.written + a.writes.flatten.length ≤ w.limit ∧
      ∃ w', w.append a = (w', none) ∧ w'.limit = w.limit ∧
        w'.written = w.written + a.writes.flatten.length) ∨
    (w.limit < w.written + a.writes.flatten.length ∧
      ∃ w', w.append a = (w', some limitReachedMessage)) := by
  by_cases hfit : w.written + a.writes.flatten.length ≤ w.limit
  · obtain ⟨w', hw'⟩ := performEach_of_le hfit
    obtain ⟨hops, hlimit, -⟩ := performEach_ok hw' hw
    refine Or.inl ⟨hfit, w', by simp only [append, hw', ha], hlimit, ?_⟩
    simp only [written, writes, hops, List.map_append, List.flatten_append, List.length_append]
    rfl
  · obtain ⟨w', hw'⟩ := performEach_of_lt hw (Nat.not_le.mp hfit)
    exact Or.inr ⟨Nat.not_le.mp hfit, w', by simp only [append, hw']⟩

theorem append_ops (h : w.append a = (w', none)) (hw : w.written ≤ w.limit) :
    a.err = none ∧ w'.ops = w.ops ++ a.ops ∧ w'.limit = w.limit ∧ w'.written ≤ w'.limit := by
  unfold append at h
  split at h
  · next w₁ h₁ =>
    obtain ⟨hops, hlimit, hle⟩ := performEach_ok h₁ hw
    obtain ⟨rfl, herr⟩ := Prod.mk.inj h
    exact ⟨herr, hops, hlimit, hle⟩
  · cases h

theorem append_ok (h : w.append a = (w', none)) (hw : w.written ≤ w.limit) :
    a.err = none ∧ w'.writes.flatten = w.writes.flatten ++ a.writes.flatten ∧
      w'.limit = w.limit ∧ w'.written ≤ w'.limit := by
  obtain ⟨herr, hops, hlimit, hle⟩ := append_ops h hw
  refine ⟨herr, ?_, hlimit, hle⟩
  simp only [writes, hops, List.map_append, List.flatten_append, Append.writes]

/-- A failed append has written a beginning of what the member's writes are. -/
theorem append_err (h : w.append a = (w', some err)) (hw : w.written ≤ w.limit) :
    ∃ cut, w'.writes.flatten = w.writes.flatten ++ cut ∧ cut <+: a.writes.flatten := by
  unfold append at h
  split at h
  · next w₁ h₁ =>
    obtain ⟨hops, _⟩ := performEach_ok h₁ hw
    obtain ⟨rfl, _⟩ := Prod.mk.inj h
    refine ⟨a.writes.flatten, ?_, List.prefix_rfl⟩
    simp only [writes, hops, List.map_append, List.flatten_append, Append.writes]
  · next w₁ err₁ h₁ =>
    cases h
    exact performEach_err h₁ hw

end LimitedWriter

/-- The buffer in front of the stream. What it has not flushed is lost when it is dropped. -/
structure BufWriter where
  flushed : Bytes
  buffer : Bytes
  deriving DecidableEq, Repr

namespace BufWriter

def new : BufWriter := ⟨[], []⟩

def flush (b : BufWriter) : BufWriter := ⟨b.flushed ++ b.buffer, []⟩

/-- A write that does not fit flushes the buffer; one that is as large goes past it. -/
def write (b : BufWriter) (chunk : Bytes) : BufWriter :=
  let b := if streamBuffer < b.buffer.length + chunk.length then b.flush else b
  if streamBuffer ≤ chunk.length then ⟨b.flushed ++ chunk, b.buffer⟩
  else ⟨b.flushed, b.buffer ++ chunk⟩

def perform (b : BufWriter) : WriteOp → BufWriter
  | .write buf => b.write buf
  | .flush => b.flush

/-- The bytes that are on the stream after these operations. -/
def delivered (ops : List WriteOp) : Bytes := (ops.foldl perform new).flushed

/-- The flushed bytes and the buffer are what has been written. -/
theorem write_all (b : BufWriter) (chunk : Bytes) :
    (b.write chunk).flushed ++ (b.write chunk).buffer = b.flushed ++ b.buffer ++ chunk := by
  unfold write
  by_cases hfull : streamBuffer < b.buffer.length + chunk.length
  · simp only [hfull, if_true, flush]
    split <;> simp
  · have hsmall : ¬ streamBuffer ≤ chunk.length ∨ b.buffer = [] := by
      by_cases hchunk : streamBuffer ≤ chunk.length
      · right
        apply List.eq_nil_of_length_eq_zero
        omega
      · exact Or.inl hchunk
    simp only [hfull, if_false]
    rcases hsmall with hsmall | hempty
    · simp [hsmall]
    · split <;> simp [hempty]

theorem perform_all (b : BufWriter) (op : WriteOp) :
    (b.perform op).flushed ++ (b.perform op).buffer = b.flushed ++ b.buffer ++ op.bytes := by
  cases op with
  | write buf => exact write_all b buf
  | flush => simp [perform, flush, WriteOp.bytes]

theorem foldl_perform_all (ops : List WriteOp) (b : BufWriter) :
    (ops.foldl perform b).flushed ++ (ops.foldl perform b).buffer =
      b.flushed ++ b.buffer ++ (ops.map WriteOp.bytes).flatten := by
  induction ops generalizing b with
  | nil => simp
  | cons op rest ih =>
    rw [List.foldl_cons, ih, perform_all]
    simp

theorem delivered_isPrefix (ops : List WriteOp) :
    delivered ops <+: (ops.map WriteOp.bytes).flatten := by
  have hall := foldl_perform_all ops new
  simp only [new, List.nil_append] at hall
  rw [← hall]
  exact List.prefix_append _ _

/-- A small write leaves itself in the buffer. -/
theorem write_flushed (b : BufWriter) {chunk : Bytes} (h : chunk.length < streamBuffer) :
    (b.write chunk).flushed <+: b.flushed ++ b.buffer := by
  have hsmall : ¬ streamBuffer ≤ chunk.length := by omega
  unfold write
  simp only [if_neg hsmall]
  split
  · exact List.prefix_rfl
  · exact List.prefix_append _ _

/-- The last write is not among what is delivered, if it is small. -/
theorem delivered_of_small (ops : List WriteOp) {chunk : Bytes}
    (h : chunk.length < streamBuffer) :
    delivered (ops ++ [.write chunk]) <+: (ops.map WriteOp.bytes).flatten := by
  have hall := foldl_perform_all ops new
  simp only [new, List.nil_append] at hall
  rw [delivered, List.foldl_append, ← hall]
  exact write_flushed _ h

theorem write_of_lt {b : BufWriter} {chunk : Bytes}
    (h : b.buffer.length + chunk.length < streamBuffer) :
    b.write chunk = ⟨b.flushed, b.buffer ++ chunk⟩ := by
  have hroom : ¬ streamBuffer < b.buffer.length + chunk.length := by omega
  have hsmall : ¬ streamBuffer ≤ chunk.length := by omega
  simp only [write, if_neg hroom, if_neg hsmall]

theorem foldl_write_of_lt {bufs : List Bytes} {b : BufWriter}
    (h : b.buffer.length + bufs.flatten.length < streamBuffer) :
    ((bufs.map WriteOp.write).foldl perform b).flushed = b.flushed := by
  induction bufs generalizing b with
  | nil => rfl
  | cons chunk rest ih =>
    simp only [List.flatten_cons, List.length_append] at h
    rw [List.map_cons, List.foldl_cons, perform, write_of_lt (by omega),
      ih (by simp only [List.length_append]; omega)]

/-- What was written before a flush is delivered, and of what comes then nothing, as long as the
buffer can hold it. -/
theorem delivered_of_flush (ops : List WriteOp) {bufs : List Bytes}
    (h : bufs.flatten.length < streamBuffer) :
    delivered (ops ++ .flush :: bufs.map .write) = (ops.map WriteOp.bytes).flatten := by
  have hall := foldl_perform_all ops new
  simp only [new, List.nil_append] at hall
  rw [delivered, List.foldl_append, List.foldl_cons, perform, foldl_write_of_lt, ← hall]
  · rfl
  · simpa [flush] using h

end BufWriter

end Hush.FileCopy
