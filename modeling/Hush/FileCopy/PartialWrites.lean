import Hush.FileCopy.Writer
import Mathlib.Algebra.Ring.Nat
import Mathlib.Data.Prod.Lex

/-! The writers under the tar builder at the level of single polls: the inner writer may accept any
part of a buffer, none of it yet, or fail. -/
namespace Hush.FileCopy.PartialWrites
open Hush.Lib

inductive Poll (α : Type)
  | pending
  | ready (a : α)

/-- A writer by its `poll_write`, which accepts no more than it is given. -/
structure AsyncWrite (σ : Type) where
  pollWrite : σ → Bytes → σ × Poll (Except String Nat)
  accepted_le : ∀ {s buf s' n}, pollWrite s buf = (s', .ready (.ok n)) → n ≤ buf.length

/-- A poll that has accepted nothing. -/
def AsyncWrite.Idle {σ : Type} (w : AsyncWrite σ) (s' s : σ) : Prop :=
  ∃ buf, buf ≠ [] ∧
    (w.pollWrite s buf = (s', .pending) ∨ w.pollWrite s buf = (s', .ready (.ok 0)))

/-- The callback is known by what has been reported to it. -/
structure ProgressWriter (σ : Type) where
  inner : σ
  bytesTransferred : List Nat

def ProgressWriter.pollWrite {σ : Type} (w : AsyncWrite σ) (p : ProgressWriter σ) (buf : Bytes) :
    ProgressWriter σ × Poll (Except String Nat) :=
  match w.pollWrite p.inner buf with
  | (inner, .pending) => ({ p with inner }, .pending)
  | (inner, .ready (.error e)) => ({ p with inner }, .ready (.error e))
  | (inner, .ready (.ok written)) =>
    if 0 < written then (⟨inner, p.bytesTransferred ++ [written]⟩, .ready (.ok written))
    else ({ p with inner }, .ready (.ok written))

theorem ProgressWriter.accepted_le {σ : Type} (w : AsyncWrite σ) {p p' : ProgressWriter σ}
    {buf : Bytes} {n : Nat} (h : p.pollWrite w buf = (p', .ready (.ok n))) : n ≤ buf.length := by
  unfold ProgressWriter.pollWrite at h
  split at h
  · cases h
  · cases h
  · next hpoll =>
    split at h <;> cases h <;> exact w.accepted_le hpoll

def AsyncWrite.progress {σ : Type} (w : AsyncWrite σ) : AsyncWrite (ProgressWriter σ) :=
  ⟨ProgressWriter.pollWrite w, ProgressWriter.accepted_le w⟩

structure LimitedWriter (σ : Type) where
  inner : σ
  written : Nat
  limit : Nat

def LimitedWriter.pollWrite {σ : Type} (w : AsyncWrite σ) (l : LimitedWriter σ) (buf : Bytes) :
    LimitedWriter σ × Poll (Except String Nat) :=
  if l.limit ≤ l.written then (l, .ready (.error limitReachedMessage))
  else
    let available := min (l.limit - l.written) buf.length
    match w.pollWrite l.inner (buf.take available) with
    | (inner, .pending) => ({ l with inner }, .pending)
    | (inner, .ready (.error e)) => ({ l with inner }, .ready (.error e))
    | (inner, .ready (.ok written)) =>
      ({ l with inner, written := l.written + written }, .ready (.ok written))

/-- The inner writer with what it has accepted, and the error it has failed with. -/
structure Observed (σ : Type) where
  inner : σ
  accepted : Bytes
  failure : Option String

def Observed.pollWrite {σ : Type} (w : AsyncWrite σ) (o : Observed σ) (buf : Bytes) :
    Observed σ × Poll (Except String Nat) :=
  match w.pollWrite o.inner buf with
  | (inner, .pending) => ({ o with inner }, .pending)
  | (inner, .ready (.error e)) => ({ o with inner, failure := some e }, .ready (.error e))
  | (inner, .ready (.ok n)) =>
    ({ o with inner, accepted := o.accepted ++ buf.take n }, .ready (.ok n))

theorem Observed.accepted_le {σ : Type} (w : AsyncWrite σ) {o o' : Observed σ} {buf : Bytes}
    {n : Nat} (h : o.pollWrite w buf = (o', .ready (.ok n))) : n ≤ buf.length := by
  unfold Observed.pollWrite at h
  split at h <;> cases h
  next hpoll => exact w.accepted_le hpoll

def AsyncWrite.observed {σ : Type} (w : AsyncWrite σ) : AsyncWrite (Observed σ) :=
  ⟨Observed.pollWrite w, Observed.accepted_le w⟩

section Stack
variable {σ : Type} (w : AsyncWrite σ)

/-- The limit over the progress over the inner writer. -/
abbrev Stack (σ : Type) := LimitedWriter (ProgressWriter (Observed σ))

namespace Stack
variable (l : Stack σ)

def pollWrite (buf : Bytes) : Stack σ × Poll (Except String Nat) :=
  LimitedWriter.pollWrite w.observed.progress l buf

def observed : Observed σ := l.inner.inner

def accepted : Bytes := l.observed.accepted

def reported : Nat := l.inner.bytesTransferred.sum

def failure : Option String := l.observed.failure

/-- The same counts with the inner writer in another state. -/
def withInner (s : σ) : Stack σ :=
  { l with inner := { l.inner with inner := { l.inner.inner with inner := s } } }

end Stack

variable {w}

/-- What a poll of the stack can do. -/
inductive Polled (w : AsyncWrite σ) (l : Stack σ) (buf : Bytes) :
    Stack σ → Poll (Except String Nat) → Prop
  | full (hfull : l.limit ≤ l.written) :
    Polled w l buf l (.ready (.error limitReachedMessage))
  | pending {s : σ} (hroom : l.written < l.limit)
      (hidle : buf ≠ [] → w.Idle s l.observed.inner) :
    Polled w l buf (l.withInner s) .pending
  | failed {l' : Stack σ} {e : String} (haccepted : l'.accepted = l.accepted)
      (hreported : l'.reported = l.reported) (hwritten : l'.written = l.written)
      (hlimit : l'.limit = l.limit) (hfailure : l'.failure = some e) :
    Polled w l buf l' (.ready (.error e))
  | accepted {l' : Stack σ} {n : Nat} (hle : n ≤ buf.length) (hroom : l.written + n ≤ l.limit)
      (haccepted : l'.accepted = l.accepted ++ buf.take n)
      (hreported : l'.reported = l.reported + n) (hwritten : l'.written = l.written + n)
      (hlimit : l'.limit = l.limit) (hfailure : l'.failure = l.failure)
      (hidle : n = 0 → buf ≠ [] → w.Idle l'.observed.inner l.observed.inner) :
    Polled w l buf l' (.ready (.ok n))

theorem take_available_ne_nil {l : Stack σ} (buf : Bytes) (hroom : l.written < l.limit)
    (hbuf : buf ≠ []) : buf.take (min (l.limit - l.written) buf.length) ≠ [] := by
  have hpos : 0 < buf.length := List.length_pos_iff.mpr hbuf
  rw [← List.length_pos_iff, List.length_take]
  omega

theorem polled (l : Stack σ) (buf : Bytes) :
    Polled w l buf (Stack.pollWrite w l buf).1 (Stack.pollWrite w l buf).2 := by
  by_cases hfull : l.limit ≤ l.written
  · rw [Stack.pollWrite, LimitedWriter.pollWrite, if_pos hfull]
    exact .full hfull
  have hroom : l.written < l.limit := Nat.not_le.mp hfull
  have hne := take_available_ne_nil buf hroom
  rw [Stack.pollWrite, LimitedWriter.pollWrite, if_neg hfull]
  dsimp only [AsyncWrite.progress, ProgressWriter.pollWrite, AsyncWrite.observed,
    Observed.pollWrite]
  rcases hpoll : w.pollWrite l.inner.inner.inner
    (buf.take (min (l.limit - l.written) buf.length)) with ⟨s, poll⟩
  cases poll with
  | pending => exact .pending hroom fun hbuf => ⟨_, hne hbuf, Or.inl hpoll⟩
  | ready result =>
    cases result with
    | error e => exact .failed rfl rfl rfl rfl rfl
    | ok n =>
      have hn := w.accepted_le hpoll
      rw [List.length_take] at hn
      have htake : (buf.take (min (l.limit - l.written) buf.length)).take n = buf.take n := by
        rw [List.take_take]
        congr 1
        omega
      by_cases hpos : 0 < n
      · simp only [if_pos hpos, htake]
        refine .accepted (by omega) (by omega) rfl ?_ rfl rfl rfl (fun h => by omega)
        simp [Stack.reported]
      · obtain rfl : n = 0 := by omega
        refine .accepted (by omega) (by omega) (by rw [← htake]; rfl) rfl rfl rfl rfl ?_
        exact fun _ hbuf => ⟨_, hne hbuf, Or.inr hpoll⟩

end Stack

/-! A caller that writes its buffers one after the other, and polls as long as there is a rest. -/

structure Caller (σ : Type) where
  writer : Stack σ
  rest : Bytes
  bufs : List Bytes

inductive Ended
  | all
  | error (e : String)
  | writeZero
  deriving DecidableEq, Repr

structure Result (σ : Type) where
  writer : Stack σ
  ended : Ended

section Caller
variable {σ : Type} (w : AsyncWrite σ) (zeroFails : Bool)

def Caller.start (s : σ) (limit : Nat) (bufs : List Bytes) : Caller σ :=
  ⟨⟨⟨⟨s, [], none⟩, []⟩, 0, limit⟩, [], bufs⟩

/-- A poll that accepts nothing is an error for `write_all`; another caller may try again. -/
def Caller.step (c : Caller σ) : Outcome (Caller σ) (Result σ) :=
  match c.rest, c.bufs with
  | [], [] => .done ⟨c.writer, .all⟩
  | [], buf :: bufs => .next { c with rest := buf, bufs }
  | b :: rest, _ =>
    match Stack.pollWrite w c.writer (b :: rest) with
    | (writer, .pending) => .next { c with writer }
    | (writer, .ready (.error e)) => .done ⟨writer, .error e⟩
    | (writer, .ready (.ok n)) =>
      if n = 0 ∧ zeroFails then .done ⟨writer, .writeZero⟩
      else .next { c with writer, rest := (b :: rest).drop n }

/-- The bytes accepted are a prefix of the data within the limit, and both counters know them. -/
def Stack.Exact (l : Stack σ) (limit : Nat) (data : Bytes) : Prop :=
  l.accepted <+: data ∧ l.accepted.length ≤ limit ∧ l.written = l.accepted.length ∧
    l.reported = l.accepted.length

/-- What is still to be written follows what has been accepted. -/
structure Caller.Sound (limit : Nat) (data : Bytes) (c : Caller σ) : Prop where
  data_eq : c.writer.accepted ++ (c.rest ++ c.bufs.flatten) = data
  written_eq : c.writer.written = c.writer.accepted.length
  reported_eq : c.writer.reported = c.writer.accepted.length
  limit_eq : c.writer.limit = limit
  written_le : c.writer.written ≤ limit
  not_failed : c.writer.failure = none

variable {w zeroFails} {limit : Nat} {data : Bytes} {c c' : Caller σ} {r : Result σ}

theorem Caller.Sound.exact (h : c.Sound limit data) : c.writer.Exact limit data :=
  ⟨⟨_, h.data_eq⟩, h.written_eq ▸ h.written_le, h.written_eq, h.reported_eq⟩

theorem Caller.sound_start (s : σ) (limit : Nat) (bufs : List Bytes) :
    (Caller.start s limit bufs).Sound limit bufs.flatten :=
  ⟨rfl, rfl, rfl, rfl, Nat.zero_le _, rfl⟩

/-- A step that goes on takes the next buffer, or it is a poll with what is left of this one. -/
theorem Caller.step_next (hstep : c.step w zeroFails = .next c') :
    (∃ buf bufs, c.rest = [] ∧ c.bufs = buf :: bufs ∧ c' = ⟨c.writer, buf, bufs⟩) ∨
    c.rest ≠ [] ∧
      ((∃ writer, Polled w c.writer c.rest writer .pending ∧ c' = ⟨writer, c.rest, c.bufs⟩) ∨
      ∃ writer n, Polled w c.writer c.rest writer (.ready (.ok n)) ∧
        c' = ⟨writer, c.rest.drop n, c.bufs⟩) := by
  unfold Caller.step at hstep
  split at hstep
  · cases hstep
  · next buf bufs hrest hbufs =>
    cases hstep
    exact Or.inl ⟨buf, bufs, hrest, hbufs, rfl⟩
  · next b rest hrest =>
    have hpolled := polled (w := w) c.writer (b :: rest)
    rw [hrest]
    refine Or.inr ⟨List.cons_ne_nil _ _, ?_⟩
    split at hstep
    · next writer hpoll =>
      cases hstep
      rw [hpoll] at hpolled
      exact Or.inl ⟨writer, hpolled, by rw [hrest]⟩
    · cases hstep
    · next writer n hpoll =>
      split at hstep
      · cases hstep
      · cases hstep
        rw [hpoll] at hpolled
        exact Or.inr ⟨writer, n, hpolled, rfl⟩

theorem Caller.Sound.step (h : c.Sound limit data) (hstep : c.step w zeroFails = .next c') :
    c'.Sound limit data := by
  rcases Caller.step_next hstep with
    ⟨buf, bufs, hrest, hbufs, rfl⟩ | ⟨-, ⟨writer, hpolled, rfl⟩ | ⟨writer, n, hpolled, rfl⟩⟩
  · refine ⟨?_, h.written_eq, h.reported_eq, h.limit_eq, h.written_le, h.not_failed⟩
    rw [← h.data_eq, hrest, hbufs]
    rfl
  · cases hpolled with
    | pending =>
      exact ⟨h.data_eq, h.written_eq, h.reported_eq, h.limit_eq, h.written_le, h.not_failed⟩
  · cases hpolled with
    | accepted hle hroom haccepted hreported hwritten hlimit hfailure =>
      have hlen := congrArg List.length haccepted
      rw [List.length_append, List.length_take, Nat.min_eq_left hle] at hlen
      refine ⟨?_, ?_, ?_, hlimit.trans h.limit_eq, ?_, hfailure.trans h.not_failed⟩
      · rw [haccepted, ← h.data_eq, List.append_assoc, ← List.append_assoc (List.take _ _),
          List.take_append_drop]
      · rw [hwritten, h.written_eq, hlen]
      · rw [hreported, h.reported_eq, hlen]
      · rw [hwritten, ← h.limit_eq]
        exact hroom

theorem Caller.Sound.reaches (h : c.Sound limit data)
    (hreach : Loop.Reaches (Caller.step w zeroFails) c c') : c'.Sound limit data :=
  hreach.invariant h fun hs hstep => hs.step hstep

/-- How a caller can end: with all of its data accepted, by an error of the inner writer, or by
the limit, where the data goes on. -/
inductive Finished (zeroFails : Bool) (limit : Nat) (data : Bytes) (r : Result σ) : Prop
  | all (hended : r.ended = .all) (hfailure : r.writer.failure = none)
      (haccepted : r.writer.accepted = data) (hle : data.length ≤ limit)
  | failed {e : String} (hended : r.ended = .error e) (hfailure : r.writer.failure = some e)
  | writeZero (hended : r.ended = .writeZero) (hfailure : r.writer.failure = none)
      (hzero : zeroFails = true)
  | limited (hended : r.ended = .error limitReachedMessage) (hfailure : r.writer.failure = none)
      (haccepted : r.writer.accepted = data.take limit) (hlt : limit < data.length)

theorem Caller.Sound.done (h : c.Sound limit data) (hstep : c.step w zeroFails = .done r) :
    r.writer.Exact limit data ∧ Finished zeroFails limit data r := by
  have hexact := h.exact
  unfold Caller.step at hstep
  split at hstep
  · next hrest hbufs =>
    cases hstep
    have hdata : c.writer.accepted = data := by
      rw [← h.data_eq, hrest, hbufs]
      exact (List.append_nil _).symm
    refine ⟨hexact, .all rfl h.not_failed hdata ?_⟩
    rw [← hdata]
    exact hexact.2.1
  · cases hstep
  · next b rest hrest =>
    have hpolled := polled (w := w) c.writer (b :: rest)
    rcases hpoll : Stack.pollWrite w c.writer (b :: rest) with ⟨writer, poll⟩
    rw [hpoll] at hstep hpolled
    cases hpolled with
    | full hfull =>
      cases hstep
      -- The caller polls with a rest, so the data is longer than what has been accepted.
      have hlen : c.writer.accepted.length = limit := by
        have := h.written_eq
        have := h.written_le
        rw [h.limit_eq] at hfull
        omega
      refine ⟨hexact, .limited rfl h.not_failed ?_ ?_⟩
      · rw [← h.data_eq, ← hlen]
        exact List.take_left.symm
      · rw [← h.data_eq, ← hlen, hrest, List.length_append, List.length_append, List.length_cons]
        omega
    | pending => cases hstep
    | failed haccepted hreported hwritten hlimit hfailure =>
      cases hstep
      refine ⟨?_, .failed rfl hfailure⟩
      rw [Stack.Exact, haccepted, hwritten, hreported]
      exact hexact
    | accepted hle hroom haccepted hreported hwritten hlimit hfailure =>
      dsimp only at hstep
      split at hstep
      · next hzero =>
        cases hstep
        obtain ⟨rfl, hzero⟩ := hzero
        refine ⟨?_, .writeZero rfl (hfailure.trans h.not_failed) hzero⟩
        rw [Stack.Exact, haccepted, hwritten, hreported, List.take_zero, List.append_nil]
        exact hexact
      · cases hstep

theorem Caller.Sound.returns (h : c.Sound limit data)
    (hr : Loop.Returns (Caller.step w zeroFails) c r) :
    r.writer.Exact limit data ∧ Finished zeroFails limit data r := by
  obtain ⟨c', hreach, hdone⟩ := hr.last
  exact (h.reaches hreach).done hdone

/-- The bytes and the buffers that are left, and one more for each buffer. -/
def Caller.left (c : Caller σ) : Nat := c.rest.length + (c.bufs.map fun buf => buf.length + 1).sum

/-- A step leaves less to do, or it is a poll that has accepted nothing. -/
theorem Caller.step_decreases (hstep : c.step w zeroFails = .next c') :
    Prod.Lex (· < ·) w.Idle (c'.left, c'.writer.observed.inner)
      (c.left, c.writer.observed.inner) := by
  rcases Caller.step_next hstep with
    ⟨buf, bufs, hrest, hbufs, rfl⟩ | ⟨hrest, ⟨writer, hpolled, rfl⟩ | ⟨writer, n, hpolled, rfl⟩⟩
  · refine .left _ _ ?_
    simp only [Caller.left, hrest, hbufs, List.length_nil, List.map_cons, List.sum_cons]
    omega
  · cases hpolled with
    | pending _ hidle => exact .right _ (hidle hrest)
  · cases hpolled with
    | accepted hle _ _ _ _ _ _ hidle =>
      by_cases hn : n = 0
      · subst hn
        exact .right _ (hidle rfl hrest)
      · refine .left _ _ ?_
        have hpos := List.length_pos_iff.mpr hrest
        simp only [Caller.left, List.length_drop]
        omega

/-- The caller comes to an end, unless the inner writer keeps it waiting for ever. -/
theorem Caller.exists_returns (hidle : WellFounded w.Idle) (c : Caller σ) :
    ∃ r, Loop.Returns (Caller.step w zeroFails) c r :=
  Loop.exists_returns_of_wellFounded
    (InvImage.wf (fun c : Caller σ => (c.left, c.writer.observed.inner))
      (WellFounded.prod_lex Nat.lt_wfRel.wf hidle))
    (fun hstep => Caller.step_decreases hstep) c

/-- The inner writer has reported an error, or taken nothing of a buffer where that is one. -/
def Result.InnerFailed (r : Result σ) : Prop := r.writer.failure ≠ none ∨ r.ended = .writeZero

/-- Without a failure of the inner writer the polls come to what `write_all` does at once. -/
theorem Caller.refines_performEach {s : σ} {bufs : List Bytes}
    (hr : Loop.Returns (Caller.step w zeroFails) (Caller.start s limit bufs) r)
    (hinner : ¬ r.InnerFailed) :
    let (w', err) := (FileCopy.LimitedWriter.new limit).performEach (bufs.map .write)
    r.writer.accepted = w'.writes.flatten ∧ r.ended = err.elim .all .error := by
  have hnew : (FileCopy.LimitedWriter.new limit).written = 0 := rfl
  have hroom : (FileCopy.LimitedWriter.new limit).written ≤ limit := Nat.zero_le _
  have hflat := FileCopy.LimitedWriter.performEach_flatten (bufs.map .write) hroom
  rw [WriteOp.map_bytes_write] at hflat
  cases ((Caller.sound_start s limit bufs).returns hr).2 with
  | all hended _ haccepted hle =>
    have hfits : (FileCopy.LimitedWriter.new limit).written +
        ((bufs.map WriteOp.write).map WriteOp.bytes).flatten.length ≤ limit := by
      rw [WriteOp.map_bytes_write]
      omega
    obtain ⟨w', hw'⟩ := FileCopy.LimitedWriter.performEach_of_le hfits
    rw [hw'] at hflat
    rw [hw']
    exact ⟨by rw [haccepted, hflat]; exact (List.take_of_length_le hle).symm, hended⟩
  | failed _ hfailure => exact absurd (Or.inl (by simp [hfailure])) hinner
  | writeZero hended => exact absurd (Or.inr hended) hinner
  | limited hended _ haccepted hlt =>
    have hover : limit < (FileCopy.LimitedWriter.new limit).written +
        ((bufs.map WriteOp.write).map WriteOp.bytes).flatten.length := by
      rw [WriteOp.map_bytes_write]
      omega
    obtain ⟨w', hw'⟩ := FileCopy.LimitedWriter.performEach_of_lt hroom hover
    rw [hw'] at hflat
    rw [hw']
    exact ⟨haccepted.trans hflat.symm, hended⟩

/-- The limit is exact however the inner writer cuts the data. -/
theorem limit_exact_under_partial_writes (w : AsyncWrite σ) (zeroFails : Bool) (s : σ)
    (limit : Nat) (bufs : List Bytes) :
    let start := Caller.start s limit bufs
    let data := bufs.flatten
    (∀ c, Loop.Reaches (Caller.step w zeroFails) start c → c.writer.Exact limit data) ∧
    (∀ r, Loop.Returns (Caller.step w zeroFails) start r →
      r.writer.Exact limit data ∧
      (data.length ≤ limit → ¬ r.InnerFailed → r.ended = .all ∧ r.writer.accepted = data) ∧
      (limit < data.length → ¬ r.InnerFailed →
        r.ended = .error limitReachedMessage ∧ r.writer.accepted = data.take limit) ∧
      (∀ e, r.writer.failure = some e → r.ended = .error e) ∧
      (r.ended = .writeZero → zeroFails = true)) ∧
    (WellFounded w.Idle → ∃ r, Loop.Returns (Caller.step w zeroFails) start r) := by
  intro start data
  have hstart := Caller.sound_start s limit bufs
  refine ⟨fun c hc => (hstart.reaches hc).exact, fun r hr => ?_, fun hidle =>
    Caller.exists_returns hidle start⟩
  obtain ⟨hexact, hfinished⟩ := hstart.returns hr
  refine ⟨hexact, ?_⟩
  cases hfinished with
  | all hended hfailure haccepted hle =>
    refine ⟨fun _ _ => ⟨hended, haccepted⟩, fun hlt => absurd hle (Nat.not_le.mpr hlt), ?_, ?_⟩
    · simp [hfailure]
    · simp [hended]
  | failed hended hfailure =>
    have hinner : r.InnerFailed := Or.inl (by simp [hfailure])
    refine ⟨fun _ h => absurd hinner h, fun _ h => absurd hinner h, ?_, ?_⟩
    · intro e he
      rw [hended, ← Option.some.inj (hfailure.symm.trans he)]
    · simp [hended]
  | writeZero hended hfailure hzero =>
    have hinner : r.InnerFailed := Or.inr hended
    refine ⟨fun _ h => absurd hinner h, fun _ h => absurd hinner h, ?_, fun _ => hzero⟩
    simp [hfailure]
  | limited hended hfailure haccepted hlt =>
    refine ⟨fun hle => absurd hle (Nat.not_le.mpr hlt), fun _ _ => ⟨hended, haccepted⟩, ?_, ?_⟩
    · simp [hfailure]
    · simp [hended]

end Caller

end Hush.FileCopy.PartialWrites
