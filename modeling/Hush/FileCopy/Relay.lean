import Hush.FileCopy.Limits
import Hush.Lib.Loop

/-! A copy between two remotes: `relay_archive` forwards the archive of one to the other. -/
namespace Hush.FileCopy.Relay
open Hush.Lib

inductive SendState
  | ready
  | dataSent
  | resetSent
  deriving DecidableEq, Repr

/-- Why a write fails: the peer has sent STOP_SENDING, or the connection is gone. -/
inductive Failure
  | stopped
  | lost
  deriving DecidableEq, Repr

/-- `quinn::SendStream`. `dataSent` announces the end of the stream to the peer. -/
structure SendStream where
  written : Bytes
  state : SendState
  stopped : Bool
  lost : Bool
  deriving DecidableEq, Repr

inductive FinishError
  | stopped
  | closedStream
  deriving DecidableEq, Repr

namespace SendStream

def new : SendStream := ⟨[], .ready, false, false⟩

def fail (s : SendStream) : Failure → SendStream
  | .stopped => { s with stopped := true }
  | .lost => { s with lost := true }

/-- `Send::finish` of quinn-proto. -/
def protoFinish (s : SendStream) : Except FinishError SendStream :=
  if s.stopped then .error .stopped
  else if s.state = .ready then .ok { s with state := .dataSent }
  else .error .closedStream

/-- `SendStream::finish`: that the peer has stopped the stream is no error. -/
def finish (s : SendStream) : Except String SendStream :=
  match s.protoFinish with
  | .ok s => .ok s
  | .error .stopped => .ok s
  | .error .closedStream => .error "closed stream"

def reset (s : SendStream) : SendStream := { s with state := .resetSent }

def drop (s : SendStream) : SendStream :=
  if s.lost then s
  else match s.protoFinish with
    | .ok s => s
    | .error .stopped => s.reset
    | .error .closedStream => s

end SendStream

/-- What the source's stream gives to one call of `read_chunks`. -/
inductive ReadResult
  | chunks (batch : List Bytes)
  | finished
  | failed (err : String)
  deriving DecidableEq, Repr

/-- What one call of `write_all_chunks` ends in: all is written, or it fails after some bytes. -/
inductive WriteResult
  | written
  | failed (accepted : Nat) (cause : Failure) (err : String)
  deriving DecidableEq, Repr

/-- An error's messages, the outermost context first. -/
abbrev Chain := List String

/-- The two remotes: what each read and each write ends in, what has become of the destination's
stream by the time it is finished, and what `expect_ok` makes of the destination's answer. -/
structure Peers where
  read : Nat → ReadResult
  write : Nat → WriteResult
  late : Option Failure
  answer : Except Chain Unit

/-- The local variables of `relay_archive`, with the number of reads and the calls of
`bytes_transferred`. -/
structure State where
  reads : Nat
  transferred : Nat
  destination : SendStream
  sourceStopped : Bool
  reported : List Nat

/-- What `relay_archive` leaves behind. `finished` says that `finish` was called and was no
error. -/
structure Ended where
  destination : SendStream
  sourceStopped : Bool
  reported : List Nat
  finished : Bool
  result : Except Chain Unit

def State.init : State := ⟨0, 0, .new, false, []⟩

/-- Returning drops the destination's stream. -/
def State.ended (s : State) (destination : SendStream) (finished : Bool)
    (result : Except Chain Unit) : Ended :=
  ⟨destination.drop, s.sourceStopped, s.reported, finished, result⟩

def SendStream.writeAllChunks (s : SendStream) (batch : List Bytes) :
    WriteResult → SendStream × Option String
  | .written => ({ s with written := s.written ++ batch.flatten }, none)
  | .failed accepted cause err =>
    ({ s with written := s.written ++ batch.flatten.take accepted }.fail cause, some err)

/-- After the loop. -/
def State.complete (peers : Peers) (s : State) : Ended :=
  let destination := peers.late.elim s.destination s.destination.fail
  match destination.finish with
  | .ok destination => s.ended destination true peers.answer
  | .error err => s.ended destination false (.error [err])

/-- One turn of the loop. -/
def step (peers : Peers) (limits : FileCopyLimits) (s : State) : Outcome State Ended :=
  match peers.read s.reads with
  | .failed err =>
    .done (s.ended s.destination.reset false (.error ["read archive from source", err]))
  | .finished => .done (s.complete peers)
  | .chunks batch =>
    let bytes := (batch.map List.length).sum % 2 ^ 64
    let transferred := satAdd s.transferred bytes
    if wireByteLimit limits < transferred then
      .done ({ s with sourceStopped := true }.ended s.destination.reset false
        (.error ["file copy exceeds the configured byte limit"]))
    else match s.destination.writeAllChunks batch (peers.write s.reads) with
      | (destination, none) =>
        .next ⟨s.reads + 1, transferred, destination, s.sourceStopped, s.reported ++ [bytes]⟩
      | (destination, some err) =>
        -- the destination's answer says why it stopped reading
        .done ({ s with sourceStopped := true }.ended destination false (match peers.answer with
          | .error chain => .error chain
          | .ok () => .error ["write archive to destination", err]))

def ReadResult.batch : ReadResult → List Bytes
  | .chunks batch => batch
  | .finished | .failed _ => []

/-- What the source has sent in its first reads. -/
def sent (peers : Peers) (n : Nat) : Bytes :=
  (List.range n).flatMap fun k => (peers.read k).batch.flatten

/-- The first reads gave chunks, all of which were written, within the limit. -/
structure Forwarded (peers : Peers) (limits : FileCopyLimits) (n : Nat) : Prop where
  reads : ∀ k < n, ∃ batch, peers.read k = .chunks batch
  writes : ∀ k < n, peers.write k = .written
  limit : (sent peers n).length ≤ wireByteLimit limits

/-- The state after so many reads. -/
def stateAt (peers : Peers) (n : Nat) : State where
  reads := n
  transferred := (sent peers n).length
  destination := { SendStream.new with written := sent peers n }
  sourceStopped := false
  reported := (List.range n).map fun k => (peers.read k).batch.flatten.length

/-- The source fails at this read, or goes beyond the limit with it. -/
def Aborts (peers : Peers) (limits : FileCopyLimits) (n : Nat) : Prop :=
  (∃ err, peers.read n = .failed err) ∨
    ∃ batch, peers.read n = .chunks batch ∧ wireByteLimit limits < (sent peers (n + 1)).length

/-- What a turn of the loop can do after `n` reads. -/
inductive Turn (peers : Peers) (limits : FileCopyLimits) (n : Nat) : Outcome State Ended → Prop
  | forwards {batch : List Bytes} (hread : peers.read n = .chunks batch)
      (hwrite : peers.write n = .written)
      (hlimit : (sent peers (n + 1)).length ≤ wireByteLimit limits) :
      Turn peers limits n (.next (stateAt peers (n + 1)))
  | finishes (hread : peers.read n = .finished) :
      Turn peers limits n (.done ((stateAt peers n).complete peers))
  | aborts {s : State} {chain : Chain} (h : Aborts peers limits n) :
      Turn peers limits n (.done (s.ended (stateAt peers n).destination.reset false (.error chain)))
  | fails {s : State} {chain : Chain} {batch : List Bytes} {accepted : Nat} {cause : Failure}
      {err : String} (hread : peers.read n = .chunks batch)
      (hwrite : peers.write n = .failed accepted cause err)
      (hlimit : (sent peers (n + 1)).length ≤ wireByteLimit limits) :
      Turn peers limits n (.done (s.ended ({ (stateAt peers n).destination with
        written := sent peers n ++ batch.flatten.take accepted }.fail cause) false (.error chain)))

theorem sent_succ (peers : Peers) (n : Nat) :
    sent peers (n + 1) = sent peers n ++ (peers.read n).batch.flatten := by
  simp [sent, List.range_succ]

theorem Forwarded.zero (peers : Peers) (limits : FileCopyLimits) : Forwarded peers limits 0 :=
  ⟨by simp, by simp, by simp [sent]⟩

theorem forwarded_succ_iff {peers : Peers} {limits : FileCopyLimits} {n : Nat} :
    Forwarded peers limits (n + 1) ↔ Forwarded peers limits n ∧
      (∃ batch, peers.read n = .chunks batch) ∧ peers.write n = .written ∧
      (sent peers (n + 1)).length ≤ wireByteLimit limits := by
  constructor
  · intro h
    have hlimit := h.limit
    rw [sent_succ, List.length_append] at hlimit
    exact ⟨⟨fun k hk => h.reads k (by omega), fun k hk => h.writes k (by omega), by omega⟩,
      h.reads n (by omega), h.writes n (by omega), h.limit⟩
  · rintro ⟨h, hread, hwrite, hlimit⟩
    refine ⟨fun k hk => ?_, fun k hk => ?_, hlimit⟩
    · rcases Nat.lt_succ_iff_lt_or_eq.mp hk with hk | rfl
      exacts [h.reads k hk, hread]
    · rcases Nat.lt_succ_iff_lt_or_eq.mp hk with hk | rfl
      exacts [h.writes k hk, hwrite]

theorem Turn.eq_next {peers : Peers} {limits : FileCopyLimits} {n : Nat}
    {outcome : Outcome State Ended} {batch : List Bytes} (h : Turn peers limits n outcome)
    (hread : peers.read n = .chunks batch) (hwrite : peers.write n = .written)
    (hlimit : (sent peers (n + 1)).length ≤ wireByteLimit limits) :
    outcome = .next (stateAt peers (n + 1)) := by
  cases h with
  | forwards => rfl
  | finishes h => cases hread.symm.trans h
  | aborts h =>
    rcases h with ⟨err, h⟩ | ⟨batch', h, hover⟩
    · cases hread.symm.trans h
    · omega
  | fails _ h _ => cases hwrite.symm.trans h

/-- Where the source aborts, the destination is reset and the result is an error. -/
theorem Turn.of_aborts {peers : Peers} {limits : FileCopyLimits} {n : Nat}
    {outcome : Outcome State Ended} (h : Turn peers limits n outcome)
    (habort : Aborts peers limits n) :
    ∃ s chain, outcome =
      .done (State.ended s (stateAt peers n).destination.reset false (.error chain)) := by
  have hover {batch : List Bytes} (hread : peers.read n = .chunks batch) :
      wireByteLimit limits < (sent peers (n + 1)).length := by
    rcases habort with ⟨err, h⟩ | ⟨batch', -, hover⟩
    · cases hread.symm.trans h
    · exact hover
  cases h with
  | forwards hread _ hlimit =>
    have := hover hread
    omega
  | finishes hread =>
    rcases habort with ⟨err, h⟩ | ⟨batch', h, -⟩ <;> cases hread.symm.trans h
  | aborts => exact ⟨_, _, rfl⟩
  | fails hread _ hlimit =>
    have := hover hread
    omega

/-! What becomes of the destination's stream. -/

theorem complete_state (peers : Peers) (n : Nat) :
    ((stateAt peers n).complete peers).destination.written = sent peers n ∧
      ((stateAt peers n).complete peers).finished = true ∧
      ((stateAt peers n).complete peers).result = peers.answer ∧
      (peers.late ≠ some .stopped →
        ((stateAt peers n).complete peers).destination.state = .dataSent) := by
  rcases hlate : peers.late with _ | _ | _ <;>
    simp [State.complete, hlate, stateAt, SendStream.new, SendStream.fail, SendStream.finish,
      SendStream.protoFinish, State.ended, SendStream.drop, SendStream.reset]

theorem drop_fail (d : SendStream) (hready : d.state = .ready) (cause : Failure) :
    (d.fail cause).drop.state ≠ .dataSent ∧ (d.fail cause).drop.written = d.written := by
  cases cause <;> cases hlost : d.lost <;> cases hstopped : d.stopped <;>
    simp [SendStream.fail, SendStream.drop, SendStream.protoFinish, SendStream.reset, hready,
      hlost, hstopped]

section Run
variable {peers : Peers} {limits : FileCopyLimits} {n : Nat} {s : State} {out : Ended}
  (hsize : ∀ n, (sent peers n).length < 2 ^ 62)
include hsize

/-- The counter neither wraps nor saturates: it is what the source has sent. -/
theorem satAdd_sent {batch : List Bytes} (hread : peers.read n = .chunks batch) :
    (batch.map List.length).sum % 2 ^ 64 = batch.flatten.length ∧
      satAdd (sent peers n).length batch.flatten.length = (sent peers (n + 1)).length := by
  have hlen : (sent peers (n + 1)).length = (sent peers n).length + batch.flatten.length := by
    rw [sent_succ, hread, List.length_append]
    rfl
  have hlt := hsize (n + 1)
  rw [← List.length_flatten]
  unfold satAdd u64Max
  omega

theorem step_turn (limits : FileCopyLimits) (n : Nat) :
    Turn peers limits n (step peers limits (stateAt peers n)) := by
  have hreads : (stateAt peers n).reads = n := rfl
  have htotal : (stateAt peers n).transferred = (sent peers n).length := rfl
  cases hread : peers.read n with
  | finished =>
    rw [step, hreads, hread]
    exact .finishes hread
  | failed err =>
    rw [step, hreads, hread]
    exact .aborts (.inl ⟨err, hread⟩)
  | chunks batch =>
    obtain ⟨hbytes, htransferred⟩ := satAdd_sent hsize hread
    simp only [step, hreads, hread, htotal, hbytes, htransferred]
    split
    · next hlimit => exact .aborts (.inr ⟨batch, hread, hlimit⟩)
    · next hlimit =>
      have hlimit := Nat.not_lt.mp hlimit
      cases hwrite : peers.write n with
      | written =>
        have hnext := Turn.forwards hread hwrite hlimit
        simpa [SendStream.writeAllChunks, stateAt, sent_succ, hread, ReadResult.batch,
          List.range_succ] using hnext
      | failed accepted cause err =>
        cases peers.answer <;> exact .fails hread hwrite hlimit

theorem Forwarded.next (hn : Forwarded peers limits n)
    (hstep : step peers limits (stateAt peers n) = .next s) :
    Forwarded peers limits (n + 1) ∧ s = stateAt peers (n + 1) := by
  have hturn := step_turn hsize limits n
  rw [hstep] at hturn
  cases hturn with
  | forwards hread hwrite hlimit =>
    exact ⟨forwarded_succ_iff.mpr ⟨hn, ⟨_, hread⟩, hwrite, hlimit⟩, rfl⟩

/-- The loop is after `n` reads just when `n` batches have been forwarded. -/
theorem reaches_iff :
    Loop.Reaches (step peers limits) .init s ↔
      ∃ n, Forwarded peers limits n ∧ s = stateAt peers n := by
  constructor
  · intro h
    refine h.invariant (P := fun s => ∃ n, Forwarded peers limits n ∧ s = stateAt peers n)
      ⟨0, .zero peers limits, rfl⟩ ?_
    rintro _ t ⟨n, hn, rfl⟩ hstep
    exact ⟨n + 1, hn.next hsize hstep⟩
  · rintro ⟨n, hn, rfl⟩
    induction n with
    | zero => exact .refl
    | succ n ih =>
      obtain ⟨hn, ⟨batch, hread⟩, hwrite, hlimit⟩ := forwarded_succ_iff.mp hn
      refine (ih hn).snoc ?_
      exact (step_turn hsize limits n).eq_next hread hwrite hlimit

theorem returns_iff :
    Loop.Returns (step peers limits) .init out ↔
      ∃ n, Forwarded peers limits n ∧ step peers limits (stateAt peers n) = .done out := by
  constructor
  · intro h
    obtain ⟨s, hs, hout⟩ := h.last
    obtain ⟨n, hn, rfl⟩ := (reaches_iff hsize).mp hs
    exact ⟨n, hn, hout⟩
  · rintro ⟨n, hn, hout⟩
    exact ((reaches_iff hsize).mpr ⟨n, hn, rfl⟩).returns hout

/-- A clean finish means a complete archive: what a return leaves behind. -/
theorem returns_spec (h : Loop.Returns (step peers limits) .init out) :
    (out.destination.state = .dataSent ∨ out.result = .ok () →
      ∃ n, Forwarded peers limits n ∧ peers.read n = .finished ∧
        out = (stateAt peers n).complete peers) ∧
      out.destination.written.length ≤ wireByteLimit limits := by
  obtain ⟨n, hn, hstep⟩ := (returns_iff hsize).mp h
  have hturn := step_turn hsize limits n
  rw [hstep] at hturn
  cases hturn with
  | finishes hread =>
    refine ⟨fun _ => ⟨n, hn, hread, rfl⟩, ?_⟩
    rw [(complete_state peers n).1]
    exact hn.limit
  | aborts =>
    refine ⟨?_, hn.limit⟩
    rintro (h | h) <;> cases h
  | @fails s chain batch accepted cause err hread hwrite hlimit =>
    have hdrop := drop_fail { (stateAt peers n).destination with
      written := sent peers n ++ batch.flatten.take accepted } rfl cause
    refine ⟨?_, ?_⟩
    · rintro (h | h)
      · exact absurd h hdrop.1
      · cases h
    · rw [State.ended, hdrop.2]
      rw [sent_succ, hread, ReadResult.batch] at hlimit
      simp only [List.length_append, List.length_take] at hlimit ⊢
      omega

/-- The source's end, an error or the limit ends the loop. -/
theorem exists_returns (hend : ∃ n, ∀ batch, peers.read n ≠ .chunks batch) :
    ∃ out, Loop.Returns (step peers limits) .init out := by
  obtain ⟨m, hm⟩ := hend
  by_contra hnone
  have hforwarded (n : Nat) : Forwarded peers limits n := by
    induction n with
    | zero => exact .zero peers limits
    | succ n ih =>
      cases hstep : step peers limits (stateAt peers n) with
      | done out => exact absurd ⟨out, (returns_iff hsize).mpr ⟨n, ih, hstep⟩⟩ hnone
      | next s => exact (ih.next hsize hstep).1
  obtain ⟨batch, hread⟩ := (hforwarded (m + 1)).reads m (by omega)
  exact hm batch hread

/-- A relayed archive is never passed off as complete when it is not: the destination's stream
is finished only after all of the source's, a source that fails or sends too much resets it,
only a finished copy that the destination confirms is a success, and nothing beyond the limit
is written, at any time. -/
theorem relay_archive_complete :
    (∀ out, Loop.Returns (step peers limits) .init out →
      (out.destination.state = .dataSent → ∃ n, Forwarded peers limits n ∧
        peers.read n = .finished ∧ out.destination.written = sent peers n) ∧
      (out.result = .ok () → out.finished = true ∧ peers.answer = .ok () ∧
        ∃ n, Forwarded peers limits n ∧ peers.read n = .finished ∧
          out.destination.written = sent peers n ∧
          (peers.late ≠ some .stopped → out.destination.state = .dataSent)) ∧
      out.destination.written.length ≤ wireByteLimit limits) ∧
    (∀ n, Forwarded peers limits n → Aborts peers limits n →
      ∃ out, Loop.Returns (step peers limits) .init out ∧
        out.destination.state = .resetSent ∧ ∃ chain, out.result = .error chain) ∧
    (∀ s, Loop.Reaches (step peers limits) .init s →
      s.destination.written.length ≤ wireByteLimit limits) ∧
    ((∃ n, ∀ batch, peers.read n ≠ .chunks batch) →
      ∃ out, Loop.Returns (step peers limits) .init out) := by
  refine ⟨fun out h => ?_, fun n hn habort => ?_, fun s hs => ?_, exists_returns hsize⟩
  · obtain ⟨hcomplete, hlimit⟩ := returns_spec hsize h
    refine ⟨fun hsent => ?_, fun hok => ?_, hlimit⟩
    · obtain ⟨n, hn, hread, rfl⟩ := hcomplete (.inl hsent)
      exact ⟨n, hn, hread, (complete_state peers n).1⟩
    · obtain ⟨n, hn, hread, rfl⟩ := hcomplete (.inr hok)
      obtain ⟨hwritten, hfinished, hresult, hstate⟩ := complete_state peers n
      exact ⟨hfinished, hresult ▸ hok, n, hn, hread, hwritten, hstate⟩
  · obtain ⟨s, chain, hstep⟩ := (step_turn hsize limits n).of_aborts habort
    exact ⟨_, (returns_iff hsize).mpr ⟨n, hn, hstep⟩, rfl, chain, rfl⟩
  · obtain ⟨n, hn, rfl⟩ := (reaches_iff hsize).mp hs
    exact hn.limit

end Run

/-- A source that sends one batch and then ends like this, and a destination that takes it. -/
def oneBatch (last : ReadResult) : Peers where
  read := fun n => if n = 0 then .chunks [[1, 2], [3]] else last
  write := fun _ => .written
  late := none
  answer := .ok ()

theorem length_sent_oneBatch (last : ReadResult) (hlast : last.batch = []) (n : Nat) :
    (sent (oneBatch last) n).length < 2 ^ 62 := by
  cases n with
  | zero => simp [sent]
  | succ n =>
    have hrest : (List.range n).flatMap
        (fun k => ((oneBatch last).read (k + 1)).batch.flatten) = [] := by
      simp [oneBatch, hlast]
    rw [sent, List.range_succ_eq_map, List.flatMap_cons, List.flatMap_map, hrest]
    simp [oneBatch, ReadResult.batch]

theorem relay_oneBatch_returns :
    (∃ out, Loop.Returns (step (oneBatch .finished) ⟨0, 0⟩) .init out ∧ out.result = .ok () ∧
      out.destination.state = .dataSent ∧ out.destination.written = [1, 2, 3] ∧
      ∃ n, Forwarded (oneBatch .finished) ⟨0, 0⟩ n ∧ (oneBatch .finished).read n = .finished ∧
        sent (oneBatch .finished) n = [1, 2, 3]) ∧
    ∃ out, Loop.Returns (step (oneBatch (.failed "reset")) ⟨0, 0⟩) .init out ∧
      out.destination.state = .resetSent ∧ ∃ chain, out.result = .error chain := by
  constructor
  · have hreturns : Loop.Returns (step (oneBatch .finished) ⟨0, 0⟩) .init
        ⟨⟨[1, 2, 3], .dataSent, false, false⟩, false, [3], true, .ok ()⟩ := ⟨2, rfl⟩
    have hcomplete := (relay_archive_complete (length_sent_oneBatch .finished rfl)).1 _ hreturns
    obtain ⟨n, hn, hread, hwritten⟩ := hcomplete.1 rfl
    exact ⟨_, hreturns, rfl, rfl, rfl, n, hn, hread, hwritten.symm⟩
  · have hone : Forwarded (oneBatch (.failed "reset")) ⟨0, 0⟩ 1 :=
      forwarded_succ_iff.mpr ⟨.zero _ _, ⟨_, rfl⟩, rfl, by decide⟩
    exact (relay_archive_complete (length_sent_oneBatch _ rfl)).2.1 1 hone (.inl ⟨_, rfl⟩)

end Hush.FileCopy.Relay
