import Hush.Protocol.Frames
import Mathlib.Data.List.Forall2
import Mathlib.Data.List.Perm.Basic

/-!
# How a session ends

The status of the child on the server, the side streams that carry it, and the end of the client.
-/
namespace Hush.Session.Exit
open Hush.Lib Hush.Lib.Wire Hush.Protocol

/-- The numbers that a platform gives the signals, no two of them the same. -/
structure Platform where
  asRaw : RemoteSignal → Int32
  distinct : ∀ signal, RemoteSignal.variants.find? (asRaw · == asRaw signal) = some signal

def linux : Platform where
  asRaw
    | .sigabrt => 6
    | .sigalrm => 14
    | .sigfpe => 8
    | .sighup => 1
    | .sigill => 4
    | .sigint => 2
    | .sigkill => 9
    | .sigpipe => 13
    | .sigquit => 3
    | .sigsegv => 11
    | .sigterm => 15
    | .sigusr1 => 10
    | .sigusr2 => 12
  distinct signal := by cases signal <;> rfl

def Platform.fromRaw (p : Platform) (signal : Int32) : Option RemoteSignal :=
  RemoteSignal.variants.find? (p.asRaw · == signal)

/-- What waiting for a child gives. -/
inductive ExitStatus
  | exited (code : Int32)
  | signaled (signal : Int32)
  deriving DecidableEq, Repr

def processExitFromStatus (p : Platform) : ExitStatus → ProcessExit
  | .exited n => .code n
  | .signaled n =>
    match p.fromRaw n with
    | some signal => .signal signal
    | none => .code 255

/-- The side streams that `run_server_session` opens, by their headers. -/
def serverHeaders (p : Platform) (mode : SessionMode) (outcome : Except String ExitStatus) :
    List StreamOpen :=
  (match mode with
    | .pty _ _ => []
    | .pipes => [.sessionStderr]) ++
  [match outcome with
    | .ok status => .sessionExitStatus (processExitFromStatus p status)
    | .error err => .sessionError err]

inductive ClientError
  | closed
  | frame (err : FrameError)
  | session (err : String)
  deriving DecidableEq, Repr

/-- What a header says about the end of the session. -/
def ended : StreamOpen → Option (Except ClientError ProcessExit)
  | .sessionExitStatus status => some (.ok status)
  | .sessionError err => some (.error (.session err))
  | _ => none

section Streams

variable [Postcard]

/-- The side streams in the order they are accepted; behind them the connection is closed. -/
def readExitStatus : List (List UInt8) → Except ClientError ProcessExit
  | [] => .error .closed
  | stream :: streams =>
    match readFrame StreamOpen.format stream with
    | .error err => .error (.frame err)
    | .ok (header, _) =>
      match ended header with
      | some result => result
      | none => readExitStatus streams

/-- The loop of `run_pipes` up to the stream for stderr, with the status that came before it. -/
def awaitStderr (deferred : Option (Except ClientError ProcessExit)) :
    List (List UInt8) →
      Except ClientError (Option (Except ClientError ProcessExit) × List (List UInt8))
  | [] => .error .closed
  | stream :: streams =>
    match readFrame StreamOpen.format stream with
    | .error err => .error (.frame err)
    | .ok (header, _) =>
      if header = .sessionStderr then .ok (deferred, streams)
      else awaitStderr ((ended header).or deferred) streams

/-- The status that `run_pty` or `run_pipes` finishes with. An error before the stream for stderr is
returned from `run_pipes`, which then does not get to `finish_session`. -/
def clientStatus (mode : SessionMode) (streams : List (List UInt8)) :
    Except ClientError (Except ClientError ProcessExit) :=
  match mode with
  | .pty _ _ => .ok (readExitStatus streams)
  | .pipes =>
    match awaitStderr none streams with
    | .error err => .error err
    | .ok (deferred, rest) => .ok (deferred.getD (readExitStatus rest))

/-- The end of the client's process. -/
inductive Ending
  | exits (code : Int32)
  | dies (signal : RemoteSignal)
  deriving DecidableEq, Repr

/-- `completed_status` and `finish_session` of a session that was not left by an escape. -/
def finishSession : Except ClientError ProcessExit → Ending
  | .ok (.code n) => .exits n
  | .ok (.signal signal) => .dies signal
  | .error _ => .exits 255

/-- The stream has the header's frame in front, and any data behind it. -/
def Carries (header : StreamOpen) (stream : List UInt8) : Prop :=
  ∃ frame data, writeFrame StreamOpen.format header = .ok frame ∧ stream = frame ++ data

variable {header : StreamOpen} {headers : List StreamOpen} {stream : List UInt8}
  {streams : List (List UInt8)} {result : Except ClientError ProcessExit}
  {deferred : Option (Except ClientError ProcessExit)}

theorem Carries.read (h : Carries header stream) :
    ∃ data, readFrame StreamOpen.format stream = .ok (header, data) := by
  obtain ⟨frame, data, hframe, rfl⟩ := h
  exact ⟨data, readFrame_ok hframe data⟩

theorem readExitStatus_cons (h : Carries header stream) :
    readExitStatus (stream :: streams) = (ended header).getD (readExitStatus streams) := by
  obtain ⟨data, hread⟩ := h.read
  simp only [readExitStatus, hread]
  cases ended header <;> rfl

theorem awaitStderr_cons (h : Carries header stream) (hne : header ≠ .sessionStderr) :
    awaitStderr deferred (stream :: streams) =
      awaitStderr ((ended header).or deferred) streams := by
  obtain ⟨data, hread⟩ := h.read
  simp only [awaitStderr, hread, if_neg hne]

theorem awaitStderr_stderr (h : Carries .sessionStderr stream) :
    awaitStderr deferred (stream :: streams) = .ok (deferred, streams) := by
  obtain ⟨data, hread⟩ := h.read
  simp only [awaitStderr, hread, if_true]

/-- Of the headers only the one about the end counts. -/
theorem readExitStatus_of_one (h : List.Forall₂ Carries headers streams)
    (hone : headers.filterMap ended = [result]) : readExitStatus streams = result := by
  induction h with
  | nil => cases hone
  | @cons header stream headers streams hcarries _ ih =>
    rw [readExitStatus_cons hcarries]
    cases hended : ended header with
    | none =>
      rw [List.filterMap_cons_none hended] at hone
      exact ih hone
    | some first =>
      rw [List.filterMap_cons_some hended] at hone
      exact (List.cons.inj hone).1

/-- A status that came before the stream for stderr is kept, if no other one follows. -/
theorem awaitStderr_of_none (h : List.Forall₂ Carries headers streams)
    (hnone : headers.filterMap ended = []) (hstderr : .sessionStderr ∈ headers) :
    ∃ rest, awaitStderr deferred streams = .ok (deferred, rest) := by
  induction h with
  | nil => cases hstderr
  | @cons header stream headers streams hcarries _ ih =>
    by_cases heq : header = .sessionStderr
    · subst heq
      exact ⟨streams, awaitStderr_stderr hcarries⟩
    · have hended : ended header = none := by
        cases hended : ended header with
        | none => rfl
        | some first =>
          rw [List.filterMap_cons_some hended] at hnone
          cases hnone
      rw [List.filterMap_cons_none hended] at hnone
      rw [awaitStderr_cons hcarries heq, hended, Option.none_or]
      exact ih hnone ((List.mem_cons.mp hstderr).resolve_left (Ne.symm heq))

theorem pipes_of_one (h : List.Forall₂ Carries headers streams)
    (hone : headers.filterMap ended = [result]) (hstderr : .sessionStderr ∈ headers) :
    clientStatus .pipes streams = .ok result := by
  induction h with
  | nil => cases hone
  | @cons header stream headers streams hcarries hrest ih =>
    by_cases heq : header = .sessionStderr
    · subst heq
      have hstatus : readExitStatus streams = result := readExitStatus_of_one hrest hone
      simp only [clientStatus, awaitStderr_stderr hcarries, Option.getD_none, hstatus]
    · have hstderr := (List.mem_cons.mp hstderr).resolve_left (Ne.symm heq)
      have hnext : awaitStderr none (stream :: streams) =
          awaitStderr ((ended header).or none) streams := awaitStderr_cons hcarries heq
      cases hended : ended header with
      | none =>
        rw [List.filterMap_cons_none hended] at hone
        rw [hended] at hnext
        have hih := ih hone hstderr
        simp only [clientStatus, hnext, Option.none_or] at hih ⊢
        exact hih
      | some first =>
        -- The status is early: what follows has no other, so it is the one returned.
        rw [List.filterMap_cons_some hended] at hone
        obtain ⟨rfl, hnone⟩ := List.cons.inj hone
        obtain ⟨rest, hawait⟩ : ∃ rest, awaitStderr (some first) streams = .ok (some first, rest) :=
          awaitStderr_of_none hrest hnone hstderr
        rw [hended, Option.some_or, hawait] at hnext
        simp only [clientStatus, hnext, Option.getD_some]

end Streams

/-- What the session came to, as the client is told. -/
def told (p : Platform) : Except String ExitStatus → Except ClientError ProcessExit
  | .ok status => .ok (processExitFromStatus p status)
  | .error err => .error (.session err)

theorem filterMap_serverHeaders (p : Platform) (mode : SessionMode)
    (outcome : Except String ExitStatus) :
    (serverHeaders p mode outcome).filterMap ended = [told p outcome] := by
  cases mode <;> cases outcome <;> rfl

/-- In whatever order the client accepts the side streams, and whatever data is behind their
headers: it is told what the session came to, and ends as the child did, with its code or by its
signal; with 255 if the session failed or no signal of the protocol has the child's number. -/
theorem session_status_delivered [Postcard] (p : Platform) (mode : SessionMode)
    (outcome : Except String ExitStatus) {headers : List StreamOpen} {streams : List (List UInt8)}
    (hperm : headers.Perm (serverHeaders p mode outcome))
    (hstreams : List.Forall₂ Carries headers streams) :
    clientStatus mode streams = .ok (told p outcome) ∧
    (∀ n, outcome = .ok (.exited n) → finishSession (told p outcome) = .exits n) ∧
    (∀ signal, outcome = .ok (.signaled (p.asRaw signal)) →
      finishSession (told p outcome) = .dies signal) ∧
    (∀ n, outcome = .ok (.signaled n) → (∀ signal, p.asRaw signal ≠ n) →
      finishSession (told p outcome) = .exits 255) ∧
    (∀ err, outcome = .error err → finishSession (told p outcome) = .exits 255) := by
  have hone : headers.filterMap ended = [told p outcome] := by
    have hmap := hperm.filterMap ended
    rw [filterMap_serverHeaders] at hmap
    exact List.perm_singleton.mp hmap
  have hstatus : clientStatus mode streams = .ok (told p outcome) := by
    cases mode with
    | pty term size => exact congrArg Except.ok (readExitStatus_of_one hstreams hone)
    | pipes => exact pipes_of_one hstreams hone (hperm.mem_iff.mpr (by simp [serverHeaders]))
  refine ⟨hstatus, ?_, ?_, ?_, ?_⟩
  · rintro n rfl
    rfl
  · rintro signal rfl
    have hraw : p.fromRaw (p.asRaw signal) = some signal := p.distinct signal
    simp only [told, processExitFromStatus, hraw, finishSession]
  · rintro n rfl hunknown
    have hraw : p.fromRaw n = none := by
      rw [Platform.fromRaw, List.find?_eq_none]
      intro signal _
      simpa using hunknown signal
    simp only [told, processExitFromStatus, hraw, finishSession]
  · rintro err rfl
    rfl

/-- A child that is killed, whose status comes before the stream for stderr. -/
theorem session_status_delivered_killed :
    (clientStatus .pipes [[0, 0, 0, 3, 2, 1, 6], [0, 0, 0, 1, 1, 104, 105]]).map finishSession =
      .ok (.dies .sigkill) := by
  have hstreams : List.Forall₂ Carries [.sessionExitStatus (.signal .sigkill), .sessionStderr]
      [[0, 0, 0, 3, 2, 1, 6], [0, 0, 0, 1, 1, 104, 105]] :=
    .cons ⟨[0, 0, 0, 3, 2, 1, 6], [], rfl, rfl⟩
      (.cons ⟨[0, 0, 0, 1, 1], [104, 105], rfl, rfl⟩ .nil)
  have hperm : [StreamOpen.sessionExitStatus (.signal .sigkill), .sessionStderr].Perm
      (serverHeaders linux .pipes (.ok (.signaled 9))) := .swap _ _ _
  obtain ⟨hstatus, -, hsignal, -⟩ :=
    session_status_delivered linux .pipes (.ok (.signaled 9)) hperm hstreams
  have hdies := hsignal .sigkill rfl
  rw [hstatus, Except.map, hdies]

end Hush.Session.Exit
