import Hush.Lib.SocketAddr
import Hush.Lib.Trace

/-!
# Sending what a connection has to send

The loop of `drive_transmit` over many polls of the connection's driver, with a socket that may
block, run out of buffers or fail at any time.
-/
namespace Hush.Driver
open Hush.Lib

structure Transmit where
  destination : SocketAddr
  size : Nat
  segmentSize : Option Nat
  deriving DecidableEq, Repr

/-- What `poll_transmit` gives, with the bytes that it writes for it. -/
structure Datagrams where
  transmit : Transmit
  bytes : List UInt8
  size_eq : bytes.length = transmit.size
  deriving DecidableEq

/-- `MAX_TRANSMIT_DATAGRAMS`. -/
def maxTransmitDatagrams : Nat := 20

/-- How many datagrams a transmit counts for. -/
def Transmit.count (t : Transmit) : Nat :=
  match t.segmentSize with
  | none => 1
  | some s => (t.size + s - 1) / s

inductive Phase
  | parked
  | looping
  | failed
  deriving DecidableEq, Repr

/-- What will poll a parked driver again for the sake of sending. -/
inductive Wake
  | none
  | writable
  | timer
  | again
  deriving DecidableEq, Repr

/-- `queue` is what the connection still has for `poll_transmit`, and `sent` what the socket took,
as it was handed the bytes. -/
structure State where
  phase : Phase
  queue : List Datagrams
  bufferedTransmit : Option Transmit
  sendBuffer : List UInt8
  sendRetry : Bool
  transmits : Nat
  wake : Wake
  sent : List (Transmit × List UInt8)

def State.start : State := ⟨.parked, [], none, [], false, 0, .none, []⟩

/-- What the socket answers in one iteration. Of a timer that is armed for a retry, `due` says that
it has run out already when it is polled for the first time. -/
inductive Answer
  | unwritable
  | sent
  | wouldBlock
  | noBuffers (due : Bool)
  | err
  deriving DecidableEq, Repr

/-- The transmit of an iteration: the one kept from before, or a new one, whose bytes then replace
the buffer's. -/
def State.next (s : State) : Option (Transmit × State) :=
  match s.bufferedTransmit, s.queue with
  | some t, _ => some (t, { s with bufferedTransmit := none })
  | none, d :: rest =>
    some (d.transmit,
      { s with
        queue := rest
        sendBuffer := d.bytes
        transmits := s.transmits + d.transmit.count })
  | none, [] => none

def State.keep (s : State) (t : Transmit) (wake : Wake) : State :=
  { s with phase := .parked, bufferedTransmit := some t, wake := wake }

def State.answered (s : State) (t : Transmit) : Answer → State
  | .unwritable => s.keep t .writable
  | .sent =>
    let s := { s with sent := s.sent ++ [(t, s.sendBuffer.take t.size)] }
    if maxTransmitDatagrams ≤ s.transmits then { s with phase := .parked, wake := .again } else s
  | .wouldBlock => { s with bufferedTransmit := some t }
  -- The timer's first poll is not looked at: one that is due leaves no one to wake the driver.
  | .noBuffers due => { s.keep t (if due then .none else .timer) with sendRetry := true }
  | .err => { s with phase := .failed }

inductive Action
  | produces (d : Datagrams)
  | polled (elapsed : Bool)
  | iterates (answer : Answer)
  | finishes
  deriving DecidableEq

/-- The connection may have more to send between two polls, and anything may poll the driver. -/
inductive Step : State → Action → State → Prop
  | produces {s : State} {d : Datagrams} (h : s.phase = .parked) :
      Step s (.produces d) { s with queue := s.queue ++ [d] }
  | waits {s : State} (h : s.phase = .parked) (hretry : s.sendRetry = true) :
      Step s (.polled false) { s with wake := .timer }
  | begins {s : State} {elapsed : Bool} (h : s.phase = .parked)
      (hretry : s.sendRetry = true → elapsed = true) :
      Step s (.polled elapsed)
        { s with phase := .looping, sendRetry := false, transmits := 0, wake := .none }
  | iterates {s u : State} {t : Transmit} {answer : Answer} (h : s.phase = .looping)
      (hnext : s.next = some (t, u)) : Step s (.iterates answer) (u.answered t answer)
  | finishes {s : State} (h : s.phase = .looping) (hnext : s.next = none) :
      Step s .finishes { s with phase := .parked }

def Datagrams.entry (d : Datagrams) : Transmit × List UInt8 := (d.transmit, d.bytes)

/-- The transmit that is kept, with the bytes that the buffer has for it. -/
def State.held (s : State) : List (Transmit × List UInt8) :=
  s.bufferedTransmit.toList.map fun t => (t, s.sendBuffer.take t.size)

/-- All there is to send, from what went first to what goes last. -/
def State.whole (s : State) : List (Transmit × List UInt8) :=
  s.sent ++ s.held ++ s.queue.map Datagrams.entry

/-- What the actions gave the connection to send. -/
def produced : List Action → List (Transmit × List UInt8)
  | [] => []
  | .produces d :: actions => d.entry :: produced actions
  | _ :: actions => produced actions

variable {s t u : State} {a : Action} {actions : List Action}

/-- Taking up a transmit, the loop has its bytes in the buffer and nothing kept back. -/
theorem next_some {x : Transmit} (h : s.next = some (x, u)) :
    u.phase = s.phase ∧ u.sent = s.sent ∧ u.bufferedTransmit = none ∧
      s.whole = u.sent ++ (x, u.sendBuffer.take x.size) :: u.queue.map Datagrams.entry := by
  unfold State.next at h
  split at h
  · next y hkept =>
    cases h
    refine ⟨rfl, rfl, rfl, ?_⟩
    simp [State.whole, State.held, hkept]
  · next d rest hkept hqueue =>
    cases h
    have htake : d.bytes.take d.transmit.size = d.bytes := by
      rw [← d.size_eq, List.take_length]
    refine ⟨rfl, rfl, hkept, ?_⟩
    simp [State.whole, State.held, hkept, hqueue, Datagrams.entry, htake]
  · cases h

/-- An answer other than an error leaves nothing out and puts nothing in twice. -/
theorem whole_answered (x : Transmit) {answer : Answer} (hkept : u.bufferedTransmit = none)
    (h : answer ≠ .err) :
    (u.answered x answer).whole =
      u.sent ++ (x, u.sendBuffer.take x.size) :: u.queue.map Datagrams.entry := by
  cases answer with
  | unwritable => simp [State.answered, State.keep, State.whole, State.held]
  | sent =>
    simp only [State.answered]
    split <;> simp [State.whole, State.held, hkept]
  | wouldBlock => simp [State.answered, State.whole, State.held]
  | noBuffers due => simp [State.answered, State.keep, State.whole, State.held]
  | err => exact absurd rfl h

theorem whole_step (h : Step s a t) (ha : a ≠ .iterates .err) :
    t.whole = s.whole ++ produced [a] := by
  cases h with
  | produces => simp [State.whole, State.held, produced, Datagrams.entry]
  | waits | begins | finishes => simp [State.whole, State.held, produced]
  | @iterates u x answer _ hnext =>
    obtain ⟨-, -, hkept, hwhole⟩ := next_some hnext
    have hne : answer ≠ .err := by
      rintro rfl
      exact ha rfl
    rw [whole_answered x hkept hne, ← hwhole]
    simp [produced]

theorem produced_cons (a : Action) (actions : List Action) :
    produced (a :: actions) = produced [a] ++ produced actions := by
  cases a <;> rfl

theorem whole_run (h : Trace Step s actions t) (ha : .iterates .err ∉ actions) :
    t.whole = s.whole ++ produced actions := by
  induction h with
  | refl => simp [produced]
  | @stepL s a u actions t hstep _ ih =>
    rw [List.mem_cons, not_or] at ha
    rw [ih ha.2, whole_step hstep (Ne.symm ha.1), List.append_assoc, ← produced_cons]

/-- In every run in which the socket does not fail, whatever else it answers and whenever the driver
is polled: what the connection gave to send is what the socket has taken, then what is kept back,
then what waits, in order, each once and with its own bytes. -/
theorem transmits_in_order (h : Trace Step .start actions s) (ha : .iterates .err ∉ actions) :
    produced actions = s.sent ++ s.held ++ s.queue.map Datagrams.entry := by
  have hwhole := whole_run h ha
  rw [show State.start.whole = [] from rfl, List.nil_append] at hwhole
  exact hwhole.symm

def sample : Datagrams := ⟨⟨.v4 0x7f000001 4433, 2, none⟩, [104, 105], rfl⟩

/-- The run of one transmit for which the socket has no buffers. -/
def stalled (due : Bool) : State :=
  { State.start with
    bufferedTransmit := some sample.transmit
    sendBuffer := [104, 105]
    sendRetry := true
    transmits := 1
    wake := if due then .none else .timer }

/-- The driver has begun to send it. -/
def sending : State := { State.start with phase := .looping, queue := [sample] }

theorem stalled_run (due : Bool) :
    Trace Step .start [.produces sample, .polled false, .iterates (.noBuffers due)]
      (stalled due) := by
  have hproduces : Step .start (.produces sample) { State.start with queue := [sample] } :=
    .produces rfl
  have hbegins : Step { State.start with queue := [sample] } (.polled false) sending :=
    .begins rfl fun hretry => by cases hretry
  have hnext : sending.next = some (sample.transmit,
      { sending with queue := [], sendBuffer := [104, 105], transmits := 1 }) := rfl
  have hiterates : Step sending (.iterates (.noBuffers due)) (stalled due) :=
    Step.iterates rfl hnext
  exact .stepL hproduces (.stepL hbegins (.single hiterates))

theorem transmits_in_order_stalled :
    produced [.produces sample, .polled false, .iterates (.noBuffers false)] =
      [(sample.transmit, [104, 105])] :=
  transmits_in_order (stalled_run false) (by decide)

/-- A transmit that is kept back by a parked driver has something to poll the driver for it. -/
def Awaited (s : State) : Prop :=
  s.phase = .parked → s.bufferedTransmit ≠ none → s.wake ≠ .none

theorem awaited_step (h : Step s a t) (ha : a ≠ .iterates (.noBuffers true)) (hs : Awaited s) :
    Awaited t := by
  cases h with
  | produces => exact hs
  | waits =>
    intro _ _ hwake
    cases hwake
  | begins =>
    intro hphase
    cases hphase
  | finishes _ hnext =>
    -- The loop ends with nothing kept back only.
    intro _ hkept
    unfold State.next at hnext
    split at hnext
    · cases hnext
    · cases hnext
    · next hnone _ => exact absurd hnone hkept
  | @iterates u x answer hphase hnext =>
    obtain ⟨huphase, -, hkept, -⟩ := next_some hnext
    rw [hphase] at huphase
    cases answer with
    | unwritable =>
      intro _ _ hwake
      cases hwake
    | sent =>
      simp only [State.answered]
      split
      · intro _ _ hwake
        cases hwake
      · intro _ hne
        exact absurd hkept hne
    | wouldBlock =>
      intro hparked
      have hparked : u.phase = .parked := hparked
      rw [huphase] at hparked
      cases hparked
    | noBuffers due =>
      cases due with
      | true => exact absurd rfl ha
      | false =>
        intro _ _ hwake
        cases hwake
    | err =>
      intro hparked
      cases hparked

theorem awaited_run (h : Trace Step s actions t) (ha : .iterates (.noBuffers true) ∉ actions)
    (hs : Awaited s) : Awaited t := by
  induction h with
  | refl => exact hs
  | stepL hstep _ ih =>
    rw [List.mem_cons, not_or] at ha
    exact ih ha.2 (awaited_step hstep (Ne.symm ha.1) hs)

/-- A kept transmit is always waited for, by the socket or by the retry timer, unless the timer has
run out when it is armed; and then there is a run in which nothing waits for it. -/
theorem retry_awaited :
    (∀ {actions : List Action} {s : State}, Trace Step .start actions s →
      .iterates (.noBuffers true) ∉ actions → Awaited s) ∧
    ∃ actions s, Trace Step .start actions s ∧ ¬ Awaited s := by
  constructor
  · intro actions s hrun ha
    refine awaited_run hrun ha ?_
    intro _ hkept
    exact absurd rfl hkept
  · refine ⟨_, _, stalled_run true, ?_⟩
    intro hawaited
    exact hawaited rfl (fun hnone => by cases hnone) rfl

end Hush.Driver
