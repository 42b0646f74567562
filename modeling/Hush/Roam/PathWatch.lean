import Hush.Lib.Trace
import Mathlib.Algebra.Ring.Nat
import Mathlib.Data.List.Chain

/-! When a client moves to a fresh socket, and how often. -/
namespace Hush.Roam
open Hush.Lib

/-- Times and durations are in nanoseconds. -/
def second : Nat := 10 ^ 9

def minSilence : Nat := 3 * second
def silenceRtts : Nat := 8
def maxHopBackoff : Nat := 30 * second
def minHopInterval : Nat := 1 * second

/-- How long packets may go unanswered. -/
abbrev Silence := { d : Nat // minSilence ≤ d ∧ d ≤ maxHopBackoff }

/-- The silence of a path with this round trip time. -/
def silence (rtt : Nat) : Silence :=
  ⟨min (max (rtt * silenceRtts) minSilence) maxHopBackoff, by
    have : minSilence ≤ maxHopBackoff := by decide
    omega⟩

structure PathWatch where
  acks : Nat
  sentAtLastAck : Nat
  unansweredSince : Option Nat
  lastHop : Option Nat
  backoff : Nat
  deriving DecidableEq, Repr

namespace PathWatch

def default : PathWatch := ⟨0, 0, none, none, 0⟩

/-- A difference of times is zero if the second is the later one. -/
def observe (w : PathWatch) (now acks sent silence : Nat) : PathWatch × Bool :=
  if acks ≠ w.acks then
    ({ w with acks := acks, sentAtLastAck := sent, unansweredSince := none, backoff := 0 }, false)
  else if sent = w.sentAtLastAck then (w, false)
  else
    let since := w.unansweredSince.getD now
    ({ w with unansweredSince := some since },
      silence ≤ now - since && w.lastHop.all fun hop => w.backoff ≤ now - hop)

def mayHopNow (w : PathWatch) (now : Nat) : Bool :=
  w.lastHop.all fun hop => minHopInterval ≤ now - hop

def hopped (w : PathWatch) (now silence : Nat) : PathWatch :=
  { w with lastHop := some now, backoff := min (max (w.backoff * 2) silence) maxHopBackoff }

end PathWatch

/-- An event of `watch_path`; a network change comes with the source address that the system
would use now, if there is a route, and with the one in use. -/
inductive Event (Ip : Type*)
  | tick
  | socketTrouble
  | networkChanged (source current : Option Ip)

/-- An event with the time and the connection's counters at it. -/
structure Sample (Ip : Type*) where
  event : Event Ip
  now : Nat
  acks : Nat
  sent : Nat
  silence : Silence

inductive Reason
  | socketLostPath
  | networkChanged
  | unanswered
  deriving DecidableEq, Repr

variable {Ip : Type*}

namespace PathWatch

/-- What a round without a hop does: nothing, a new ACK, or a note that packets are out. -/
inductive Stays (w : PathWatch) (s : Sample Ip) : PathWatch → Prop
  | same : Stays w s w
  | newAck (htick : s.event = .tick) (hack : s.acks ≠ w.acks) :
      Stays w s { w with
        acks := s.acks, sentAtLastAck := s.sent, unansweredSince := none, backoff := 0 }
  | waiting : Stays w s { w with unansweredSince := some (w.unansweredSince.getD s.now) }

/-- What a round with a hop has checked. -/
inductive MayHop (w : PathWatch) (s : Sample Ip) : Reason → Prop
  | requested {reason : Reason} (hreason : reason ≠ .unanswered)
      (hinterval : ∀ hop, w.lastHop = some hop → minHopInterval ≤ s.now - hop) : MayHop w s reason
  | unanswered {since : Nat} (hsince : w.unansweredSince = some since)
      (hsilence : s.silence ≤ s.now - since)
      (hbackoff : ∀ hop, w.lastHop = some hop → w.backoff ≤ s.now - hop) : MayHop w s .unanswered

theorem mayHopNow_iff {w : PathWatch} {now : Nat} :
    w.mayHopNow now = true ↔ ∀ hop, w.lastHop = some hop → minHopInterval ≤ now - hop := by
  simp [mayHopNow, Option.all_eq_true]

theorem observe_stays {w : PathWatch} {s : Sample Ip} (htick : s.event = .tick) :
    w.Stays s (w.observe s.now s.acks s.sent s.silence).1 := by
  unfold observe
  split
  · next hack => exact .newAck htick hack
  · split
    · exact .same
    · exact .waiting

theorem observe_true {w : PathWatch} {s : Sample Ip}
    (h : (w.observe s.now s.acks s.sent s.silence).2 = true) :
    w.MayHop s .unanswered ∧ (w.observe s.now s.acks s.sent s.silence).1 = w := by
  unfold observe at h ⊢
  split at h
  · cases h
  · next hacks =>
    rw [if_neg hacks]
    split at h
    · cases h
    · next hsent =>
      rw [if_neg hsent]
      obtain ⟨hsilence, hbackoff⟩ := by simpa [Option.all_eq_true] using h
      have hpos : 0 < s.silence.1 := Nat.lt_of_lt_of_le (by decide) s.silence.2.1
      -- packets first seen unanswered at this tick have not waited at all
      cases hsince : w.unansweredSince with
      | none => simp [hsince] at hsilence; omega
      | some since =>
        rw [hsince, Option.getD_some] at hsilence
        refine ⟨.unanswered hsince hsilence hbackoff, ?_⟩
        cases w
        simp_all

end PathWatch

variable [DecidableEq Ip]

/-- One round of `watch_path`, with the reason of the hop if there is one. -/
def PathWatch.handle (w : PathWatch) (s : Sample Ip) : PathWatch × Option Reason :=
  match s.event with
  | .socketTrouble =>
    if w.mayHopNow s.now then (w.hopped s.now s.silence, some .socketLostPath) else (w, none)
  | .networkChanged none _ => (w, none)
  | .networkChanged (some source) current =>
    if current = some source ∨ w.mayHopNow s.now = false then (w, none)
    else (w.hopped s.now s.silence, some .networkChanged)
  | .tick =>
    let observed := w.observe s.now s.acks s.sent s.silence
    if observed.2 then (observed.1.hopped s.now s.silence, some .unanswered)
    else (observed.1, none)

structure Hop where
  time : Nat
  reason : Reason
  deriving DecidableEq, Repr

/-- The watcher with the time and the counters it has seen last, and its hops so far. -/
structure Watcher where
  watch : PathWatch
  now : Nat
  acks : Nat
  sent : Nat
  hops : List Hop
  deriving DecidableEq

def Watcher.start : Watcher := ⟨.default, 0, 0, 0, []⟩

/-- The next event comes no earlier, with counters that have not gone down. -/
structure Watcher.Step (w : Watcher) (s : Sample Ip) (w' : Watcher) : Prop where
  now_le : w.now ≤ s.now
  acks_le : w.acks ≤ s.acks
  sent_le : w.sent ≤ s.sent
  eq : w' = ⟨(w.watch.handle s).1, s.now, s.acks, s.sent,
    w.hops ++ ((w.watch.handle s).2.map (Hop.mk s.now)).toList⟩

/-- The event is a tick that sees a new ACK. -/
def Watcher.NewAck (w : Watcher) (s : Sample Ip) : Prop :=
  s.event = .tick ∧ s.acks ≠ w.watch.acks

namespace PathWatch

theorem handle_none {w w' : PathWatch} {s : Sample Ip} (h : w.handle s = (w', none)) :
    w.Stays s w' := by
  unfold handle at h
  split at h
  · split at h <;> cases h
    exact .same
  · cases h
    exact .same
  · split at h <;> cases h
    exact .same
  · next htick =>
    cases hobs : (w.observe s.now s.acks s.sent s.silence).2 with
    | true =>
      rw [if_pos hobs] at h
      cases h
    | false =>
      rw [if_neg (by simp [hobs])] at h
      cases h
      exact observe_stays htick

theorem handle_some {w w' : PathWatch} {s : Sample Ip} {reason : Reason}
    (h : w.handle s = (w', some reason)) :
    w.MayHop s reason ∧ w' = w.hopped s.now s.silence := by
  unfold handle at h
  split at h
  · split at h <;> cases h
    next hmay => exact ⟨.requested (by decide) (mayHopNow_iff.mp hmay), rfl⟩
  · cases h
  · split at h <;> cases h
    next hnot =>
      have hmay : w.mayHopNow s.now = true := by
        simpa using fun hfalse => hnot (Or.inr hfalse)
      exact ⟨.requested (by decide) (mayHopNow_iff.mp hmay), rfl⟩
  · cases hobs : (w.observe s.now s.acks s.sent s.silence).2 with
    | false =>
      rw [if_neg (by simp [hobs])] at h
      cases h
    | true =>
      obtain ⟨hmay, heq⟩ := observe_true hobs
      rw [if_pos hobs, heq] at h
      cases h
      exact ⟨hmay, rfl⟩

end PathWatch

/-- What the watcher keeps: packets that count as unanswered were seen so after the last hop,
unless the backoff is at least the least silence. -/
structure Watcher.Inv (w : Watcher) : Prop where
  backoff_le : w.watch.backoff ≤ maxHopBackoff
  hop_le : ∀ hop, w.watch.lastHop = some hop → hop ≤ w.now
  spaced : ∀ hop, w.watch.lastHop = some hop → minSilence ≤ w.watch.backoff ∨
    ∀ since, w.watch.unansweredSince = some since → hop ≤ since
  last : w.hops.getLast?.map Hop.time = w.watch.lastHop

theorem Watcher.Step.inv {w w' : Watcher} {s : Sample Ip} (h : w.Step s w') (hw : w.Inv) :
    w'.Inv := by
  obtain ⟨hnow, -, -, rfl⟩ := h
  have hle : ∀ hop, w.watch.lastHop = some hop → hop ≤ s.now :=
    fun hop hhop => (hw.hop_le hop hhop).trans hnow
  rcases hr : w.watch.handle s with ⟨watch, reason | _⟩
  · -- no hop: only a new ACK touches the backoff, and it forgets what was unanswered
    cases PathWatch.handle_none hr with
    | same => exact ⟨hw.backoff_le, hle, hw.spaced, by simpa using hw.last⟩
    | newAck => exact ⟨Nat.zero_le _, hle, fun _ _ => Or.inr (by simp), by simpa using hw.last⟩
    | waiting =>
      refine ⟨hw.backoff_le, hle, fun hop hhop => ?_, by simpa using hw.last⟩
      refine (hw.spaced hop hhop).imp_right fun hsince since heq => ?_
      cases hs : w.watch.unansweredSince with
      | none =>
        simp only [hs, Option.getD_none, Option.some.injEq] at heq
        exact heq ▸ hle hop hhop
      | some t =>
        simp only [hs, Option.getD_some, Option.some.injEq] at heq
        exact heq ▸ hsince t hs
  · next reason =>
    obtain ⟨-, rfl⟩ := PathWatch.handle_some hr
    have hsilence := s.silence.2
    refine ⟨Nat.min_le_right _ _, ?_, fun _ _ => Or.inl ?_, by simp [PathWatch.hopped]⟩
    · rintro hop ⟨⟩
      exact Nat.le_refl _
    · simp only [PathWatch.hopped]
      omega

/-- Two consecutive hops. -/
def Spaced (a b : Hop) : Prop :=
  a.time + minHopInterval ≤ b.time ∧ (b.reason = .unanswered → a.time + minSilence ≤ b.time)

omit [DecidableEq Ip] in
/-- A hop comes late enough after the last one. -/
theorem PathWatch.MayHop.spaced {w : Watcher} {s : Sample Ip} {reason : Reason} {last : Hop}
    (h : w.watch.MayHop s reason) (hw : w.Inv) (hlast : w.watch.lastHop = some last.time)
    (hle : last.time ≤ s.now) : Spaced last ⟨s.now, reason⟩ := by
  have hsilence := s.silence.2.1
  have hmin : minHopInterval ≤ minSilence := by decide
  cases h with
  | requested hreason hinterval =>
    have := hinterval _ hlast
    exact ⟨by dsimp only; omega, fun h => absurd h hreason⟩
  | unanswered hsince hs hbackoff =>
    have hapart : last.time + minSilence ≤ s.now := by
      have := hbackoff _ hlast
      rcases hw.spaced _ hlast with h | h
      · omega
      · have := h _ hsince
        omega
    exact ⟨by dsimp only; omega, fun _ => hapart⟩

theorem Watcher.Step.isChain {w w' : Watcher} {s : Sample Ip} (h : w.Step s w') (hw : w.Inv)
    (hchain : w.hops.IsChain Spaced) : w'.hops.IsChain Spaced := by
  obtain ⟨hnow, -, -, rfl⟩ := h
  rcases hr : w.watch.handle s with ⟨watch, _ | reason⟩
  · simpa using hchain
  · obtain ⟨hmay, -⟩ := PathWatch.handle_some hr
    refine hchain.append (.singleton _) ?_
    intro last hlast hop hhop
    cases hhop
    have hhop : w.watch.lastHop = some last.time := by
      rw [← hw.last, hlast, Option.map_some]
    exact hmay.spaced hw hhop ((hw.hop_le _ hhop).trans hnow)

theorem Watcher.Step.backoff_le {w w' : Watcher} {s : Sample Ip} (h : w.Step s w') (hw : w.Inv)
    (hack : ¬ w.NewAck s) : w.watch.backoff ≤ w'.watch.backoff := by
  obtain ⟨-, -, -, rfl⟩ := h
  have hmax := hw.backoff_le
  rcases hr : w.watch.handle s with ⟨watch, _ | reason⟩
  · cases PathWatch.handle_none hr with
    | same => exact Nat.le_refl _
    | newAck htick hnew => exact absurd ⟨htick, hnew⟩ hack
    | waiting => exact Nat.le_refl _
  · obtain ⟨-, rfl⟩ := PathWatch.handle_some hr
    simp only [PathWatch.hopped]
    omega

/-- Hops are at least a second apart, those for unanswered packets three seconds after any
other, and they back off to at most thirty seconds until a new ACK. -/
theorem hops_rate_limited (samples : List (Sample Ip)) (w : Watcher)
    (h : Trace Watcher.Step .start samples w) :
    w.hops.IsChain (fun a b => a.time + 1 * second ≤ b.time ∧
      (b.reason = .unanswered → a.time + 3 * second ≤ b.time)) ∧
    w.watch.backoff ≤ 30 * second ∧
    ∀ (more : List (Sample Ip)) (w' : Watcher),
      Trace (fun v s v' => v.Step s v' ∧ ¬ v.NewAck s) w more w' →
      w.watch.backoff ≤ w'.watch.backoff := by
  have hstart : Watcher.start.Inv :=
    ⟨Nat.zero_le _, by simp [Watcher.start, PathWatch.default],
      by simp [Watcher.start, PathWatch.default], rfl⟩
  obtain ⟨hinv, hchain⟩ := h.invariant (P := fun w => w.Inv ∧ w.hops.IsChain Spaced)
    ⟨hstart, .nil⟩ fun hs hw => ⟨hs.inv hw.1, hs.isChain hw.1 hw.2⟩
  refine ⟨hchain, hinv.backoff_le, fun more w' hmore => ?_⟩
  exact hmore.related (R := fun v v' => v.watch.backoff ≤ v'.watch.backoff) hinv
    (fun hs hv => hs.1.inv hv) (fun _ => Nat.le_refl _) Nat.le_trans
    fun hs hv => hs.1.backoff_le hv hs.2

/-- A hop for unanswered packets three seconds in, and one for a dead socket a second later. -/
theorem hops_rate_limited_two_hops :
    ∃ w : Watcher, w.hops = [Hop.mk (3 * second) .unanswered, Hop.mk (4 * second) .socketLostPath] ∧
      w.watch.backoff ≤ 30 * second ∧
      w.hops.IsChain (fun a b => a.time + 1 * second ≤ b.time ∧
        (b.reason = .unanswered → a.time + 3 * second ≤ b.time)) ∧
      ∃ (s : Sample Unit) (w' : Watcher), w.Step s w' ∧ w.watch.backoff ≤ w'.watch.backoff := by
  let sample (event : Event Unit) (now : Nat) : Sample Unit := ⟨event, now, 0, 1, silence 0⟩
  let w₁ : Watcher := ⟨⟨0, 0, some 0, none, 0⟩, 0, 0, 1, []⟩
  let w₂ : Watcher := ⟨⟨0, 0, some 0, some (3 * second), 3 * second⟩, 3 * second, 0, 1,
    [⟨3 * second, .unanswered⟩]⟩
  let w₃ : Watcher := ⟨⟨0, 0, some 0, some (4 * second), 6 * second⟩, 4 * second, 0, 1,
    [⟨3 * second, .unanswered⟩, ⟨4 * second, .socketLostPath⟩]⟩
  let w₄ : Watcher := ⟨⟨0, 0, some 0, some (5 * second), 12 * second⟩, 5 * second, 0, 1,
    w₃.hops ++ [⟨5 * second, .networkChanged⟩]⟩
  have h₁ : Watcher.start.Step (sample .tick 0) w₁ :=
    ⟨by decide, by decide, by decide, by decide +kernel⟩
  have h₂ : w₁.Step (sample .tick (3 * second)) w₂ :=
    ⟨by decide, by decide, by decide, by decide +kernel⟩
  have h₃ : w₂.Step (sample .socketTrouble (4 * second)) w₃ :=
    ⟨by decide, by decide, by decide, by decide +kernel⟩
  have h₄ : w₃.Step (sample (.networkChanged (some ()) none) (5 * second)) w₄ :=
    ⟨by decide, by decide, by decide, by decide +kernel⟩
  obtain ⟨hchain, hbackoff, hmore⟩ :=
    hops_rate_limited _ w₃ (.stepL h₁ (.stepL h₂ (.single h₃)))
  exact ⟨w₃, rfl, hbackoff, hchain, _, w₄, h₄, hmore _ w₄ (.single ⟨h₄, fun h => nomatch h.1⟩)⟩

end Hush.Roam
