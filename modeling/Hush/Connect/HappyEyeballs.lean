import Mathlib.Data.Finset.Insert
import Mathlib.Data.Finset.Erase
import Mathlib.Data.List.Basic
import Mathlib.Tactic.Common
import Hush.Lib.SocketAddr
import Hush.Lib.Trace

/-! The client's race over the resolved addresses of a host: `connect_any_inner`. -/
namespace Hush.Connect

open Hush.Lib

/-- `HAPPY_EYEBALLS_DELAY`, in milliseconds. -/
def happyEyeballsDelay : Nat := 250

/-- The loop of `happy_eyeballs_order`; once one queue is empty it only takes from the other. -/
def interleave {α : Type*} : List α → List α → List α
  | [], fallback => fallback
  | addr :: preferred, [] => addr :: preferred
  | addr :: preferred, addr' :: fallback => addr :: addr' :: interleave preferred fallback

def happyEyeballsOrder (addrs : List SocketAddr) : List SocketAddr :=
  let (v6, v4) := addrs.partition SocketAddr.isIpv6
  interleave v6 v4

theorem interleave_perm {α : Type*} (preferred fallback : List α) :
    (interleave preferred fallback).Perm (preferred ++ fallback) := by
  fun_induction interleave preferred fallback with
  | case1 fallback => exact .refl _
  | case2 addr preferred => simp
  | case3 addr preferred addr' fallback ih =>
    exact ((ih.cons addr').trans List.perm_middle.symm).cons addr

theorem happyEyeballsOrder_perm (addrs : List SocketAddr) :
    (happyEyeballsOrder addrs).Perm addrs := by
  simp only [happyEyeballsOrder, List.partition_eq_filter_filter]
  exact (interleave_perm _ _).trans (List.filter_append_perm _ _)

/-- The loop as it is written: each turn takes from both queues what they have. -/
def orderLoop {α : Type*} (ordered : List α) : List α → List α → List α
  | [], [] => ordered
  | [], addr :: fallback => orderLoop (ordered ++ [addr]) [] fallback
  | addr :: preferred, [] => orderLoop (ordered ++ [addr]) preferred []
  | addr :: preferred, addr' :: fallback => orderLoop (ordered ++ [addr, addr']) preferred fallback

theorem orderLoop_eq {α : Type*} (ordered preferred fallback : List α) :
    orderLoop ordered preferred fallback = ordered ++ interleave preferred fallback := by
  fun_induction orderLoop ordered preferred fallback with
  | case1 ordered => simp [interleave]
  | case2 ordered addr fallback ih => rw [ih]; simp [interleave]
  | case3 ordered addr preferred ih => rw [ih]; cases preferred <;> simp [interleave]
  | case4 ordered addr preferred addr' fallback ih => rw [ih]; simp [interleave]

theorem happyEyeballsOrder_eq (addrs : List SocketAddr) :
    happyEyeballsOrder addrs =
        interleave (addrs.filter SocketAddr.isIpv6) (addrs.filter (!·.isIpv6)) ∧
      happyEyeballsOrder addrs =
        orderLoop [] (addrs.filter SocketAddr.isIpv6) (addrs.filter (!·.isIpv6)) := by
  rw [orderLoop_eq, happyEyeballsOrder, List.partition_eq_filter_filter]
  exact ⟨rfl, rfl⟩

/-- Two elements in front move the positions of the others by two. -/
theorem findIdxs_cons_cons {α : Type*} (p : α → Bool) (a b : α) (rest : List α) :
    (a :: b :: rest).findIdxs p =
      (if p a then [0] else []) ++ (if p b then [1] else []) ++ (rest.findIdxs p).map (· + 2) := by
  rw [← List.findIdxs_start, List.findIdxs_cons, List.findIdxs_cons]
  cases p a <;> cases p b <;> rfl

section Interleave
variable {α : Type*} {p : α → Bool} {preferred fallback : List α}
  (hp : ∀ a ∈ preferred, p a = true) (hf : ∀ a ∈ fallback, p a = false)
include hp hf

theorem filter_interleave :
    (interleave preferred fallback).filter p = preferred ∧
      (interleave preferred fallback).filter (!p ·) = fallback := by
  fun_induction interleave preferred fallback with
  | case1 fallback => simp_all
  | case2 addr preferred => simp_all
  | case3 addr preferred addr' fallback ih => simp_all

/-- The elements of both kinds alternate for as long as there are both. -/
theorem findIdxs_interleave (k : Nat) :
    (∀ i ∈ ((interleave preferred fallback).findIdxs p)[k]?,
      ∀ j ∈ ((interleave preferred fallback).findIdxs (!p ·))[k]?, i < j) ∧
    ∀ j ∈ ((interleave preferred fallback).findIdxs (!p ·))[k]?,
      ∀ i ∈ ((interleave preferred fallback).findIdxs p)[k + 1]?, j < i := by
  fun_induction interleave preferred fallback generalizing k with
  | case1 fallback =>
    have hnil : fallback.findIdxs p = [] := List.findIdxs_eq_nil_iff.mpr hf
    simp [hnil]
  | case2 addr preferred =>
    have hnil : (addr :: preferred).findIdxs (!p ·) = [] :=
      List.findIdxs_eq_nil_iff.mpr fun a ha => by simp [hp a ha]
    simp [hnil]
  | case3 addr preferred addr' fallback ih =>
    obtain ⟨haddr, hp⟩ := List.forall_mem_cons.mp hp
    obtain ⟨haddr', hf⟩ := List.forall_mem_cons.mp hf
    simp only [findIdxs_cons_cons, haddr, haddr']
    cases k with
    | zero => simp
    | succ k =>
      obtain ⟨hsame, hnext⟩ := ih hp hf k
      simpa using ⟨hsame, hnext⟩

end Interleave

/-- A stable interleaving: the addresses of each family keep their order, and the k-th of IPv6
comes before the k-th of IPv4, which comes before the next of IPv6. -/
theorem happy_eyeballs_interleaves (addrs : List SocketAddr) :
    (happyEyeballsOrder addrs).Perm addrs ∧
      (happyEyeballsOrder addrs).filter SocketAddr.isIpv6 = addrs.filter SocketAddr.isIpv6 ∧
      (happyEyeballsOrder addrs).filter (!·.isIpv6) = addrs.filter (!·.isIpv6) ∧
      ∀ k, (∀ i ∈ ((happyEyeballsOrder addrs).findIdxs SocketAddr.isIpv6)[k]?,
          ∀ j ∈ ((happyEyeballsOrder addrs).findIdxs (!·.isIpv6))[k]?, i < j) ∧
        ∀ j ∈ ((happyEyeballsOrder addrs).findIdxs (!·.isIpv6))[k]?,
          ∀ i ∈ ((happyEyeballsOrder addrs).findIdxs SocketAddr.isIpv6)[k + 1]?, j < i := by
  have hp : ∀ a ∈ addrs.filter SocketAddr.isIpv6, a.isIpv6 = true := fun a ha =>
    (List.mem_filter.mp ha).2
  have hf : ∀ a ∈ addrs.filter (!·.isIpv6), a.isIpv6 = false := fun a ha => by
    simpa using (List.mem_filter.mp ha).2
  refine ⟨happyEyeballsOrder_perm addrs, ?_⟩
  rw [(happyEyeballsOrder_eq addrs).1]
  exact ⟨(filter_interleave hp hf).1, (filter_interleave hp hf).2, findIdxs_interleave hp hf⟩

theorem happyEyeballsOrder_ne_nil {addrs : List SocketAddr} (h : addrs ≠ []) :
    happyEyeballsOrder addrs ≠ [] := by
  intro hnil
  have hperm := happyEyeballsOrder_perm addrs
  rw [hnil] at hperm
  exact h (List.nil_perm.mp hperm)

example : happyEyeballsOrder [.v4 1 443, .v6 1 443 0 0, .v4 2 443, .v6 2 443 0 0] =
    [.v6 1 443 0 0, .v4 1 443, .v6 2 443 0 0, .v4 2 443] := by decide

/-! `R` is what an attempt that succeeds yields, `E` its error and `J` the error of a task that
was cancelled or panicked. -/
variable {R E J : Type*}

/-- What `join_next` hands out for one task. -/
abbrev Joined (R E J : Type*) := Except J (Except E R)

def Joined.success? : Joined R E J → Option R
  | .ok (.ok conn) => some conn
  | .ok (.error _) => none
  | .error _ => none

inductive Error (E J : Type*)
  | message (text : String)
  | attempt (err : E)
  | join (err : J)

/-- Where `connect_any_inner` stands: at the head of its loop, in one of its two waits, or done. -/
inductive Phase (R E J : Type*)
  | head
  | waiting
  | returned (result : Except (Error E J) R)

/-- The local variables of `connect_any_inner`. A task is named by the number of tasks spawned
before it. `started` lists the addresses spawned so far, task by task, and `seen` what
`join_next` has handed out. Returning drops the `JoinSet`, which aborts the tasks left in it. -/
structure State (R E J : Type*) where
  pending : List SocketAddr
  attempts : Finset Nat
  lastErr : Option (Error E J)
  nextAttemptAt : Option Nat
  phase : Phase R E J
  started : List SocketAddr
  seen : List (Nat × Joined R E J)

namespace State

/-- Pops the next address, if any, spawns its attempt and sets the next deadline. -/
def spawnNext (now : Nat) (s : State R E J) : State R E J :=
  match s.pending with
  | [] => { s with nextAttemptAt := none }
  | addr :: pending =>
    { s with
      pending := pending
      attempts := insert s.started.length s.attempts
      started := s.started ++ [addr]
      nextAttemptAt := if pending.isEmpty then none else some (now + happyEyeballsDelay) }

/-- The statements before the loop, on the addresses `lookup_host` found. -/
def start (host : String) (port : UInt16) (addrs : List SocketAddr) (now : Nat) :
    Except (Error E J) (State R E J) :=
  if addrs.isEmpty then .error (.message s!"resolve {host}:{port}: no addresses")
  else .ok (spawnNext now
    { pending := happyEyeballsOrder addrs, attempts := ∅, lastErr := none,
      nextAttemptAt := none, phase := .head, started := [], seen := [] })

/-- The head of the loop, up to the wait. -/
def turn (host : String) (port : UInt16) (now : Nat) (s : State R E J) : State R E J :=
  if s.attempts = ∅ then
    if s.pending.isEmpty then
      { s with phase := .returned (.error (s.lastErr.getD
          (.message s!"connect to {host}:{port}: no attempts completed"))) }
    else s.spawnNext now
  else { s with phase := .waiting }

/-- `join_next` hands out the result of a task; both waits treat it alike. -/
def join (task : Nat) (result : Joined R E J) (s : State R E J) : State R E J :=
  let s := { s with attempts := s.attempts.erase task, seen := s.seen ++ [(task, result)] }
  match result with
  | .ok (.ok conn) => { s with phase := .returned (.ok conn) }
  | .ok (.error err) => { s with lastErr := some (.attempt err), phase := .head }
  | .error err => { s with lastErr := some (.join err), phase := .head }

/-- The deadline has passed. -/
def timer (now : Nat) (s : State R E J) : State R E J := { s.spawnNext now with phase := .head }

end State

/-- The first result seen that was a success. -/
def State.firstSuccess (s : State R E J) : Option R := s.seen.findSome? (·.2.success?)

inductive Event (R E J : Type*)
  | turn (now : Nat)
  | joined (task : Nat) (result : Joined R E J)
  | drained
  | timer (now : Nat)

/-- One step of the loop. When a task has ended and the deadline has passed, `select!` takes
either. `join_next` of an empty `JoinSet` is `None` at once in the wait without a deadline, and
is not polled in the other. -/
inductive Step (host : String) (port : UInt16) :
    State R E J → Event R E J → State R E J → Prop
  | turn {s : State R E J} (now : Nat) (hs : s.phase = .head) :
      Step host port s (.turn now) (s.turn host port now)
  | joined {s : State R E J} {task : Nat} (result : Joined R E J) (hs : s.phase = .waiting)
      (htask : task ∈ s.attempts) : Step host port s (.joined task result) (s.join task result)
  | drained {s : State R E J} (hs : s.phase = .waiting) (hattempts : s.attempts = ∅)
      (hnext : s.nextAttemptAt = none) : Step host port s .drained { s with phase := .head }
  | timer {s : State R E J} {deadline now : Nat} (hs : s.phase = .waiting)
      (hnext : s.nextAttemptAt = some deadline) (hnow : deadline ≤ now) :
      Step host port s (.timer now) (s.timer now)

/-- What the results seen so far are, in each phase. -/
def Seen (s : State R E J) : Prop :=
  match s.phase with
  | .head => s.firstSuccess = none
  | .waiting => s.attempts ≠ ∅ ∧ s.firstSuccess = none
  | .returned (.ok conn) => s.firstSuccess = some conn
  | .returned (.error _) => s.attempts = ∅ ∧ s.pending = [] ∧ s.firstSuccess = none

/-- The pending queue, the tasks in flight and the deadline fit together: an address is pending,
or its attempt is in flight, or its result was seen. -/
structure Racing (addrs : List SocketAddr) (s : State R E J) : Prop where
  order : s.started ++ s.pending = happyEyeballsOrder addrs
  inFlight : ∀ task, task ∈ s.attempts ↔ task < s.started.length ∧ task ∉ s.seen.map Prod.fst
  joined : ∀ x ∈ s.seen, x.1 < s.started.length
  deadline : s.nextAttemptAt = none ↔ s.pending = []
  seen : Seen s

namespace State

variable {s : State R E J} {addr : SocketAddr} {rest : List SocketAddr} {now : Nat}

theorem spawnNext_of_nil (h : s.pending = []) :
    s.spawnNext now = { s with nextAttemptAt := none } := by
  simp only [spawnNext, h]

theorem spawnNext_of_cons (h : s.pending = addr :: rest) :
    s.spawnNext now =
      { s with
        pending := rest
        attempts := insert s.started.length s.attempts
        started := s.started ++ [addr]
        nextAttemptAt := if rest.isEmpty then none else some (now + happyEyeballsDelay) } := by
  simp only [spawnNext, h]

@[simp] theorem spawnNext_phase : (s.spawnNext now).phase = s.phase := by
  cases h : s.pending <;> simp only [spawnNext, h]

@[simp] theorem spawnNext_seen : (s.spawnNext now).seen = s.seen := by
  cases h : s.pending <;> simp only [spawnNext, h]

theorem start_eq {host : String} {port : UInt16} {addrs : List SocketAddr}
    (h : start host port addrs now = .ok s) : s.phase = .head ∧ s.seen = [] := by
  unfold start at h
  split at h
  · cases h
  · cases h
    exact ⟨spawnNext_phase, spawnNext_seen⟩

end State

namespace Racing

variable {host : String} {port : UInt16} {addrs : List SocketAddr} {s t : State R E J}
  {event : Event R E J} {now : Nat}

/-- Spawning moves the next address from the queue to the tasks in flight. -/
theorem spawnNext (now : Nat) (h : Racing addrs s) (hphase : s.phase = .head ∨ s.phase = .waiting) :
    Racing addrs { s.spawnNext now with phase := .head } := by
  have hfailed : s.firstSuccess = none := by
    have hseen := h.seen
    rcases hphase with hp | hp <;> simp only [Seen, hp] at hseen
    exacts [hseen, hseen.2]
  cases hpending : s.pending with
  | nil =>
    rw [State.spawnNext_of_nil hpending]
    exact ⟨h.order, h.inFlight, h.joined, by simp [hpending], hfailed⟩
  | cons addr rest =>
    rw [State.spawnNext_of_cons hpending]
    have hfresh : s.started.length ∉ s.seen.map Prod.fst := by
      intro hmem
      obtain ⟨x, hx, hlen⟩ := List.mem_map.mp hmem
      exact absurd (h.joined x hx) (by omega)
    refine ⟨?_, ?_, ?_, ?_, hfailed⟩
    · simpa [hpending] using h.order
    · intro task
      simp only [Finset.mem_insert, h.inFlight, List.length_append, List.length_singleton]
      grind
    · intro x hx
      have := h.joined x hx
      simp only [List.length_append, List.length_singleton]
      omega
    · simp [List.isEmpty_iff]

theorem start (hs : State.start host port addrs now = .ok s) : Racing addrs s := by
  unfold State.start at hs
  split at hs
  · cases hs
  · rename_i haddrs
    obtain ⟨addr, rest, hcons⟩ := List.exists_cons_of_ne_nil
      (happyEyeballsOrder_ne_nil (mt List.isEmpty_iff.mpr haddrs))
    cases hs
    rw [State.spawnNext_of_cons hcons]
    refine ⟨hcons.symm, ?_, by simp, by simp [List.isEmpty_iff], rfl⟩
    intro task
    simp

theorem turn (h : Racing addrs s) (hs : s.phase = .head) :
    Racing addrs (s.turn host port now) := by
  have hseen := h.seen
  simp only [Seen, hs] at hseen
  unfold State.turn
  split_ifs with hattempts hpending
  · exact ⟨h.order, h.inFlight, h.joined, h.deadline,
      hattempts, List.isEmpty_iff.mp hpending, hseen⟩
  · have hhead : (s.spawnNext now).phase = .head := by rw [State.spawnNext_phase, hs]
    have := h.spawnNext now (.inl hs)
    rwa [← hhead] at this
  · exact ⟨h.order, h.inFlight, h.joined, h.deadline, hattempts, hseen⟩

/-- A result seen leaves the set in flight; only a success ends the race here. -/
theorem join {task : Nat} {result : Joined R E J} (h : Racing addrs s) (hs : s.phase = .waiting)
    (htask : task ∈ s.attempts) : Racing addrs (s.join task result) := by
  have hseen := h.seen
  simp only [Seen, hs] at hseen
  have hinFlight : ∀ i, i ∈ s.attempts.erase task ↔
      i < s.started.length ∧ i ∉ (s.seen ++ [(task, result)]).map Prod.fst := by
    intro i
    simp only [Finset.mem_erase, h.inFlight, List.map_append, List.map_cons, List.map_nil,
      List.mem_append, List.mem_singleton]
    tauto
  have hjoined : ∀ x ∈ s.seen ++ [(task, result)], x.1 < s.started.length := by
    intro x hx
    rcases List.mem_append.mp hx with hx | hx
    · exact h.joined x hx
    · rw [List.mem_singleton.mp hx]
      exact ((h.inFlight task).mp htask).1
  have hfirst : (s.seen ++ [(task, result)]).findSome? (·.2.success?) = result.success? := by
    rw [List.findSome?_append, show s.seen.findSome? (·.2.success?) = none from hseen.2]
    simp
  rcases result with err | err | conn <;>
    exact ⟨h.order, hinFlight, hjoined, h.deadline, hfirst⟩

theorem step (hstep : Step host port s event t) (h : Racing addrs s) : Racing addrs t := by
  cases hstep with
  | turn now hs => exact h.turn hs
  | joined result hs htask => exact h.join hs htask
  | drained hs hattempts hnext =>
    have hseen := h.seen
    simp only [Seen, hs] at hseen
    exact absurd hattempts hseen.1
  | timer hs hnext hnow => exact h.spawnNext _ (.inr hs)

/-- Once nothing is pending or in flight, every position has been joined. -/
theorem all_failed (h : Racing addrs s) (hattempts : s.attempts = ∅)
    (hseen : s.firstSuccess = none) :
    ∀ task < s.started.length, ∃ result, (task, result) ∈ s.seen ∧ result.success? = none := by
  intro task htask
  have hnot : task ∉ s.attempts := by simp [hattempts]
  have hmem : task ∈ s.seen.map Prod.fst := by
    by_contra hno
    exact hnot ((h.inFlight task).mpr ⟨htask, hno⟩)
  obtain ⟨⟨_, result⟩, hx, rfl⟩ := List.mem_map.mp hmem
  exact ⟨result, hx, List.findSome?_eq_none_iff.mp hseen _ hx⟩

end Racing

/-! The events of a run. -/

/-- What `join_next` has handed out in these events. -/
def joins (events : List (Event R E J)) : List (Nat × Joined R E J) :=
  events.filterMap fun
    | .joined task result => some (task, result)
    | .turn _ | .drained | .timer _ => none

theorem mem_joins {events : List (Event R E J)} {task : Nat} {result : Joined R E J} :
    (task, result) ∈ joins events ↔ .joined task result ∈ events := by
  simp only [joins, List.mem_filterMap]
  constructor
  · rintro ⟨event, hmem, heq⟩
    cases event <;> cases heq
    exact hmem
  · exact fun hmem => ⟨_, hmem, rfl⟩

section Events

variable {host : String} {port : UInt16} {s t : State R E J} {event : Event R E J}
  {events : List (Event R E J)}

theorem turn_seen (s : State R E J) (now : Nat) : (s.turn host port now).seen = s.seen := by
  unfold State.turn
  split_ifs
  · rfl
  · exact State.spawnNext_seen
  · rfl

theorem seen_step (h : Step host port s event t) : t.seen = s.seen ++ joins [event] := by
  cases h with
  | turn now => rw [turn_seen]; exact (List.append_nil _).symm
  | joined result => rcases result with err | err | conn <;> rfl
  | drained => exact (List.append_nil _).symm
  | timer => exact State.spawnNext_seen.trans (List.append_nil _).symm

theorem seen_run (h : Trace (Step host port) s events t) : t.seen = s.seen ++ joins events := by
  induction h with
  | refl => exact (List.append_nil _).symm
  | stepL hs _ ih =>
    rw [ih, seen_step hs, List.append_assoc, joins, joins, joins, ← List.filterMap_append,
      List.singleton_append]

theorem no_step_of_returned {result : Except (Error E J) R} (hs : s.phase = .returned result) :
    ¬ Step host port s event t := by
  intro h
  cases h with
  | turn _ hp | joined _ hp | drained hp | timer hp => rw [hs] at hp; cases hp

theorem run_of_returned {result : Except (Error E J) R} (hs : s.phase = .returned result)
    (h : Trace (Step host port) s events t) : events = [] := by
  cases h with
  | refl => rfl
  | stepL hstep => exact absurd hstep (no_step_of_returned hs)

/-- A run that has returned did so by its last step. -/
theorem last_step_of_returned {result : Except (Error E J) R}
    (h : Trace (Step host port) s events t) (hs : s.phase = .head)
    (ht : t.phase = .returned result) :
    ∃ before event u, events = before ++ [event] ∧ Step host port u event t := by
  suffices hlast : events ≠ [] → ∃ before event u, events = before ++ [event] ∧
      Step host port u event t by
    refine hlast fun hnil => ?_
    subst hnil
    cases h
    simp [hs] at ht
  clear hs
  induction h with
  | refl => exact fun hne => absurd rfl hne
  | @stepL s u t event events hstep htrace ih =>
    intro _
    by_cases hnil : events = []
    · subst hnil
      cases htrace
      exact ⟨[], event, s, rfl, hstep⟩
    · obtain ⟨before, last, v, rfl, hv⟩ := ih ht hnil
      exact ⟨event :: before, last, v, rfl, hv⟩

/-- Only a success that is joined makes `connect_any_inner` return `Ok`. -/
theorem joined_of_returned_ok {conn : R} (h : Step host port s event t)
    (ht : t.phase = .returned (.ok conn)) : ∃ task, event = .joined task (.ok (.ok conn)) := by
  cases h with
  | turn now hs =>
    unfold State.turn at ht
    split_ifs at ht
    · cases ht
    · rw [State.spawnNext_phase, hs] at ht
      cases ht
  | @joined task result =>
    rcases result with err | err | conn' <;> cases ht
    exact ⟨task, rfl⟩
  | drained => cases ht
  | timer => cases ht

theorem returned_of_joined_ok {task : Nat} {conn : R}
    (h : Step host port s (.joined task (.ok (.ok conn))) t) :
    t.phase = .returned (.ok conn) := by
  cases h
  rfl

theorem returned_ok_iff {conn : R} (h : Trace (Step host port) s events t) (hs : s.phase = .head) :
    t.phase = .returned (.ok conn) ↔
      ∃ before task, events = before ++ [.joined task (.ok (.ok conn))] := by
  constructor
  · intro ht
    obtain ⟨before, event, u, rfl, hstep⟩ := last_step_of_returned h hs ht
    obtain ⟨task, rfl⟩ := joined_of_returned_ok hstep ht
    exact ⟨before, task, rfl⟩
  · rintro ⟨before, task, rfl⟩
    obtain ⟨u, _, hlast⟩ := h.of_append
    cases hlast with
    | stepL hstep hrest =>
      cases hrest
      exact returned_of_joined_ok hstep

/-- A success is the last event of its run. -/
theorem last_of_success {before after : List (Event R E J)} {task : Nat} {conn : R}
    (h : Trace (Step host port) s (before ++ .joined task (.ok (.ok conn)) :: after) t) :
    after = [] := by
  obtain ⟨u, _, hafter⟩ := h.of_append
  cases hafter with
  | stepL hstep hrest => exact run_of_returned (returned_of_joined_ok hstep) hrest

end Events

/-- The step starts an attempt at the address, the first of those that were pending, and sets the
deadline for the next one. -/
structure Starts (now : Nat) (addr : SocketAddr) (rest : List SocketAddr) (s t : State R E J) :
    Prop where
  pending : s.pending = addr :: rest
  started : t.started = s.started ++ [addr]
  inFlight : t.attempts = insert s.started.length s.attempts
  left : t.pending = rest
  deadline : t.nextAttemptAt = if rest = [] then none else some (now + happyEyeballsDelay)
  phase : t.phase = .head

theorem starts_spawnNext {s : State R E J} {addr : SocketAddr} {rest : List SocketAddr}
    (now : Nat) (h : s.pending = addr :: rest) :
    Starts now addr rest s { s.spawnNext now with phase := .head } := by
  rw [State.spawnNext_of_cons h]
  exact ⟨h, rfl, rfl, rfl, by simp [List.isEmpty_iff], rfl⟩

/-- From the head of the loop with nothing in flight, the next pending address is started by
every step, without a wait. -/
def StartsAtOnce (host : String) (port : UInt16) (s : State R E J) : Prop :=
  s.phase = .head → s.attempts = ∅ → ∀ addr rest, s.pending = addr :: rest →
    (∃ event t, Step host port s event t) ∧ ∀ event t, Step host port s event t →
      ∃ now, event = .turn now ∧ Starts now addr rest s t

theorem startsAtOnce (host : String) (port : UInt16) (s : State R E J) :
    StartsAtOnce host port s := by
  intro hs hattempts addr rest hpending
  refine ⟨⟨_, _, .turn 0 hs⟩, ?_⟩
  intro event t hstep
  cases hstep with
  | turn now _ =>
    have hturn : s.turn host port now = { s.spawnNext now with phase := .head } := by
      simp [State.turn, hattempts, State.spawnNext_of_cons hpending, hpending, hs]
    exact ⟨now, rfl, hturn ▸ starts_spawnNext now hpending⟩
  | joined result hw => simp [hs] at hw
  | drained hw => simp [hs] at hw
  | timer hw => simp [hs] at hw

/-- In a wait the result of every attempt in flight is taken, and from the deadline on the timer,
which starts the next address. -/
structure Responsive (host : String) (port : UInt16) (s : State R E J) : Prop where
  joins : ∀ task ∈ s.attempts, ∀ result, ∃ t, Step host port s (.joined task result) t
  timer : ∀ deadline, s.nextAttemptAt = some deadline → ∃ addr rest, s.pending = addr :: rest ∧
    ∀ now ≥ deadline, (∃ t, Step host port s (.timer now) t) ∧
      ∀ t, Step host port s (.timer now) t → Starts now addr rest s t

theorem Racing.responsive {host : String} {port : UInt16} {addrs : List SocketAddr}
    {s : State R E J} (h : Racing addrs s) (hs : s.phase = .waiting) :
    Responsive host port s := by
  refine ⟨fun task htask result => ⟨_, .joined result hs htask⟩, fun deadline hnext => ?_⟩
  have hpending : s.pending ≠ [] := by
    intro hnil
    rw [h.deadline.mpr hnil] at hnext
    cases hnext
  obtain ⟨addr, rest, hcons⟩ := List.exists_cons_of_ne_nil hpending
  refine ⟨addr, rest, hcons, fun now hnow => ⟨⟨_, .timer hs hnext hnow⟩, fun t hstep => ?_⟩⟩
  cases hstep
  exact starts_spawnNext now hcons

/-- The race starts the addresses in order and each position once, ends with the first success
it sees, and gives up only when every position has failed. -/
theorem every_address_tried (host : String) (port : UInt16) (addrs : List SocketAddr) (now : Nat)
    (haddrs : addrs ≠ []) :
    (happyEyeballsOrder addrs).Perm addrs ∧
    ∃ s₀ : State R E J, State.start host port addrs now = .ok s₀ ∧
      ∀ events s, Trace (Step host port) s₀ events s →
        s.started ++ s.pending = happyEyeballsOrder addrs ∧
        (∀ task, task ∈ s.attempts ↔
          task < s.started.length ∧ ∀ result, .joined task result ∉ events) ∧
        (∀ conn, s.phase = .returned (.ok conn) ↔
          ∃ before task, events = before ++ [.joined task (.ok (.ok conn))]) ∧
        (∀ before after task conn, events = before ++ .joined task (.ok (.ok conn)) :: after →
          after = []) ∧
        (∀ err, s.phase = .returned (.error err) → s.started = happyEyeballsOrder addrs ∧
          ∀ task < s.started.length, ∃ result, .joined task result ∈ events ∧
            result.success? = none) ∧
        (s.pending ≠ [] → s.nextAttemptAt.isSome) ∧
        StartsAtOnce host port s ∧
        (s.phase = .waiting → s.attempts ≠ ∅ ∧ Responsive host port s) := by
  refine ⟨happyEyeballsOrder_perm addrs, ?_⟩
  obtain ⟨s₀, hs₀⟩ : ∃ s₀ : State R E J, State.start host port addrs now = .ok s₀ := by
    simp [State.start, List.isEmpty_iff, haddrs]
  refine ⟨s₀, hs₀, fun events s htrace => ?_⟩
  have h : Racing addrs s :=
    htrace.invariant (P := Racing addrs) (Racing.start hs₀) Racing.step
  obtain ⟨hhead, hnone⟩ := State.start_eq hs₀
  have hevents : s.seen = joins events := by rw [seen_run htrace, hnone, List.nil_append]
  have hseen := h.seen
  refine ⟨h.order, ?_, fun conn => returned_ok_iff htrace hhead, ?_, ?_, ?_,
    startsAtOnce host port s, ?_⟩
  · intro task
    rw [h.inFlight, hevents]
    simp [mem_joins]
  · rintro before after task conn rfl
    exact last_of_success htrace
  · intro err hphase
    simp only [Seen, hphase] at hseen
    obtain ⟨hattempts, hpending, hfirst⟩ := hseen
    refine ⟨by simpa [hpending] using h.order, fun task htask => ?_⟩
    obtain ⟨result, hmem, hfail⟩ := h.all_failed hattempts hfirst task htask
    exact ⟨result, mem_joins.mp (hevents ▸ hmem), hfail⟩
  · intro hpending
    exact Option.isSome_iff_ne_none.mpr (mt h.deadline.mp hpending)
  · intro hphase
    simp only [Seen, hphase] at hseen
    exact ⟨hseen.1, h.responsive hphase⟩

/-- The first attempt hangs until the timer starts the second, fails, and the second succeeds. -/
def localhostRace : List (Event Nat Unit Unit) :=
  [.turn 0, .timer 250, .turn 250, .joined 0 (.ok (.error ())), .turn 260, .joined 1 (.ok (.ok 7))]

theorem every_address_tried_localhost :
    ∃ s₀ s : State Nat Unit Unit,
      State.start "localhost" 443 [.v4 0x7f000001 443, .v6 1 443 0 0] 0 = .ok s₀ ∧
      Trace (Step "localhost" 443) s₀ localhostRace s ∧ s.phase = .returned (.ok 7) ∧
      s.started ++ s.pending = [.v6 1 443 0 0, .v4 0x7f000001 443] ∧ 0 ∉ s.attempts := by
  obtain ⟨s₀, hs₀, h⟩ := (every_address_tried (R := Nat) (E := Unit) (J := Unit) "localhost" 443
    [.v4 0x7f000001 443, .v6 1 443 0 0] 0 (by simp)).2
  have hrun : ∃ s, Trace (Step "localhost" 443) s₀ localhostRace s := by
    cases hs₀
    exact ⟨_, .stepL (.turn 0 rfl) <| .stepL (.timer rfl rfl (Nat.le_refl 250)) <|
      .stepL (.turn 250 rfl) <| .stepL (.joined _ rfl (by decide)) <|
      .stepL (.turn 260 rfl) <| .stepL (.joined _ rfl (by decide)) .refl⟩
  obtain ⟨s, hrun⟩ := hrun
  obtain ⟨horder, hflight, hok, -⟩ := h _ s hrun
  refine ⟨s₀, s, hs₀, hrun, (hok 7).mpr ⟨localhostRace.dropLast, 1, rfl⟩, horder, ?_⟩
  intro hmem
  exact ((hflight 0).mp hmem).2 (.ok (.error ())) (by simp [localhostRace])

end Hush.Connect
