import Hush.Lib.Processes
import Hush.NwSock.Flows
import Mathlib.Algebra.Ring.Nat
import Mathlib.Data.List.Forall2

/-! The inbox between the shim's callbacks and quinn's polls, with the waker that joins them. -/
namespace Hush.NwSock.Inbox
open Hush.Lib

/-- A datagram with the peer it came from. -/
abbrev Datagram := SocketAddr × List UInt8

def inboxLimit : Nat := 16 <<< 20

/-- A call of `on_recv`, between two critical sections. -/
inductive Call
  | started (flow : FlowId) (data : List UInt8)
  | found (flow : FlowId) (peer : SocketAddr) (data : List UInt8)
  | pushed
  deriving DecidableEq, Repr

/-- Where the last call of `poll_recv` is. Each registration of a waker has a number of its
own. -/
inductive Poll
  | never
  | drained
  | registered (k : Nat)
  | ready
  | pending (k : Nat)
  deriving DecidableEq, Repr

/-- `poll_recv` holds the inbox until it returns. -/
def Poll.holdsInbox : Poll → Bool
  | .drained | .registered _ => true
  | .never | .ready | .pending _ => false

structure RecvMeta where
  addr : SocketAddr
  len : Nat
  stride : Nat
  deriving DecidableEq, Repr

/-- What a poll leaves in a buffer of so many bytes, and in the entry of `meta` beside it. -/
structure Delivery where
  capacity : Nat
  contents : List UInt8
  info : RecvMeta
  deriving DecidableEq, Repr

/-- A datagram that is longer than the buffer is cut. -/
def deliver (capacity : Nat) (d : Datagram) : Delivery :=
  let len := min d.2.length capacity
  ⟨capacity, d.2.take len, ⟨d.1, len, len⟩⟩

/-- The loop of `poll_recv` over its buffers, given by their lengths, and the entries of `meta`. -/
def drain : List Nat → Nat → List Datagram → Nat → List Delivery × List Datagram × Nat
  | capacity :: bufs, metas + 1, d :: queue, bytes =>
    let (out, rest) := drain bufs metas queue (bytes - d.2.length)
    (deliver capacity d :: out, rest)
  | _, _, queue, bytes => ([], queue, bytes)

/-- The inbox and the waker of `Inner`, and who is where. `woken` are the registrations whose
wakers have been woken. -/
structure State where
  net : NwSock.State
  queue : List Datagram
  bytes : Nat
  waker : Option Nat
  registrations : Nat
  woken : List Nat
  calls : List Call
  poll : Poll

def State.start (net : NwSock.State) : State := ⟨net, [], 0, none, 0, [], [], .never⟩

inductive Action
  /-- A critical section of `on_flow` or `on_close`, or of another thread on the flows. -/
  | net (a : NwSock.Action)
  | recv (flow : FlowId) (data : List UInt8)
  | lookup (flow : FlowId) (data : List UInt8)
  | push (flow : FlowId) (peer : SocketAddr) (data : List UInt8)
  | overflow (flow : FlowId) (peer : SocketAddr) (data : List UInt8)
  /-- The last critical section of `on_recv` takes the waker and wakes it. -/
  | wake (k : Option Nat)
  | poll (bufs : List Nat) (metas : Nat) (out : List Delivery)
  | register (k : Nat)
  | finish (k : Nat) (wakes : Bool)

inductive Step (ipv6 : Bool) (endpoint : FlowId → Option SocketAddr) : State → Action → State → Prop
  | net {s : State} {a : NwSock.Action} {net : NwSock.State}
      (h : NwSock.Step ipv6 endpoint s.net a net) :
      Step ipv6 endpoint s (.net a) { s with net }
  | recv {s : State} (flow : FlowId) (data : List UInt8) :
      Step ipv6 endpoint s (.recv flow data) { s with calls := s.calls ++ [.started flow data] }
  | lookup {s : State} {flow : FlowId} {data : List UInt8} {peer : SocketAddr}
      {front back : List Call} (h : s.calls = front ++ .started flow data :: back)
      (hpeer : s.net.peers flow = some peer) :
      Step ipv6 endpoint s (.lookup flow data)
        { s with calls := front ++ .found flow peer data :: back }
  | unknown {s : State} {flow : FlowId} {data : List UInt8} {front back : List Call}
      (h : s.calls = front ++ .started flow data :: back) (hpeer : s.net.peers flow = none) :
      Step ipv6 endpoint s (.lookup flow data) { s with calls := front ++ back }
  | push {s : State} {flow : FlowId} {peer : SocketAddr} {data : List UInt8}
      {front back : List Call} (h : s.calls = front ++ .found flow peer data :: back)
      (hlock : s.poll.holdsInbox = false) (hroom : s.bytes + data.length ≤ inboxLimit) :
      Step ipv6 endpoint s (.push flow peer data) { s with
        queue := s.queue ++ [(peer, data)], bytes := s.bytes + data.length
        calls := front ++ .pushed :: back }
  | overflow {s : State} {flow : FlowId} {peer : SocketAddr} {data : List UInt8}
      {front back : List Call} (h : s.calls = front ++ .found flow peer data :: back)
      (hlock : s.poll.holdsInbox = false) (hfull : inboxLimit < s.bytes + data.length) :
      Step ipv6 endpoint s (.overflow flow peer data) { s with calls := front ++ back }
  | wake {s : State} {front back : List Call} (h : s.calls = front ++ .pushed :: back) :
      Step ipv6 endpoint s (.wake s.waker) { s with
        waker := none, woken := s.woken ++ s.waker.toList, calls := front ++ back }
  | poll {s : State} {out : List Delivery} {queue : List Datagram} {bytes : Nat} (bufs : List Nat)
      (metas : Nat) (hlock : s.poll.holdsInbox = false)
      (h : drain bufs metas s.queue s.bytes = (out, queue, bytes)) :
      Step ipv6 endpoint s (.poll bufs metas out) { s with
        queue, bytes, poll := if 0 < out.length then .ready else .drained }
  | register {s : State} (h : s.poll = .drained) :
      Step ipv6 endpoint s (.register s.registrations) { s with
        waker := some s.registrations, registrations := s.registrations + 1
        poll := .registered s.registrations }
  | finish {s : State} {k : Nat} (h : s.poll = .registered k) :
      Step ipv6 endpoint s (.finish k (!s.queue.isEmpty)) { s with
        woken := if s.queue.isEmpty then s.woken else s.woken ++ [k], poll := .pending k }

section Step

variable {ipv6 : Bool} {endpoint : FlowId → Option SocketAddr} {s t : State} {a : Action}
  {xs : List Action}

/-! The count of the bytes. -/

def total (queue : List Datagram) : Nat := (queue.map (·.2.length)).sum

/-- The counter is that of the queue, and within the limit. -/
def State.Counted (s : State) : Prop := s.bytes = total s.queue ∧ s.bytes ≤ inboxLimit

/-- The buffer holds the datagram as far as it has room, and the entry names its peer and how
many bytes there are. -/
structure Delivers (d : Datagram) (o : Delivery) : Prop where
  addr : o.info.addr = d.1
  contents : o.contents = d.2.take o.capacity
  len : o.info.len = o.contents.length
  stride : o.info.stride = o.contents.length

theorem delivers_deliver (capacity : Nat) (d : Datagram) : Delivers d (deliver capacity d) := by
  have hlen : (d.2.take (min d.2.length capacity)).length = min d.2.length capacity := by
    rw [List.length_take]
    omega
  refine ⟨rfl, ?_, hlen.symm, hlen.symm⟩
  show d.2.take (min d.2.length capacity) = d.2.take capacity
  rw [Nat.min_comm, ← List.take_eq_take_min]

/-- What a call of `poll_recv` with these buffers and entries takes off the queue: a datagram for
every buffer that has an entry, as long as there are datagrams, in order. -/
structure Polls (bufs : List Nat) (metas : Nat) (queue queue' : List Datagram)
    (out : List Delivery) : Prop where
  capacities : out.map Delivery.capacity = bufs.take (min metas queue.length)
  delivers : List.Forall₂ Delivers (queue.take out.length) out
  rest : queue' = queue.drop out.length

theorem drain_polls {bufs : List Nat} {metas : Nat} {queue queue' : List Datagram}
    {bytes bytes' : Nat} {out : List Delivery}
    (h : drain bufs metas queue bytes = (out, queue', bytes')) :
    Polls bufs metas queue queue' out := by
  induction bufs, metas, queue, bytes using drain.induct generalizing out with
  | case1 capacity bufs metas d queue bytes out' rest hrest ih =>
    rw [drain, hrest] at h
    cases h
    obtain ⟨hcap, hdel, hqueue⟩ := ih hrest
    refine ⟨?_, .cons (delivers_deliver capacity d) hdel, hqueue⟩
    rw [List.length_cons, Nat.succ_min_succ, List.take_succ_cons, ← hcap]
    rfl
  | case2 bufs metas queue bytes hnone =>
    rw [drain] at h
    · cases h
      refine ⟨?_, .nil, rfl⟩
      -- A buffer, an entry or a datagram is missing.
      cases bufs with
      | nil => rw [List.take_nil]; rfl
      | cons capacity bufs =>
        cases metas with
        | zero => rw [Nat.zero_min]; rfl
        | succ metas =>
          cases queue' with
          | nil => rfl
          | cons d queue => exact absurd rfl (hnone capacity bufs metas d queue rfl rfl)
    · exact hnone

/-- The loop counts down what it takes off. -/
theorem drain_bytes {bufs : List Nat} {metas : Nat} {queue queue' : List Datagram}
    {bytes bytes' : Nat} {out : List Delivery}
    (h : drain bufs metas queue bytes = (out, queue', bytes')) (hbytes : bytes = total queue) :
    bytes' = total queue' ∧ bytes' ≤ bytes := by
  induction bufs, metas, queue, bytes using drain.induct generalizing out with
  | case1 capacity bufs metas d queue bytes out' rest hrest ih =>
    rw [drain, hrest] at h
    cases h
    rw [total, List.map_cons, List.sum_cons] at hbytes
    obtain ⟨hcount, hle⟩ := ih hrest (by rw [total]; omega)
    exact ⟨hcount, by omega⟩
  | case2 bufs metas queue bytes hnone =>
    rw [drain] at h
    · cases h
      exact ⟨hbytes, Nat.le_refl _⟩
    · exact hnone

theorem counted_step (h : Step ipv6 endpoint s a t) (hs : s.Counted) : t.Counted := by
  obtain ⟨hbytes, hle⟩ := hs
  cases h with
  | push _ _ hroom =>
    refine ⟨?_, hroom⟩
    simp only [total, List.map_append, List.sum_append, List.map_singleton, List.sum_singleton]
    rw [hbytes, total]
  | poll bufs metas _ hdrain =>
    obtain ⟨hcount, hdrained⟩ := drain_bytes hdrain hbytes
    exact ⟨hcount, Nat.le_trans hdrained hle⟩
  | _ => exact ⟨hbytes, hle⟩

/-! The waker. -/

/-- A poll that waits has been woken, or it is registered and whoever has put something into the
queue is still to wake it. -/
def State.Alert (s : State) : Prop :=
  match s.poll with
  | .never | .drained | .ready => True
  | .registered k => k ∈ s.woken ∨ s.waker = some k
  | .pending k => k ∈ s.woken ∨ (s.waker = some k ∧ (s.queue = [] ∨ Call.pushed ∈ s.calls))

/-- A step outside `poll_recv` keeps a waiting poll alert if it wakes the waker it takes, and
leaves no datagram without a call that is still to wake. -/
theorem State.Alert.of_poll_eq (hs : s.Alert) (hpoll : t.poll = s.poll)
    (hwoken : ∀ k ∈ s.woken, k ∈ t.woken)
    (hwaker : ∀ k, s.waker = some k → k ∈ t.woken ∨ t.waker = some k)
    (hcalls : t.waker ≠ none → s.queue = [] ∨ Call.pushed ∈ s.calls →
      t.queue = [] ∨ Call.pushed ∈ t.calls) : t.Alert := by
  unfold State.Alert at hs ⊢
  rw [hpoll]
  cases hp : s.poll with
  | never => trivial
  | drained => trivial
  | ready => trivial
  | registered k =>
    rw [hp] at hs
    exact hs.elim (fun hk => Or.inl (hwoken k hk)) (hwaker k)
  | pending k =>
    rw [hp] at hs
    rcases hs with hk | ⟨hslot, hqueue⟩
    · exact Or.inl (hwoken k hk)
    · rcases hwaker k hslot with hk | hk
      · exact Or.inl hk
      · exact Or.inr ⟨hk, hcalls (by simp [hk]) hqueue⟩

theorem pushed_mem_of_replace {front back : List Call} {c c' : Call} (hc : c ≠ .pushed)
    (h : Call.pushed ∈ front ++ c :: back) : Call.pushed ∈ front ++ c' :: back := by
  rcases mem_middle.mp h with h | h
  · exact absurd h.symm hc
  · exact mem_middle.mpr (Or.inr h)

theorem pushed_mem_of_remove {front back : List Call} {c : Call} (hc : c ≠ .pushed)
    (h : Call.pushed ∈ front ++ c :: back) : Call.pushed ∈ front ++ back := by
  rcases mem_middle.mp h with h | h
  · exact absurd h.symm hc
  · exact h

theorem alert_step (h : Step ipv6 endpoint s a t) (hs : s.Alert) : t.Alert := by
  cases h with
  | net => exact hs
  | recv =>
    refine hs.of_poll_eq rfl (fun _ => id) (fun _ => Or.inr) fun _ hc => ?_
    exact hc.imp_right (List.mem_append_left _)
  | lookup hcalls =>
    refine hs.of_poll_eq rfl (fun _ => id) (fun _ => Or.inr) fun _ hc => ?_
    rw [hcalls] at hc
    exact hc.imp_right fun hmem => pushed_mem_of_replace (by nofun) hmem
  | unknown hcalls | overflow hcalls =>
    refine hs.of_poll_eq rfl (fun _ => id) (fun _ => Or.inr) fun _ hc => ?_
    rw [hcalls] at hc
    exact hc.imp_right fun hmem => pushed_mem_of_remove (by nofun) hmem
  | push =>
    refine hs.of_poll_eq rfl (fun _ => id) (fun _ => Or.inr) fun _ _ => ?_
    exact Or.inr (mem_middle.mpr (Or.inl rfl))
  | wake =>
    refine hs.of_poll_eq rfl (fun _ => List.mem_append_left _) ?_ fun hnone => absurd rfl hnone
    exact fun k hk => Or.inl (by simp [hk])
  | poll =>
    unfold State.Alert
    dsimp only
    split <;> split at * <;> simp_all
  | register => exact Or.inr rfl
  | @finish k hpoll =>
    unfold State.Alert at hs ⊢
    rw [hpoll] at hs
    dsimp only at hs ⊢
    by_cases hqueue : s.queue.isEmpty
    · rw [if_pos hqueue]
      exact hs.imp_right fun hslot => ⟨hslot, Or.inl (List.isEmpty_iff.mp hqueue)⟩
    · rw [if_neg hqueue]
      exact Or.inl (List.mem_append_right _ List.mem_cons_self)

/-- The numbers of the registrations are not used again. -/
structure State.Fresh (s : State) : Prop where
  woken_lt : ∀ k ∈ s.woken, k < s.registrations
  waker_lt : ∀ k, s.waker = some k → k < s.registrations
  poll_lt : ∀ k, s.poll = .registered k ∨ s.poll = .pending k → k < s.registrations

theorem fresh_step (h : Step ipv6 endpoint s a t) (hs : s.Fresh) : t.Fresh := by
  obtain ⟨hwoken, hwaker, hpoll⟩ := hs
  cases h with
  | wake =>
    refine ⟨fun k hk => ?_, nofun, hpoll⟩
    rcases List.mem_append.mp hk with hk | hk
    · exact hwoken k hk
    · exact hwaker k (Option.mem_toList.mp hk)
  | poll => exact ⟨hwoken, hwaker, fun k hk => by dsimp only at hk; split at hk <;> simp at hk⟩
  | register =>
    refine ⟨fun k hk => Nat.lt_succ_of_lt (hwoken k hk), fun k hk => ?_, fun k hk => ?_⟩
    · cases hk
      exact Nat.lt_succ_self _
    · rcases hk with hk | hk <;> cases hk
      exact Nat.lt_succ_self _
  | @finish k hp =>
    have hk := hpoll k (Or.inl hp)
    refine ⟨fun j hj => ?_, hwaker, fun j hj => ?_⟩
    · dsimp only at hj
      split at hj
      · exact hwoken j hj
      · rcases List.mem_append.mp hj with hj | hj
        · exact hwoken j hj
        · rwa [List.mem_singleton.mp hj]
    · rcases hj with hj | hj <;> cases hj
      exact hk
  | _ => exact ⟨hwoken, hwaker, hpoll⟩

/-- The step wakes the waker of this registration. -/
def Action.wakes (k : Nat) : Action → Prop
  | .wake slot => slot = some k
  | .finish j wakes => j = k ∧ wakes = true
  | _ => False

theorem woken_step {k : Nat} (h : Step ipv6 endpoint s a t) (hk : k ∈ t.woken) :
    k ∈ s.woken ∨ a.wakes k := by
  cases h with
  | wake =>
    rcases List.mem_append.mp hk with hk | hk
    · exact Or.inl hk
    · exact Or.inr (Option.mem_toList.mp hk)
  | finish =>
    dsimp only at hk
    split at hk
    · exact Or.inl hk
    · next hqueue =>
      rcases List.mem_append.mp hk with hk | hk
      · exact Or.inl hk
      · exact Or.inr ⟨(List.mem_singleton.mp hk).symm, by simpa using hqueue⟩
  | _ => exact Or.inl hk

theorem woken_run {k : Nat} (h : Trace (Step ipv6 endpoint) s xs t) (hk : k ∈ t.woken) :
    k ∈ s.woken ∨ ∃ a ∈ xs, a.wakes k := by
  induction h with
  | refl => exact Or.inl hk
  | stepL hs _ ih =>
    rcases ih hk with hk | ⟨a, hmem, ha⟩
    · exact (woken_step hs hk).imp_right fun ha => ⟨_, List.mem_cons_self, ha⟩
    · exact Or.inr ⟨a, List.mem_cons_of_mem _ hmem, ha⟩

theorem registrations_step (h : Step ipv6 endpoint s a t) :
    t.registrations = s.registrations ∨
      (a = .register s.registrations ∧ t.registrations = s.registrations + 1 ∧
        t.woken = s.woken) := by
  cases h with
  | register => exact Or.inr ⟨rfl, rfl, rfl⟩
  | _ => exact Or.inl rfl

/-- Every number up to the last has been registered in the run, and was not woken before. -/
theorem registered_run {k : Nat} (h : Trace (Step ipv6 endpoint) s xs t) (hs : s.Fresh)
    (hle : s.registrations ≤ k) (hlt : k < t.registrations) :
    ∃ before after w, xs = before ++ .register k :: after ∧
      Trace (Step ipv6 endpoint) w after t ∧ k ∉ w.woken := by
  induction h with
  | refl => exact absurd hlt (Nat.not_lt.mpr hle)
  | @stepL s u t a xs hstep htrace ih =>
    by_cases hk : u.registrations ≤ k
    · obtain ⟨before, after, w, rfl, hw⟩ := ih (fresh_step hstep hs) hk hlt
      exact ⟨a :: before, after, w, rfl, hw⟩
    · rcases registrations_step hstep with heq | ⟨rfl, hsucc, hwoken⟩
      · omega
      · obtain rfl : k = s.registrations := by omega
        refine ⟨[], xs, u, rfl, htrace, ?_⟩
        rw [hwoken]
        exact fun hmem => Nat.lt_irrefl _ (hs.woken_lt _ hmem)

/-! The datagrams. -/

def Action.arrival : Action → Option Datagram
  | .push _ peer data => some (peer, data)
  | _ => none

def Action.deliveries : Action → List Delivery
  | .poll _ _ out => out
  | _ => []

/-- What a step delivers is the front of the queue. -/
theorem queue_step (h : Step ipv6 endpoint s a t) :
    ∃ front, s.queue ++ a.arrival.toList = front ++ t.queue ∧
      List.Forall₂ Delivers front a.deliveries := by
  cases h with
  | @poll out _ _ bufs metas _ hdrain =>
    obtain ⟨-, hdelivers, rfl⟩ := drain_polls hdrain
    exact ⟨s.queue.take out.length, by simp [Action.arrival], hdelivers⟩
  | push => exact ⟨[], rfl, .nil⟩
  | _ => exact ⟨[], by simp [Action.arrival], .nil⟩

/-- What has arrived has been delivered in its order, up to what is in the queue. -/
theorem queue_run (h : Trace (Step ipv6 endpoint) s xs t) :
    ∃ front, s.queue ++ xs.filterMap Action.arrival = front ++ t.queue ∧
      List.Forall₂ Delivers front (xs.flatMap Action.deliveries) := by
  induction h with
  | refl => exact ⟨[], by simp, .nil⟩
  | @stepL s u t a xs hstep _ ih =>
    obtain ⟨front, hqueue, hfront⟩ := queue_step hstep
    obtain ⟨front', hqueue', hfront'⟩ := ih
    refine ⟨front ++ front', ?_, List.rel_append hfront hfront'⟩
    have hcons : (a :: xs).filterMap Action.arrival =
        a.arrival.toList ++ xs.filterMap Action.arrival := by
      rw [List.filterMap_cons]
      cases a.arrival <;> rfl
    rw [hcons, ← List.append_assoc, hqueue, List.append_assoc, hqueue', List.append_assoc]

/-- A poll takes what it has room for, and is over if there was something. -/
theorem polls_step {bufs : List Nat} {metas : Nat} {out : List Delivery}
    (h : Step ipv6 endpoint s (.poll bufs metas out) t) :
    Polls bufs metas s.queue t.queue out ∧ (t.poll = .ready ↔ out ≠ []) := by
  cases h with
  | poll _ _ _ hdrain =>
    refine ⟨drain_polls hdrain, ?_⟩
    cases out <;> simp

/-- A call that has a peer found it under its flow. -/
theorem found_step {flow : FlowId} {peer : SocketAddr} {data : List UInt8}
    (h : Step ipv6 endpoint s a t) (hc : Call.found flow peer data ∈ t.calls) :
    Call.found flow peer data ∈ s.calls ∨
      (a = .lookup flow data ∧ s.net.peers flow = some peer) := by
  cases h with
  | recv =>
    rcases List.mem_append.mp hc with hc | hc
    · exact Or.inl hc
    · cases List.mem_singleton.mp hc
  | lookup hcalls hpeer =>
    rw [hcalls]
    rcases mem_middle.mp hc with hc | hc
    · cases hc
      exact Or.inr ⟨rfl, hpeer⟩
    · exact Or.inl (mem_middle.mpr (Or.inr hc))
  | push hcalls =>
    rw [hcalls]
    rcases mem_middle.mp hc with hc | hc
    · cases hc
    · exact Or.inl (mem_middle.mpr (Or.inr hc))
  | unknown hcalls | overflow hcalls | wake hcalls =>
    rw [hcalls]
    exact Or.inl (mem_middle.mpr (Or.inr hc))
  | _ => exact Or.inl hc

theorem found_run {flow : FlowId} {peer : SocketAddr} {data : List UInt8}
    (h : Trace (Step ipv6 endpoint) s xs t) (hc : Call.found flow peer data ∈ t.calls) :
    Call.found flow peer data ∈ s.calls ∨
      ∃ before after v, xs = before ++ .lookup flow data :: after ∧
        Trace (Step ipv6 endpoint) s before v ∧ v.net.peers flow = some peer := by
  induction h with
  | refl => exact Or.inl hc
  | @stepL s u t a xs hstep _ ih =>
    rcases ih hc with hc | ⟨before, after, v, rfl, htrace, hpeer⟩
    · refine (found_step hstep hc).imp_right ?_
      rintro ⟨rfl, hpeer⟩
      exact ⟨[], xs, s, rfl, .refl, hpeer⟩
    · exact Or.inr ⟨a :: before, after, v, rfl, .stepL hstep htrace, hpeer⟩

theorem found_of_push {flow : FlowId} {peer : SocketAddr} {data : List UInt8}
    (h : Step ipv6 endpoint s (.push flow peer data) t) :
    Call.found flow peer data ∈ s.calls := by
  cases h with
  | push hcalls =>
    rw [hcalls]
    exact mem_middle.mpr (Or.inl rfl)

end Step

section Run

variable {ipv6 : Bool} {endpoint : FlowId → Option SocketAddr} {net : NwSock.State} {t : State}
  {xs : List Action}

theorem counted_start : (State.start net).Counted := ⟨rfl, Nat.zero_le _⟩

theorem fresh_start : (State.start net).Fresh := by
  refine ⟨nofun, nofun, ?_⟩
  rintro k (hk | hk) <;> cases hk

/-- No datagram is stranded, duplicated or miscounted, in any interleaving. -/
theorem inbox_never_strands (h : Trace (Step ipv6 endpoint) (State.start net) xs t) :
    (t.bytes = (t.queue.map (·.2.length)).sum ∧ t.bytes ≤ inboxLimit) ∧
    (∃ front, xs.filterMap Action.arrival = front ++ t.queue ∧
      List.Forall₂ Delivers front (xs.flatMap Action.deliveries)) ∧
    (∀ before after bufs metas out, xs = before ++ .poll bufs metas out :: after →
      ∃ v w, Trace (Step ipv6 endpoint) (State.start net) before v ∧
        Trace (Step ipv6 endpoint) w after t ∧ Polls bufs metas v.queue w.queue out ∧
        (w.poll = .ready ↔ out ≠ [])) ∧
    (∀ before after flow peer data, xs = before ++ .push flow peer data :: after →
      ∃ earlier later v, before = earlier ++ .lookup flow data :: later ∧
        Trace (Step ipv6 endpoint) (State.start net) earlier v ∧
        v.net.peers flow = some peer) ∧
    (∀ k, t.poll = .pending k → t.calls = [] → t.queue ≠ [] →
      ∃ before after, xs = before ++ .register k :: after ∧ ∃ a ∈ after, a.wakes k) := by
  refine ⟨h.invariant counted_start counted_step, ?_, ?_, ?_, ?_⟩
  · obtain ⟨front, hqueue, hfront⟩ := queue_run h
    exact ⟨front, hqueue, hfront⟩
  · rintro before after bufs metas out rfl
    obtain ⟨v, hbefore, hafter⟩ := h.of_append
    cases hafter with
    | stepL hpoll hrest => exact ⟨v, _, hbefore, hrest, polls_step hpoll⟩
  · rintro before after flow peer data rfl
    obtain ⟨v, hbefore, hafter⟩ := h.of_append
    cases hafter with
    | stepL hpush _ =>
      rcases found_run hbefore (found_of_push hpush) with hstart | hfound
      · cases hstart
      · exact hfound
  · intro k hpoll hcalls hqueue
    have halert := h.invariant (P := State.Alert) trivial alert_step
    have hfresh := h.invariant fresh_start fresh_step
    have hwoken : k ∈ t.woken := by
      unfold State.Alert at halert
      rw [hpoll] at halert
      rcases halert with hk | ⟨-, hempty | hpushed⟩
      · exact hk
      · exact absurd hempty hqueue
      · rw [hcalls] at hpushed
        cases hpushed
    obtain ⟨before, after, w, hxs, hafter, hbefore⟩ :=
      registered_run h fresh_start (Nat.zero_le k) (hfresh.poll_lt k (Or.inr hpoll))
    exact ⟨before, after, hxs, (woken_run hafter hwoken).resolve_left hbefore⟩

end Run

/-! A client that waits when its first datagram comes, and has then only room for a part of it. -/

def server : SocketAddr := .new (.v4 0x7F000001) 22

def clientNet : NwSock.State :=
  { NwSock.State.start with
    flows := Function.update NwSock.State.start.flows server (some 1)
    peers := Function.update NwSock.State.start.peers 1 (some server) }

def wakesClient : List Action :=
  [.poll [1500] 1 [], .register 0, .finish 0 false, .recv 1 [7, 8], .lookup 1 [7, 8],
    .push 1 server [7, 8], .wake (some 0)]

def clientWoken : State :=
  ⟨clientNet, [(server, [7, 8])], 2, none, 1, [0], [], .pending 0⟩

def clientServed : State :=
  { clientWoken with queue := [], bytes := 0, poll := .ready }

theorem wakesClient_run :
    Trace (Step false fun _ => none) (State.start clientNet) wakesClient clientWoken := by
  have hstarted : [Call.started 1 [7, 8]] = [] ++ .started 1 [7, 8] :: [] := rfl
  have hfound : [Call.found 1 server [7, 8]] = [] ++ .found 1 server [7, 8] :: [] := rfl
  have hpushed : [Call.pushed] = [] ++ .pushed :: [] := rfl
  have hpeer : clientNet.peers 1 = some server := by simp [clientNet]
  exact .stepL (.poll [1500] 1 rfl rfl) <| .stepL (.register rfl) <| .stepL (.finish rfl) <|
    .stepL (.recv 1 [7, 8]) <| .stepL (.lookup hstarted hpeer) <|
    .stepL (.push hfound rfl (by decide)) <| .stepL (.wake hpushed) .refl

theorem servesClient_run :
    Trace (Step false fun _ => none) (State.start clientNet)
      (wakesClient ++ [.poll [1, 9] 4 [⟨1, [7], server, 1, 1⟩]]) clientServed :=
  wakesClient_run.append (.single (.poll [1, 9] 4 rfl rfl))

theorem inbox_wakes_client :
    (Trace (Step false fun _ => none) (State.start clientNet) wakesClient clientWoken ∧
      clientWoken.queue = [(server, [7, 8])] ∧
      ∃ before after, wakesClient = before ++ .register 0 :: after ∧ ∃ a ∈ after, a.wakes 0) ∧
    (∃ front, [(server, [7, 8])] = front ++ ([] : List Datagram) ∧
      List.Forall₂ Delivers front [⟨1, [7], server, 1, 1⟩]) ∧
    ∃ v w : State, Trace (Step false fun _ => none) (State.start clientNet) wakesClient v ∧
      Polls [1, 9] 4 v.queue w.queue [⟨1, [7], server, 1, 1⟩] ∧ w.poll = .ready :=
  have hserved := inbox_never_strands servesClient_run
  have ⟨v, w, hv, _, hpolls, hready⟩ := hserved.2.2.1 wakesClient [] [1, 9] 4 _ rfl
  ⟨⟨wakesClient_run, rfl,
      (inbox_never_strands wakesClient_run).2.2.2.2 0 rfl rfl (by simp [clientWoken])⟩,
    hserved.2.1, v, w, hv, hpolls, hready.mpr (by simp)⟩

end Hush.NwSock.Inbox
