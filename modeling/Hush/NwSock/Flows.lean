import Hush.Lib.SocketAddr
import Hush.Lib.Trace
import Mathlib.Logic.Function.Basic

/-! Flows and guards of the Network.framework transport, as an interleaving of the threads that
adopt and drop with the shim's queue. -/
namespace Hush.NwSock
open Hush.Lib

abbrev FlowId := Nat

/-- The form quinn expects addresses in for the endpoint's family. -/
def canonical (ipv6 : Bool) (addr : SocketAddr) : SocketAddr :=
  match ipv6, addr with
  | true, .v4 ip port => .new (.v6 (IpAddr.toIpv6Mapped ip)) port
  | false, .v6 ip port _ _ =>
    match IpAddr.toIpv4Mapped ip with
    | some ip => .new (.v4 ip) port
    | none => addr
  | _, _ => addr

/-- A guard from the moment `adopt` has counted it, and what its thread does next. -/
inductive Guard
  | counted (peer : SocketAddr)
  | found (peer : SocketAddr) (flow : FlowId)
  | live (peer : SocketAddr)
  /-- The last guard of the peer is being dropped. -/
  | uncounted (peer : SocketAddr)
  | closing (peer : SocketAddr) (flow : FlowId)
  | gone
  deriving DecidableEq, Repr

/-- The guard is among those that `protected` counts for the peer. -/
def Guard.holds (peer : SocketAddr) : Guard → Bool
  | .counted p | .found p _ | .live p => p = peer
  | .uncounted _ | .closing _ _ | .gone => false

/-- The guard was the peer's last one and its drop has not closed the flow yet. -/
def Guard.drops (peer : SocketAddr) : Guard → Bool
  | .uncounted p | .closing p _ => p = peer
  | .counted _ | .found _ _ | .live _ | .gone => false

/-- What the shim's serial queue is doing, between two critical sections. -/
inductive Task
  | idle
  /-- `flow_ready` has found the flow and calls `on_flow`. -/
  | onFlow (flow : FlowId)
  | recorded (flow : FlowId) (peer : SocketAddr)
  | linked (flow : FlowId) (peer : SocketAddr)
  | protecting (flow : FlowId) (peer : SocketAddr)
  /-- `take_flow` has taken the flow and `destroy_flow` calls `on_close`. -/
  | taken (flow : FlowId)
  | unlinked (flow : FlowId) (peer : SocketAddr)
  deriving DecidableEq, Repr

/-- The maps of `Inner` (`protectedPeers` is its `protected`), the shim's flows with their
`protected` marks, and who is where. -/
structure State where
  flows : SocketAddr → Option FlowId
  peers : FlowId → Option SocketAddr
  protectedPeers : SocketAddr → Option Nat
  shim : FlowId → Option Bool
  nextId : FlowId
  task : Task
  guards : List Guard

def State.start : State :=
  ⟨fun _ => none, fun _ => none, fun _ => none, fun _ => none, 0, .idle, []⟩

/-- `nwudp_protect_flow`: a flow that is gone is ignored. -/
def protectFlow (shim : FlowId → Option Bool) (flow : FlowId) : FlowId → Option Bool :=
  Function.update shim flow ((shim flow).map fun _ => true)

@[grind =] theorem protectFlow_apply (shim : FlowId → Option Bool) (flow other : FlowId) :
    protectFlow shim flow other =
      if other = flow then (shim flow).map fun _ => true else shim other := by
  simp [protectFlow, Function.update_apply]

@[grind =>] theorem protectFlow_self {shim : FlowId → Option Bool} {flow : FlowId}
    (h : (shim flow).isSome) : protectFlow shim flow flow = some true := by
  obtain ⟨mark, hmark⟩ := Option.isSome_iff_exists.mp h
  simp [protectFlow, hmark]

@[grind =>] theorem protectFlow_keeps {shim : FlowId → Option Bool} {other : FlowId}
    (h : shim other = some true) (flow : FlowId) : protectFlow shim flow other = some true := by
  by_cases hflow : other = flow
  · subst hflow
    exact protectFlow_self (by rw [h]; rfl)
  · rw [protectFlow_apply, if_neg hflow, h]

/-- `adopt`: the peer is registered first. -/
def State.count (s : State) (peer : SocketAddr) : State :=
  { s with
    protectedPeers := Function.update s.protectedPeers peer
      (some ((s.protectedPeers peer).getD 0 + 1))
    guards := s.guards ++ [.counted peer] }

/-- The guard that comes from looking for the peer's flow in `adopt`. -/
def State.found (s : State) (peer : SocketAddr) : Guard :=
  match s.flows peer with
  | some flow => .found peer flow
  | none => .live peer

/-- The first critical section of `drop`: the map after it, and whether the guard was the last. -/
def State.uncount (s : State) (peer : SocketAddr) : (SocketAddr → Option Nat) × Guard :=
  match s.protectedPeers peer with
  | none => (s.protectedPeers, .gone)
  | some guards =>
    if 0 < guards - 1 then
      (Function.update s.protectedPeers peer (some (guards - 1)), .gone)
    else (Function.update s.protectedPeers peer none, .uncounted peer)

/-- The guard that comes from looking for the peer's flow in `drop`. -/
def State.toClose (s : State) (peer : SocketAddr) : Guard :=
  match s.flows peer with
  | some flow => .closing peer flow
  | none => .gone

/-- `on_close`'s second critical section: a flow recorded since then stays. -/
def forgetFlow (flows : SocketAddr → Option FlowId) (flow : FlowId) (peer : SocketAddr) :
    SocketAddr → Option FlowId :=
  if flows peer = some flow then Function.update flows peer none else flows

@[grind =] theorem forgetFlow_apply (flows : SocketAddr → Option FlowId) (flow : FlowId)
    (peer other : SocketAddr) :
    forgetFlow flows flow peer other =
      if other = peer ∧ flows peer = some flow then none else flows other := by
  unfold forgetFlow
  split <;> simp_all [Function.update_apply]

/-- The critical sections and shim calls. -/
inductive Action
  | adopt (peer : SocketAddr)
  | adoptLooks (peer : SocketAddr)
  | adoptProtects (peer : SocketAddr) (flow : FlowId)
  | uncount (peer : SocketAddr)
  | dropLooks (peer : SocketAddr)
  /-- A drop calls `nwudp_close_flow`, which only queues the close. -/
  | close (peer : SocketAddr) (flow : FlowId)
  | newFlow
  | ready (flow : FlowId)
  | insertFlow
  | insertPeer
  | checkProtected
  | protect
  /-- The queue closes a flow: a drop asked for it, the reaper takes it, or it failed. -/
  | take (flow : FlowId)
  | removePeer
  | removeFlow
  deriving DecidableEq, Repr

/-- `endpoint` is the remote endpoint of a flow's connection. -/
inductive Step (ipv6 : Bool) (endpoint : FlowId → Option SocketAddr) :
    State → Action → State → Prop
  | adopt {s : State} (addr : SocketAddr) :
      Step ipv6 endpoint s (.adopt (canonical ipv6 addr)) (s.count (canonical ipv6 addr))
  | adoptLooks {s : State} {peer : SocketAddr} {front back : List Guard}
      (h : s.guards = front ++ .counted peer :: back) :
      Step ipv6 endpoint s (.adoptLooks peer) { s with guards := front ++ s.found peer :: back }
  | adoptProtects {s : State} {peer : SocketAddr} {flow : FlowId} {front back : List Guard}
      (h : s.guards = front ++ .found peer flow :: back) :
      Step ipv6 endpoint s (.adoptProtects peer flow)
        { s with
          shim := protectFlow s.shim flow, guards := front ++ .live peer :: back }
  | uncount {s : State} {peer : SocketAddr} {front back : List Guard}
      (h : s.guards = front ++ .live peer :: back) :
      Step ipv6 endpoint s (.uncount peer) { s with
        protectedPeers := (s.uncount peer).1, guards := front ++ (s.uncount peer).2 :: back }
  | dropLooks {s : State} {peer : SocketAddr} {front back : List Guard}
      (h : s.guards = front ++ .uncounted peer :: back) :
      Step ipv6 endpoint s (.dropLooks peer) { s with guards := front ++ s.toClose peer :: back }
  | close {s : State} {peer : SocketAddr} {flow : FlowId} {front back : List Guard}
      (h : s.guards = front ++ .closing peer flow :: back) :
      Step ipv6 endpoint s (.close peer flow) { s with guards := front ++ .gone :: back }
  | newFlow {s : State} (hidle : s.task = .idle) :
      Step ipv6 endpoint s .newFlow { s with
        nextId := s.nextId + 1, shim := Function.update s.shim (s.nextId + 1) (some false) }
  | ready {s : State} {flow : FlowId} (hidle : s.task = .idle)
      (hflow : (s.shim flow).isSome) :
      Step ipv6 endpoint s (.ready flow) { s with task := .onFlow flow }
  | insertFlow {s : State} {flow : FlowId} {addr : SocketAddr} (h : s.task = .onFlow flow)
      (haddr : endpoint flow = some addr) :
      Step ipv6 endpoint s .insertFlow { s with
        flows := Function.update s.flows (canonical ipv6 addr) (some flow)
        task := .recorded flow (canonical ipv6 addr) }
  | noAddress {s : State} {flow : FlowId} (h : s.task = .onFlow flow)
      (haddr : endpoint flow = none) :
      Step ipv6 endpoint s .insertFlow { s with task := .idle }
  | insertPeer {s : State} {flow : FlowId} {peer : SocketAddr}
      (h : s.task = .recorded flow peer) :
      Step ipv6 endpoint s .insertPeer { s with
        peers := Function.update s.peers flow (some peer), task := .linked flow peer }
  | checkProtected {s : State} {flow : FlowId} {peer : SocketAddr}
      (h : s.task = .linked flow peer) :
      Step ipv6 endpoint s .checkProtected { s with
        task := if (s.protectedPeers peer).isSome then .protecting flow peer else .idle }
  | protect {s : State} {flow : FlowId} {peer : SocketAddr}
      (h : s.task = .protecting flow peer) :
      Step ipv6 endpoint s .protect { s with
        shim := protectFlow s.shim flow, task := .idle }
  | take {s : State} {flow : FlowId} (hidle : s.task = .idle) (hflow : (s.shim flow).isSome) :
      Step ipv6 endpoint s (.take flow) { s with
        shim := Function.update s.shim flow none, task := .taken flow }
  | removePeer {s : State} {flow : FlowId} (h : s.task = .taken flow) :
      Step ipv6 endpoint s .removePeer { s with
        peers := Function.update s.peers flow none
        task := match s.peers flow with
          | some peer => .unlinked flow peer
          | none => .idle }
  | removeFlow {s : State} {flow : FlowId} {peer : SocketAddr}
      (h : s.task = .unlinked flow peer) :
      Step ipv6 endpoint s .removeFlow { s with
        flows := forgetFlow s.flows flow peer, task := .idle }

end Hush.NwSock
