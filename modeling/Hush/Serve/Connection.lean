import Hush.Lib.SocketAddr
import Hush.Lib.Trace
import Hush.Protocol.Messages

/-!
# An authenticated connection

The loop of `serve`, the listeners and the session that it starts, and the task that accepts
streams beside the session.
-/
namespace Hush.Serve
open Hush.Lib Hush.Protocol

/-- The part of the server's configuration that serving streams reads. -/
structure StreamConfig where
  allowTcpForwarding : Bool
  allowAgentForwarding : Bool
  maxSessionsPerConnection : Nat
  maxForwardsPerConnection : Nat
  maxForwardStreamsPerConnection : Nat
  deriving DecidableEq, Repr

/-- `IpAddr::is_loopback`. -/
def isLoopback : IpAddr → Bool
  | .v4 ip => ip >>> 24 = 127
  | .v6 ip => ip = 1

/-- The connection's server: its configuration and accounts, and the parser of addresses. -/
structure Server where
  config : StreamConfig
  isRoot : Bool
  currentUsername : String
  parseIp : String → Option IpAddr

def localhost : IpAddr := .v4 0x7f000001

def Server.listenIp (server : Server) (host : String) : Option IpAddr :=
  if host = "localhost" then some localhost
  else (server.parseIp host).filter isLoopback

def Server.mayListen (server : Server) (user : String) (port : UInt16) : Bool :=
  !(port != 0 && port < 1024 && server.isRoot && user != server.currentUsername)

/-- What `open_remote_forward` checks before it binds: the address, or its answer. -/
def Server.checkRemoteForward (server : Server) (user : String) (remoteForwards : Nat)
    (request : RemoteForwardRequest) : Except String SocketAddr :=
  if !server.config.allowTcpForwarding then .error "TCP forwarding is disabled"
  else if server.config.maxForwardsPerConnection ≤ remoteForwards then
    .error "remote forward limit reached"
  else match server.listenIp request.listenHost with
    | none => .error "remote forwards must listen on a loopback address"
    | some ip =>
      if server.mayListen user request.listenPort then .ok (.new ip request.listenPort)
      else .error "remote forwards may not use privileged ports"

/-- These two answers are written with `?`; a failure to write the others is ignored. -/
def mustBeHeard (answer : String) : Bool :=
  answer = "TCP forwarding is disabled" || answer = "remote forward limit reached"

structure Listener where
  addr : SocketAddr
  forwardId : UInt64
  running : Bool
  deriving DecidableEq, Repr

inductive Phase
  | accepting
  | session
  | ended
  deriving DecidableEq, Repr

/-- `acceptTask` accepts streams beside the session, and `agent` listens on its agent socket;
`slots` and `streams` are the free permits of their semaphore and those their streams hold. -/
structure State where
  phase : Phase
  remoteForwards : Nat
  listeners : List Listener
  sessions : Nat
  acceptTask : Bool
  agent : Bool
  slots : Nat
  streams : Nat
  deriving DecidableEq, Repr

def State.start : State := ⟨.accepting, 0, [], 0, false, false, 0, 0⟩

/-- A listener's task is over. -/
def Listener.stop (l : Listener) : Listener := { l with running := false }

/-- `serve` returns: dropping `RemoteForwardTasks` aborts every listener, and the session's guard
has aborted the agent's. -/
def State.leave (s : State) : State :=
  { s with phase := .ended, listeners := s.listeners.map Listener.stop, agent := false }

def State.listen (s : State) (addr : SocketAddr) (forwardId : UInt64) : State :=
  { s with
    remoteForwards := s.remoteForwards + 1
    listeners := s.listeners ++ [⟨addr, forwardId, true⟩] }

inductive Action
  | opened (message : StreamOpen)
  | fails
  | listenerStops
  | localForward (target : TcpTarget)
  | agentStream
  | streamEnds
  | sessionEnds
  | sessionBreaks
  | connectionCloses
  deriving DecidableEq, Repr

section Step

variable (server : Server) (user : String)

/-- The peer chooses the messages; what binding, writing and accepting give is left open. -/
inductive Step : State → Action → State → Prop
  | fails {s : State} (h : s.phase = .accepting) : Step s .fails s.leave
  | refused {s : State} {request : RemoteForwardRequest} {answer : String}
      (h : s.phase = .accepting)
      (hcheck : server.checkRemoteForward user s.remoteForwards request = .error answer) :
      Step s (.opened (.openRemoteForward request)) s
  | refusedUnheard {s : State} {request : RemoteForwardRequest} {answer : String}
      (h : s.phase = .accepting)
      (hcheck : server.checkRemoteForward user s.remoteForwards request = .error answer)
      (hanswer : mustBeHeard answer = true) :
      Step s (.opened (.openRemoteForward request)) s.leave
  | unbound {s : State} {request : RemoteForwardRequest} {addr : SocketAddr}
      (h : s.phase = .accepting)
      (hcheck : server.checkRemoteForward user s.remoteForwards request = .ok addr) :
      Step s (.opened (.openRemoteForward request)) s
  | listens {s : State} {request : RemoteForwardRequest} {addr : SocketAddr}
      (h : s.phase = .accepting)
      (hcheck : server.checkRemoteForward user s.remoteForwards request = .ok addr) :
      Step s (.opened (.openRemoteForward request)) (s.listen addr request.forwardId)
  | listensUnheard {s : State} {request : RemoteForwardRequest} {addr : SocketAddr}
      (h : s.phase = .accepting)
      (hcheck : server.checkRemoteForward user s.remoteForwards request = .ok addr) :
      Step s (.opened (.openRemoteForward request)) (s.listen addr request.forwardId).leave
  | sessionRefused {s : State} {request : OpenSession} (h : s.phase = .accepting)
      (hmax : server.config.maxSessionsPerConnection = 0) :
      Step s (.opened (.session request)) s
  | sessionStarts {s : State} {request : OpenSession} {agent : Bool} (h : s.phase = .accepting)
      (hmax : server.config.maxSessionsPerConnection ≠ 0)
      (hagent : agent = true →
        request.forwardAgent = true ∧ server.config.allowAgentForwarding = true) :
      Step s (.opened (.session request))
        { s with
          phase := .session
          sessions := s.sessions + 1
          acceptTask := true
          agent := agent
          slots := server.config.maxForwardStreamsPerConnection }
  | otherStream {s : State} {message : StreamOpen} (h : s.phase = .accepting)
      (hforward : ∀ request, message ≠ .openRemoteForward request)
      (hsession : ∀ request, message ≠ .session request) : Step s (.opened message) s
  | listenerStops {s : State} {front back : List Listener} {l : Listener}
      (h : s.listeners = front ++ l :: back) :
      Step s .listenerStops
        { s with listeners := front ++ l.stop :: back }
  | localForward {s : State} {target : TcpTarget} {free : Nat} (h : s.acceptTask = true)
      (hallow : server.config.allowTcpForwarding = true) (hfree : s.slots = free + 1) :
      Step s (.localForward target) { s with slots := free, streams := s.streams + 1 }
  | agentStream {s : State} {free : Nat} (h : s.agent = true) (hfree : s.slots = free + 1) :
      Step s .agentStream { s with slots := free, streams := s.streams + 1 }
  | streamEnds {s : State} {live : Nat} (h : s.streams = live + 1) :
      Step s .streamEnds { s with slots := s.slots + 1, streams := live }
  | sessionEnds {s : State} (h : s.phase = .session) :
      Step s .sessionEnds { s.leave with acceptTask := false }
  -- `SessionReady` or the stream for stderr fails: the function returns before the two aborts.
  | sessionBreaks {s : State} (h : s.phase = .session) : Step s .sessionBreaks s.leave
  | connectionCloses {s : State} : Step s .connectionCloses { s with acceptTask := false }

end Step

variable {server : Server} {user : String} {s t : State} {a : Action} {actions : List Action}

/-- The listener is one that the server's rules allow this user. -/
structure Server.Permits (server : Server) (user : String) (l : Listener) : Prop where
  allowed : server.config.allowTcpForwarding = true
  loopback : isLoopback l.addr.ip = true
  port : server.mayListen user l.addr.port = true

theorem listenIp_loopback {host : String} {ip : IpAddr} (h : server.listenIp host = some ip) :
    isLoopback ip = true := by
  unfold Server.listenIp at h
  split at h
  · cases h
    decide
  · exact (Option.filter_eq_some_iff.mp h).2

theorem ip_new (ip : IpAddr) (port : UInt16) : (SocketAddr.new ip port).ip = ip := by
  cases ip <;> rfl

theorem port_new (ip : IpAddr) (port : UInt16) : (SocketAddr.new ip port).port = port := by
  cases ip <;> rfl

theorem checkRemoteForward_ok {n : Nat} {request : RemoteForwardRequest} {addr : SocketAddr}
    (h : server.checkRemoteForward user n request = .ok addr) :
    n < server.config.maxForwardsPerConnection ∧
      server.Permits user ⟨addr, request.forwardId, true⟩ := by
  unfold Server.checkRemoteForward at h
  split at h
  · cases h
  · next hallow =>
    split at h
    · cases h
    · next hmax =>
      split at h
      · cases h
      · next ip hip =>
        split at h
        · next hport =>
          cases h
          refine ⟨Nat.not_le.mp hmax, by simpa using hallow, ?_, ?_⟩
          · rw [ip_new]
            exact listenIp_loopback hip
          · rw [port_new]
            exact hport
        · cases h

/-- What holds of a connection at every moment. -/
structure Inv (server : Server) (user : String) (s : State) : Prop where
  counted : s.listeners.length = s.remoteForwards
  bounded : s.remoteForwards ≤ server.config.maxForwardsPerConnection
  permitted : ∀ l ∈ s.listeners, server.Permits user l
  one : s.sessions ≤ 1
  fresh : s.phase = .accepting → s.sessions = 0
  noSession : server.config.maxSessionsPerConnection = 0 → s.sessions = 0
  task : s.acceptTask = true → s.sessions = 1
  agent : s.agent = true → s.phase = .session ∧ server.config.allowAgentForwarding = true
  permits : s.slots + s.streams =
    if s.sessions = 0 then 0 else server.config.maxForwardStreamsPerConnection
  stopped : s.phase = .ended → ∀ l ∈ s.listeners, l.running = false

theorem inv_start : Inv server user .start where
  counted := rfl
  bounded := Nat.zero_le _
  permitted := by simp [State.start]
  one := Nat.zero_le 1
  fresh _ := rfl
  noSession _ := rfl
  task h := by cases h
  agent h := by cases h
  permits := rfl
  stopped h := by cases h

theorem Inv.leave (h : Inv server user s) : Inv server user s.leave where
  counted := by simpa [State.leave] using h.counted
  bounded := h.bounded
  permitted := by
    intro l hl
    obtain ⟨k, hk, rfl⟩ := List.mem_map.mp hl
    have hpermits := h.permitted k hk
    exact ⟨hpermits.allowed, hpermits.loopback, hpermits.port⟩
  one := h.one
  fresh hphase := by cases hphase
  noSession := h.noSession
  task := h.task
  agent hagent := by cases hagent
  permits := h.permits
  stopped := by
    intro _ l hl
    obtain ⟨k, -, rfl⟩ := List.mem_map.mp hl
    rfl

theorem Inv.listen (h : Inv server user s) (hphase : s.phase = .accepting)
    {request : RemoteForwardRequest} {addr : SocketAddr}
    (hcheck : server.checkRemoteForward user s.remoteForwards request = .ok addr) :
    Inv server user (s.listen addr request.forwardId) := by
  obtain ⟨hlt, hpermits⟩ := checkRemoteForward_ok hcheck
  refine ⟨?_, hlt, ?_, h.one, h.fresh, h.noSession, h.task, h.agent, h.permits, ?_⟩
  · simp [State.listen, h.counted]
  · intro l hl
    rcases List.mem_append.mp hl with hl | hl
    · exact h.permitted l hl
    · obtain rfl := List.mem_singleton.mp hl
      exact hpermits
  · intro hended
    have hended : s.phase = .ended := hended
    rw [hphase] at hended
    cases hended

theorem Inv.closeTask (h : Inv server user s) : Inv server user { s with acceptTask := false } :=
  ⟨h.counted, h.bounded, h.permitted, h.one, h.fresh, h.noSession, (fun htask => by cases htask),
    h.agent, h.permits, h.stopped⟩

theorem Inv.moveSlot (h : Inv server user s) {slots streams : Nat}
    (hsum : slots + streams = s.slots + s.streams) :
    Inv server user { s with slots := slots, streams := streams } :=
  ⟨h.counted, h.bounded, h.permitted, h.one, h.fresh, h.noSession, h.task, h.agent,
    hsum.trans h.permits, h.stopped⟩

theorem Inv.startSession (h : Inv server user s) (hphase : s.phase = .accepting)
    (hmax : server.config.maxSessionsPerConnection ≠ 0) {agent : Bool}
    (hagent : agent = true → server.config.allowAgentForwarding = true) :
    Inv server user { s with
      phase := .session
      sessions := s.sessions + 1
      acceptTask := true
      agent := agent
      slots := server.config.maxForwardStreamsPerConnection } := by
  have hzero := h.fresh hphase
  have hpermits := h.permits
  rw [if_pos hzero] at hpermits
  refine ⟨h.counted, h.bounded, h.permitted, ?_, ?_, ?_, ?_, ?_, ?_, ?_⟩
  · simp [hzero]
  · intro hphase
    cases hphase
  · intro hnone
    exact absurd hnone hmax
  · simp [hzero]
  · exact fun hon => ⟨rfl, hagent hon⟩
  · -- No stream is there yet, as the permits of a connection without a session add up to none.
    have hstreams : s.streams = 0 := by omega
    simp [hstreams]
  · intro hphase
    cases hphase

theorem Inv.stopListener (h : Inv server user s) {front back : List Listener} {l : Listener}
    (hl : s.listeners = front ++ l :: back) :
    Inv server user { s with listeners := front ++ l.stop :: back } := by
  have hmem : ∀ k ∈ front ++ l.stop :: back, k ∈ s.listeners ∨ k = l.stop := by
    intro k hk
    rw [hl]
    rcases List.mem_append.mp hk with hk | hk
    · exact Or.inl (List.mem_append_left _ hk)
    · rcases List.mem_cons.mp hk with hk | hk
      · exact Or.inr hk
      · exact Or.inl (List.mem_append_right _ (List.mem_cons_of_mem _ hk))
  refine ⟨?_, h.bounded, ?_, h.one, h.fresh, h.noSession, h.task, h.agent, h.permits, ?_⟩
  · have hcounted := h.counted
    rw [hl] at hcounted
    simpa using hcounted
  · intro k hk
    rcases hmem k hk with hk | rfl
    · exact h.permitted k hk
    · have hpermits := h.permitted l (by simp [hl])
      exact ⟨hpermits.allowed, hpermits.loopback, hpermits.port⟩
  · intro hended k hk
    rcases hmem k hk with hk | rfl
    · exact h.stopped hended k hk
    · rfl

theorem Inv.step (h : Step server user s a t) (hs : Inv server user s) : Inv server user t := by
  cases h with
  | fails | refusedUnheard | sessionBreaks => exact hs.leave
  | refused | unbound | sessionRefused | otherStream => exact hs
  | listens hphase hcheck => exact hs.listen hphase hcheck
  | listensUnheard hphase hcheck => exact (hs.listen hphase hcheck).leave
  | sessionStarts hphase hmax hagent =>
    exact hs.startSession hphase hmax fun hon => (hagent hon).2
  | listenerStops hl => exact hs.stopListener hl
  | localForward _ _ hfree => exact hs.moveSlot (by omega)
  | agentStream _ hfree => exact hs.moveSlot (by omega)
  | streamEnds hlive => exact hs.moveSlot (by omega)
  | sessionEnds => exact hs.leave.closeTask
  | connectionCloses => exact hs.closeTask

theorem inv_run (h : Trace (Step server user) .start actions s) : Inv server user s :=
  h.invariant inv_start fun hstep hs => Inv.step hstep hs

/-- While the session's function has not returned early, the accept task ends with it. -/
def Paired (s : State) : Prop := s.acceptTask = true → s.phase = .session

theorem Paired.step (h : Step server user s a t) (ha : a ≠ .sessionBreaks) (hs : Paired s) :
    Paired t := by
  have hoff : ∀ {u : State}, s.phase = .accepting → u.acceptTask = s.acceptTask → Paired u := by
    intro u hphase htask hon
    have hsession := hs (htask ▸ hon)
    rw [hphase] at hsession
    cases hsession
  cases h with
  | fails hphase => exact hoff hphase rfl
  | refusedUnheard hphase => exact hoff hphase rfl
  | listens hphase => exact hoff hphase rfl
  | listensUnheard hphase => exact hoff hphase rfl
  | refused | unbound | sessionRefused | otherStream => exact hs
  | sessionStarts => exact fun _ => rfl
  | listenerStops | localForward | agentStream | streamEnds => exact hs
  | sessionEnds | connectionCloses => exact fun hon => by cases hon
  | sessionBreaks => exact absurd rfl ha

theorem paired_run (h : Trace (Step server user) s actions t) (ha : .sessionBreaks ∉ actions)
    (hs : Paired s) : Paired t := by
  induction h with
  | refl => exact hs
  | stepL hstep _ ih =>
    rw [List.mem_cons, not_or] at ha
    exact ih ha.2 (Paired.step hstep (Ne.symm ha.1) hs)

/-- Whatever the peer sends and in whatever order things happen: a connection has no more listeners
than it may, each on a loopback address, on a port that its user may have and only with forwarding
enabled; it has one session at most, and none where none is allowed; the streams beside the session
hold no more than its permits, and the agent's socket needs the server's consent. Once `serve` has
returned, no listener runs and no agent socket is there. -/
theorem serve_confined (h : Trace (Step server user) .start actions s) :
    s.listeners.length ≤ server.config.maxForwardsPerConnection ∧
    (∀ l ∈ s.listeners, server.config.allowTcpForwarding = true ∧ isLoopback l.addr.ip = true ∧
      (l.addr.port ≠ 0 → l.addr.port < 1024 → server.isRoot = true →
        user = server.currentUsername)) ∧
    s.sessions ≤ min 1 server.config.maxSessionsPerConnection ∧
    s.streams ≤ server.config.maxForwardStreamsPerConnection ∧
    (s.agent = true → server.config.allowAgentForwarding = true) ∧
    (s.phase = .ended → (∀ l ∈ s.listeners, l.running = false) ∧ s.agent = false) := by
  have hinv := inv_run h
  refine ⟨hinv.counted ▸ hinv.bounded, ?_, ?_, ?_, fun hon => (hinv.agent hon).2, ?_⟩
  · intro l hl
    have hpermits := hinv.permitted l hl
    refine ⟨hpermits.allowed, hpermits.loopback, ?_⟩
    intro hport hlow hroot
    have hmay := hpermits.port
    simpa [Server.mayListen, hport, hlow, hroot] using hmay
  · have hone := hinv.one
    by_cases hmax : server.config.maxSessionsPerConnection = 0
    · rw [hinv.noSession hmax]
      exact Nat.zero_le _
    · exact Nat.le_min.mpr ⟨hone, by omega⟩
  · have hpermits := hinv.permits
    split at hpermits <;> omega
  · intro hended
    refine ⟨hinv.stopped hended, ?_⟩
    cases hagent : s.agent with
    | false => rfl
    | true =>
      have hsession := (hinv.agent hagent).1
      rw [hended] at hsession
      cases hsession

/-- A server with one forward, for a user that it switches to. -/
def shared : Server where
  config := ⟨true, false, 1, 1, 1⟩
  isRoot := true
  currentUsername := "root"
  parseIp _ := none

def forward : RemoteForwardRequest := ⟨7, "localhost", 8080⟩

def plain : OpenSession := ⟨[], true, .pipes, [], [], false⟩

def forwarding : State := State.start.listen (.v4 0x7f000001 8080) 7

theorem forwarding_run :
    Trace (Step shared "alice") .start [.opened (.openRemoteForward forward)] forwarding := by
  have hcheck : shared.checkRemoteForward "alice" 0 forward = .ok (.v4 0x7f000001 8080) := by
    decide
  exact .single (.listens rfl hcheck)

theorem serve_confined_shared :
    forwarding.listeners.length ≤ 1 ∧ isLoopback (SocketAddr.v4 0x7f000001 8080).ip = true := by
  obtain ⟨hlen, hlisteners, -⟩ := serve_confined forwarding_run
  exact ⟨hlen, (hlisteners ⟨.v4 0x7f000001 8080, 7, true⟩ (by decide)).2.1⟩

/-- The task that accepts streams beside a session outlives `serve` only through a session that
returned before its end: in every other run nothing is forwarded any more once `serve` has
returned. After such a session a local forward is still accepted, on any server that allows
sessions and forwarding at all. -/
theorem accept_task_outlives (server : Server) (user : String) :
    (∀ {actions : List Action} {s : State}, Trace (Step server user) .start actions s →
      .sessionBreaks ∉ actions → s.phase = .ended →
      ∀ target t, ¬ Step server user s (.localForward target) t) ∧
    (server.config.maxSessionsPerConnection ≠ 0 → server.config.allowTcpForwarding = true →
      server.config.maxForwardStreamsPerConnection ≠ 0 →
      ∃ actions s, Trace (Step server user) .start actions s ∧ s.phase = .ended ∧
        ∀ target, ∃ t, Step server user s (.localForward target) t) := by
  constructor
  · intro actions s hrun hbreaks hended target t hstep
    have hpaired : Paired s := paired_run hrun hbreaks fun hon => by cases hon
    cases hstep with
    | localForward htask =>
      have hsession := hpaired htask
      rw [hended] at hsession
      cases hsession
  · intro hmax hallow hslots
    obtain ⟨free, hfree⟩ := Nat.exists_eq_succ_of_ne_zero hslots
    have hagent : false = true → plain.forwardAgent = true ∧
        server.config.allowAgentForwarding = true := fun hon => by cases hon
    refine ⟨_, _, .stepL (.sessionStarts rfl hmax hagent) (.single (.sessionBreaks rfl)), rfl, ?_⟩
    intro target
    exact ⟨_, .localForward rfl hallow hfree⟩

theorem accept_task_outlives_shared :
    ∃ actions s, Trace (Step shared "alice") .start actions s ∧ s.phase = .ended ∧
      ∀ target, ∃ t, Step shared "alice" s (.localForward target) t :=
  (accept_task_outlives shared "alice").2 (by decide) rfl (by decide)

end Hush.Serve
