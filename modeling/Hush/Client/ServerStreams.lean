import Hush.Protocol.Frames
import Hush.Serve.Connection
import Hush.SshConfig.Values

/-!
# The streams that a server opens

A client numbers its remote forwards, and serves the streams that come back under the numbers.
-/
namespace Hush.Client
open Hush.Lib Hush.Protocol Hush.Serve
open Hush.FileCopy (Bytes)
open Hush.SshConfig (SshForward ForwardAgent)

/-- The forwards of the configuration and then those of the command line, counted from one. -/
def numberForwards (config cli : List SshForward) : List (UInt64 × SshForward) :=
  (config ++ cli).mapIdx fun index spec => (UInt64.ofNat index + 1, spec)

def target (spec : SshForward) : TcpTarget := ⟨.ofList spec.targetHost, spec.targetPort⟩

/-- The map from a number to its target; a later entry would replace an earlier one. -/
def remoteTargets (forwards : List (UInt64 × SshForward)) (forwardId : UInt64) :
    Option TcpTarget :=
  (forwards.reverse.find? (·.1 == forwardId)).map (target ·.2)

/-- What `request_remote_forward` asks for. -/
def request (forward : UInt64 × SshForward) : RemoteForwardRequest :=
  ⟨forward.1, .ofList forward.2.listenHost, forward.2.listenPort⟩

structure SessionBind where
  hostKey : Bytes
  sessionId : Bytes
  signature : Bytes
  deriving DecidableEq, Repr

structure AgentForwardContext where
  socket : Path
  hostKey : Option Bytes
  sessionId : Option Bytes
  deriving DecidableEq, Repr

def AgentForwardContext.bind (agent : AgentForwardContext) (signature : Bytes) :
    Option SessionBind :=
  if signature = [] then none
  else do return ⟨← agent.hostKey, ← agent.sessionId, signature⟩

/-- Agent forwarding is asked for, on the command line or in the configuration. -/
def agentEnabled (cli : Bool) : Option ForwardAgent → Bool
  | some .yes | some (.socket _) => true
  | some .no | none => cli

def agentForwardContext (cli : Bool) (config : Option ForwardAgent) (authSock : Option Path)
    (hostKey sessionId : Option Bytes) : Option AgentForwardContext :=
  if !agentEnabled cli config then none
  else
    let override := match config with
      | some (.socket path) => some path
      | _ => none
    (override.or authSock).map fun socket => ⟨socket, hostKey, sessionId⟩

/-- What the client joins a stream of the server's to, with the data read behind its header. -/
inductive Joined
  | tcp (target : TcpTarget) (data : Bytes)
  | agent (socket : Path) (bind : Option SessionBind) (data : Bytes)
  deriving DecidableEq, Repr

inductive StreamError
  | frame (err : FrameError)
  | unknownForward
  | agentDisabled
  | unexpected (header : StreamOpen)
  deriving DecidableEq, Repr

def serveServerStream [Postcard] (agent : Option AgentForwardContext)
    (remoteTargets : UInt64 → Option TcpTarget) (stream : Bytes) : Except StreamError Joined :=
  match readFrame StreamOpen.format stream with
  | .error err => .error (.frame err)
  | .ok (.remoteTcpForward forwardId, data) =>
    match remoteTargets forwardId with
    | some target => .ok (.tcp target data)
    | none => .error .unknownForward
  | .ok (.agentForward bindSignature, data) =>
    match agent with
    | some agent => .ok (.agent agent.socket (agent.bind bindSignature) data)
    | none => .error .agentDisabled
  | .ok (header, _) => .error (.unexpected header)

variable {config cli : List SshForward} {forwards : List (UInt64 × SshForward)}
  {agent : Option AgentForwardContext} {stream : Bytes} {joined : Joined}

theorem remoteTargets_mem {forwardId : UInt64} {t : TcpTarget}
    (h : remoteTargets forwards forwardId = some t) :
    ∃ forward ∈ forwards, forward.1 = forwardId ∧ t = target forward.2 := by
  obtain ⟨forward, hfind, rfl⟩ := Option.map_eq_some_iff.mp h
  have hmem := List.mem_of_find?_eq_some hfind
  have hid := List.find?_some hfind
  exact ⟨forward, List.mem_reverse.mp hmem, beq_iff_eq.mp hid, rfl⟩

/-- What a stream that is served is joined to. -/
theorem serveServerStream_ok [Postcard] {targets : UInt64 → Option TcpTarget}
    (h : serveServerStream agent targets stream = .ok joined) :
    (∃ forwardId t data, targets forwardId = some t ∧ joined = .tcp t data) ∨
    ∃ context signature data, agent = some context ∧
      joined = .agent context.socket (context.bind signature) data := by
  unfold serveServerStream at h
  split at h
  · cases h
  · next forwardId data _ =>
    split at h
    · next t ht => exact Or.inl ⟨forwardId, t, data, ht, (Except.ok.inj h).symm⟩
    · cases h
  · next signature data _ =>
    split at h
    · next context =>
      exact Or.inr ⟨context, signature, data, rfl, (Except.ok.inj h).symm⟩
    · cases h
  · cases h

theorem agentForwardContext_some {cliAgent : Bool} {agentConfig : Option ForwardAgent}
    {authSock : Option Path} {hostKey sessionId : Option Bytes} {context : AgentForwardContext}
    (h : agentForwardContext cliAgent agentConfig authSock hostKey sessionId = some context) :
    agentEnabled cliAgent agentConfig = true ∧
      (agentConfig = some (.socket context.socket) ∨ authSock = some context.socket) ∧
      context.hostKey = hostKey ∧ context.sessionId = sessionId := by
  unfold agentForwardContext at h
  split at h
  · cases h
  · next henabled =>
    obtain ⟨socket, hsocket, rfl⟩ := Option.map_eq_some_iff.mp h
    refine ⟨by simpa using henabled, ?_, rfl, rfl⟩
    rcases Option.or_eq_some_iff.mp hsocket with hoverride | ⟨-, hauth⟩
    · left
      split at hoverride
      · next path =>
        cases hoverride
        rfl
      · cases hoverride
    · exact Or.inr hauth

/-- Whatever bytes a server sends on a stream: the client joins it to nothing but the target of one
of its own remote forwards or, with agent forwarding asked for, its own agent's socket; and a
binding that it makes there names the key and the session that it has seen itself. -/
theorem client_confined [Postcard] {cliAgent : Bool} {agentConfig : Option ForwardAgent}
    {authSock : Option Path} {hostKey sessionId : Option Bytes}
    (h : serveServerStream (agentForwardContext cliAgent agentConfig authSock hostKey sessionId)
      (remoteTargets (numberForwards config cli)) stream = .ok joined) :
    (∃ spec ∈ config ++ cli, ∃ data, joined = .tcp (target spec) data) ∨
    (agentEnabled cliAgent agentConfig = true ∧ ∃ socket bind data,
      joined = .agent socket bind data ∧
      (agentConfig = some (.socket socket) ∨ authSock = some socket) ∧
      ∀ b, bind = some b → hostKey = some b.hostKey ∧ sessionId = some b.sessionId) := by
  rcases serveServerStream_ok h with ⟨forwardId, t, data, ht, rfl⟩ |
    ⟨context, signature, data, hcontext, rfl⟩
  · left
    obtain ⟨forward, hmem, -, rfl⟩ := remoteTargets_mem ht
    obtain ⟨index, hindex, rfl⟩ := List.mem_mapIdx.mp hmem
    exact ⟨_, List.getElem_mem hindex, data, rfl⟩
  · right
    obtain ⟨henabled, hsocket, hkey, hid⟩ := agentForwardContext_some hcontext
    refine ⟨henabled, _, _, data, rfl, hsocket, ?_⟩
    intro b hb
    unfold AgentForwardContext.bind at hb
    split at hb
    · cases hb
    · rw [hkey, hid] at hb
      cases hostKey with
      | none => cases hb
      | some key =>
        cases sessionId with
        | none => cases hb
        | some id =>
          cases hb
          exact ⟨rfl, rfl⟩

def web : SshForward := ⟨"localhost".toList, 8080, "intranet".toList, 80⟩

/-- A server's streams for a forward and for an agent: the client joins them to the target of its
only forward, and to its own agent, where the binding is for the key and session that it knows. -/
theorem client_confined_web :
    (∃ data, serveServerStream (agentForwardContext false none none none none)
      (remoteTargets (numberForwards [web] [])) [0, 0, 0, 2, 8, 1, 104, 105] =
        .ok (.tcp (target web) data)) ∧
    ∃ bind data, serveServerStream
      (agentForwardContext true none (some (Path.ofString "/agent")) (some [1]) (some [2]))
      (remoteTargets (numberForwards [web] [])) [0, 0, 0, 3, 10, 1, 9] =
        .ok (.agent (Path.ofString "/agent") bind data) ∧
      ∀ b, bind = some b → b.hostKey = [1] ∧ b.sessionId = [2] := by
  constructor
  · have htarget : remoteTargets (numberForwards [web] []) 1 = some (target web) := by decide
    have hread : readFrame StreamOpen.format ([0, 0, 0, 2, 8, 1] ++ [104, 105]) =
        .ok (.remoteTcpForward 1, [104, 105]) := readFrame_ok rfl _
    have h : serveServerStream (agentForwardContext false none none none none)
        (remoteTargets (numberForwards [web] [])) ([0, 0, 0, 2, 8, 1] ++ [104, 105]) =
          .ok (.tcp (target web) [104, 105]) := by
      simp only [serveServerStream, hread, htarget]
    rcases client_confined h with ⟨spec, hspec, data, hjoined⟩ | ⟨henabled, -⟩
    · obtain rfl := List.mem_singleton.mp hspec
      exact ⟨data, hjoined ▸ h⟩
    · exact absurd henabled (by decide)
  · have hread : readFrame StreamOpen.format ([0, 0, 0, 3, 10, 1, 9] ++ []) =
        .ok (.agentForward [9], []) := readFrame_ok rfl _
    have h : serveServerStream
        (agentForwardContext true none (some (Path.ofString "/agent")) (some [1]) (some [2]))
        (remoteTargets (numberForwards [web] [])) ([0, 0, 0, 3, 10, 1, 9] ++ []) =
          .ok (.agent (Path.ofString "/agent") (some ⟨[1], [2], [9]⟩) []) := by
      simp only [serveServerStream, hread]
      rfl
    rcases client_confined h with ⟨spec, -, data, hjoined⟩ | ⟨-, socket, bind, data, hjoined, -, hb⟩
    · cases hjoined
    · cases hjoined
      refine ⟨_, _, h, fun b hbind => ?_⟩
      obtain ⟨hkey, hid⟩ := hb b hbind
      exact ⟨(Option.some.inj hkey).symm, (Option.some.inj hid).symm⟩

/-! From the server's listener to the client's target. -/

/-- No two forwards have one number. -/
theorem numberForwards_inj (hlen : (config ++ cli).length < 2 ^ 64)
    {forward forward' : UInt64 × SshForward} (h : forward ∈ numberForwards config cli)
    (h' : forward' ∈ numberForwards config cli) (hid : forward.1 = forward'.1) :
    forward = forward' := by
  obtain ⟨i, hi, rfl⟩ := List.mem_mapIdx.mp h
  obtain ⟨j, hj, rfl⟩ := List.mem_mapIdx.mp h'
  have hcancel : UInt64.ofNat i = UInt64.ofNat j := by
    have hsub := congrArg (· - 1) hid
    simpa using hsub
  have hnat := congrArg UInt64.toNat hcancel
  rw [UInt64.toNat_ofNat', UInt64.toNat_ofNat', Nat.mod_eq_of_lt (by omega),
    Nat.mod_eq_of_lt (by omega)] at hnat
  subst hnat
  rfl

theorem remoteTargets_of_mem (hlen : (config ++ cli).length < 2 ^ 64)
    {forward : UInt64 × SshForward} (h : forward ∈ numberForwards config cli) :
    remoteTargets (numberForwards config cli) forward.1 = some (target forward.2) := by
  have hsome : ((numberForwards config cli).reverse.find? (·.1 == forward.1)).isSome = true := by
    rw [List.find?_isSome]
    exact ⟨forward, List.mem_reverse.mpr h, beq_self_eq_true _⟩
  obtain ⟨found, hfound⟩ := Option.isSome_iff_exists.mp hsome
  have hkey := List.find?_some hfound
  have hid : found.1 = forward.1 := by simpa using hkey
  have hmem := List.mem_reverse.mp (List.mem_of_find?_eq_some hfound)
  obtain rfl := numberForwards_inj hlen hmem h hid
  rw [remoteTargets, hfound, Option.map_some]

/-- The listener was asked for by this request. -/
def AskedBy (server : Server) (l : Listener) (asked : RemoteForwardRequest) : Prop :=
  l.forwardId = asked.forwardId ∧
    ∃ ip, server.listenIp asked.listenHost = some ip ∧ l.addr = .new ip asked.listenPort

theorem checkRemoteForward_addr {server : Server} {user : String} {n : Nat}
    {asked : RemoteForwardRequest} {addr : SocketAddr}
    (h : server.checkRemoteForward user n asked = .ok addr) :
    ∃ ip, server.listenIp asked.listenHost = some ip ∧ addr = .new ip asked.listenPort := by
  unfold Server.checkRemoteForward at h
  split at h
  · cases h
  · split at h
    · cases h
    · split at h
      · cases h
      · next ip hip =>
        split at h
        · exact ⟨ip, hip, (Except.ok.inj h).symm⟩
        · cases h

section Listeners

variable {server : Server} {user : String} {s t : State} {a : Action} {actions : List Action}

/-- A step's listeners are those before it, stopped perhaps, and one that it was asked for. -/
theorem listener_step (h : Step server user s a t) {l : Listener} (hl : l ∈ t.listeners) :
    (∃ k ∈ s.listeners, l.addr = k.addr ∧ l.forwardId = k.forwardId) ∨
    ∃ asked, a = .opened (.openRemoteForward asked) ∧ AskedBy server l asked := by
  have hleave : ∀ {u : State}, l ∈ u.leave.listeners →
      ∃ k ∈ u.listeners, l.addr = k.addr ∧ l.forwardId = k.forwardId := by
    intro u hu
    obtain ⟨k, hk, rfl⟩ := List.mem_map.mp hu
    exact ⟨k, hk, rfl, rfl⟩
  have hlisten : ∀ {asked : RemoteForwardRequest} {addr : SocketAddr} {k : Listener},
      server.checkRemoteForward user s.remoteForwards asked = .ok addr →
      k ∈ (s.listen addr asked.forwardId).listeners → k ∈ s.listeners ∨ AskedBy server k asked := by
    intro asked addr k hcheck hk
    rcases List.mem_append.mp hk with hk | hk
    · exact Or.inl hk
    · obtain rfl := List.mem_singleton.mp hk
      exact Or.inr ⟨rfl, checkRemoteForward_addr hcheck⟩
  cases h with
  | fails | refusedUnheard | sessionBreaks | sessionEnds => exact Or.inl (hleave hl)
  | listens _ hcheck =>
    rcases hlisten hcheck hl with hl | hasked
    · exact Or.inl ⟨l, hl, rfl, rfl⟩
    · exact Or.inr ⟨_, rfl, hasked⟩
  | listensUnheard _ hcheck =>
    obtain ⟨k, hk, haddr, hid⟩ := hleave hl
    rcases hlisten hcheck hk with hk | ⟨hkid, ip, hip, hkaddr⟩
    · exact Or.inl ⟨k, hk, haddr, hid⟩
    · exact Or.inr ⟨_, rfl, hid.trans hkid, ip, hip, haddr.trans hkaddr⟩
  | @listenerStops front back k hs =>
    left
    rcases List.mem_append.mp hl with hl | hl
    · exact ⟨l, by simp [hs, hl], rfl, rfl⟩
    · rcases List.mem_cons.mp hl with rfl | hl
      · exact ⟨k, by simp [hs], rfl, rfl⟩
      · exact ⟨l, by simp [hs, hl], rfl, rfl⟩
  | refused | unbound | sessionRefused | sessionStarts | otherStream | localForward | agentStream
  | streamEnds | connectionCloses => exact Or.inl ⟨l, hl, rfl, rfl⟩

theorem listener_run (h : Trace (Step server user) s actions t) {l : Listener}
    (hl : l ∈ t.listeners) :
    (∃ k ∈ s.listeners, l.addr = k.addr ∧ l.forwardId = k.forwardId) ∨
    ∃ asked, .opened (.openRemoteForward asked) ∈ actions ∧ AskedBy server l asked := by
  induction h with
  | refl => exact Or.inl ⟨l, hl, rfl, rfl⟩
  | stepL hstep _ ih =>
    rcases ih hl with ⟨k, hk, haddr, hid⟩ | ⟨asked, hmem, hasked⟩
    · rcases listener_step hstep hk with ⟨k', hk', haddr', hid'⟩ | ⟨asked, rfl, hkid, ip, hip, hka⟩
      · exact Or.inl ⟨k', hk', haddr.trans haddr', hid.trans hid'⟩
      · exact Or.inr ⟨asked, List.mem_cons_self, hid.trans hkid, ip, hip, haddr.trans hka⟩
    · exact Or.inr ⟨asked, List.mem_cons_of_mem _ hmem, hasked⟩

/-- A client that asks for its own forwards only, and a server in any run with it: each of the
server's listeners is at the address of one of the forwards, and the stream that the server opens
for a connection there is joined by the client to the target of that forward, with the data that
follows left to be copied. -/
theorem remote_forward_delivered [Postcard] (hlen : (config ++ cli).length < 2 ^ 64)
    (hrun : Trace (Step server user) .start actions s)
    (hasks : ∀ asked, .opened (.openRemoteForward asked) ∈ actions →
      ∃ forward ∈ numberForwards config cli, asked = request forward)
    {l : Listener} (hl : l ∈ s.listeners) {frame : Bytes}
    (hframe : writeFrame StreamOpen.format (.remoteTcpForward l.forwardId) = .ok frame)
    (agent : Option AgentForwardContext) (data : Bytes) :
    ∃ spec ∈ config ++ cli,
      (∃ ip, server.listenIp (.ofList spec.listenHost) = some ip ∧
        l.addr = .new ip spec.listenPort) ∧
      serveServerStream agent (remoteTargets (numberForwards config cli)) (frame ++ data) =
        .ok (.tcp (target spec) data) := by
  rcases listener_run hrun hl with ⟨k, hk, -⟩ | ⟨asked, hmem, hid, hip⟩
  · cases hk
  · obtain ⟨forward, hforward, rfl⟩ := hasks asked hmem
    have htarget := remoteTargets_of_mem hlen hforward
    obtain ⟨index, hindex, rfl⟩ := List.mem_mapIdx.mp hforward
    refine ⟨_, List.getElem_mem hindex, hip, ?_⟩
    have hread := readFrame_ok hframe data
    rw [hid] at hread
    simp only [serveServerStream, hread, request]
    rw [htarget]

end Listeners

/-- The listener of the forward above on a server, and a connection to it. -/
theorem remote_forward_delivered_web :
    ∃ spec ∈ [web] ++ [],
      (∃ ip, shared.listenIp (.ofList spec.listenHost) = some ip ∧
        SocketAddr.v4 0x7f000001 8080 = .new ip spec.listenPort) ∧
      serveServerStream none (remoteTargets (numberForwards [web] []))
        ([0, 0, 0, 2, 8, 1] ++ [104, 105]) = .ok (.tcp (target spec) [104, 105]) := by
  have hcheck : shared.checkRemoteForward "alice" 0 (request (1, web)) =
      .ok (.v4 0x7f000001 8080) := by decide
  have hrun : Trace (Step shared "alice") .start [.opened (.openRemoteForward (request (1, web)))]
      (State.start.listen (.v4 0x7f000001 8080) 1) := .single (.listens rfl hcheck)
  have hasks : ∀ asked, Action.opened (.openRemoteForward asked) ∈
      [Action.opened (.openRemoteForward (request (1, web)))] →
      ∃ forward ∈ numberForwards [web] [], asked = request forward := by
    intro asked hmem
    have heq := List.mem_singleton.mp hmem
    injection heq with heq
    injection heq with heq
    exact ⟨(1, web), List.mem_singleton.mpr rfl, heq⟩
  have hl : (⟨.v4 0x7f000001 8080, 1, true⟩ : Listener) ∈
      (State.start.listen (.v4 0x7f000001 8080) 1).listeners := List.mem_singleton.mpr rfl
  exact remote_forward_delivered (by decide) hrun hasks hl rfl none [104, 105]

end Hush.Client
