import Hush.Auth.Server
import Hush.FileCopy.Limits
import Hush.Lib.Loop
import Hush.Lib.Processes
import Hush.Serve.Connection

/-!
# The server

`run` merges the command line with the configuration file. Its loop takes a permit for every
connection before the handshake, and a task of its own then authenticates and serves it.
-/
namespace Hush.Serve.Runtime
open Hush.Lib

def defaultPort : UInt16 := 22022

def defaultListen : SocketAddr := .v6 0 defaultPort 0 0

def defaultMaxConnections : Nat := 128

def defaultMaxSessionsPerConnection : Nat := 1

def defaultMaxForwardsPerConnection : Nat := 16

def defaultMaxForwardStreamsPerConnection : Nat := 64

def defaultMaxFileCopyBytes : UInt64 := 64 * 1024 * 1024 * 1024

def defaultMaxFileCopyEntries : UInt64 := 100000

structure Args where
  dataDir : Option Path
  listen : SocketAddr
  config : Option Path
  hostCert : Option Path
  hostKey : Option Path
  authorizedKeys : Option Path
  allowUser : List String
  disableTcpForwarding : Bool
  disableAgentForwarding : Bool
  maxConnections : Option Nat
  maxSessionsPerConnection : Option Nat
  maxForwardsPerConnection : Option Nat
  maxForwardStreamsPerConnection : Option Nat
  maxFileCopyBytes : Option UInt64
  maxFileCopyEntries : Option UInt64
  deriving DecidableEq, Repr

structure ServerConfigFile where
  listen : Option SocketAddr
  dataDir : Option Path
  hostCertPath : Option Path
  hostKeyPath : Option Path
  authorizedKeysPath : Option Path
  allowUsers : Option (List String)
  allowTcpForwarding : Option Bool
  allowAgentForwarding : Option Bool
  maxConnections : Option Nat
  maxSessionsPerConnection : Option Nat
  maxForwardsPerConnection : Option Nat
  maxForwardStreamsPerConnection : Option Nat
  maxFileCopyBytes : Option UInt64
  maxFileCopyEntries : Option UInt64
  deriving DecidableEq, Repr

def emptyFileConfig : ServerConfigFile :=
  ⟨none, none, none, none, none, none, none, none, none, none, none, none, none, none⟩

/-- `ServerRuntimeConfig` as its parts are used: for authentication, for streams and for copies. -/
structure RuntimeConfig where
  auth : Auth.ServerRuntimeConfig
  streams : StreamConfig
  maxConnections : Nat
  fileCopyLimits : FileCopy.FileCopyLimits
  deriving DecidableEq, Repr

structure Settings where
  dataDir : Path
  listen : SocketAddr
  hostCert : Option Path
  hostKey : Option Path
  config : RuntimeConfig
  deriving DecidableEq, Repr

def Args.runtimeConfig (args : Args) (file : ServerConfigFile) : RuntimeConfig where
  auth.authorizedKeysPath := args.authorizedKeys.or file.authorizedKeysPath
  auth.allowUsers :=
    if args.allowUser.isEmpty then file.allowUsers.getD [] else args.allowUser
  streams.allowTcpForwarding :=
    if args.disableTcpForwarding then false else file.allowTcpForwarding.getD true
  streams.allowAgentForwarding :=
    if args.disableAgentForwarding then false else file.allowAgentForwarding.getD true
  streams.maxSessionsPerConnection :=
    (args.maxSessionsPerConnection.or file.maxSessionsPerConnection).getD
      defaultMaxSessionsPerConnection
  streams.maxForwardsPerConnection :=
    (args.maxForwardsPerConnection.or file.maxForwardsPerConnection).getD
      defaultMaxForwardsPerConnection
  streams.maxForwardStreamsPerConnection :=
    (args.maxForwardStreamsPerConnection.or file.maxForwardStreamsPerConnection).getD
      defaultMaxForwardStreamsPerConnection
  maxConnections := (args.maxConnections.or file.maxConnections).getD defaultMaxConnections
  fileCopyLimits.maxBytes :=
    (args.maxFileCopyBytes.or file.maxFileCopyBytes).getD defaultMaxFileCopyBytes
  fileCopyLimits.maxEntries :=
    (args.maxFileCopyEntries.or file.maxFileCopyEntries).getD defaultMaxFileCopyEntries

/-- An address on the command line that is the default one counts as none. -/
def Args.settings (args : Args) (initialDataDir : Path) (file : ServerConfigFile) : Settings where
  dataDir := (args.dataDir.or file.dataDir).getD initialDataDir
  listen := if args.listen ≠ defaultListen then args.listen else file.listen.getD args.listen
  hostCert := args.hostCert.or file.hostCertPath
  hostKey := args.hostKey.or file.hostKeyPath
  config := args.runtimeConfig file

def serverConfigPath (dataDir : Path) : Path :=
  (dataDir.join (Path.ofString "server")).join (Path.ofString "config.toml")

/-- The machine that the server runs on, as far as it does not change while it runs. -/
structure Machine (κ : Type) where
  keys : Auth.SshKeys κ
  isRoot : Bool
  currentUsername : String
  parseIp : String → Option IpAddr
  localAddr : SocketAddr
  defaultDataDir : Path
  readServerConfig : Path → Except String (Option ServerConfigFile)

section Machine

variable {κ : Type} (m : Machine κ)

def Machine.initialDataDir (args : Args) : Path := args.dataDir.getD m.defaultDataDir

def Machine.fileConfig (args : Args) : Except String ServerConfigFile := do
  let file ← m.readServerConfig (args.config.getD (serverConfigPath (m.initialDataDir args)))
  return file.getD emptyFileConfig

/-- What `run` does before it listens. -/
def Machine.configure (args : Args) : Except String Settings := do
  let file ← m.fileConfig args
  let settings := args.settings (m.initialDataDir args) file
  settings.config.auth.validate m.isRoot
  return settings

variable (config : RuntimeConfig)

/-- The server of an authenticated connection. -/
def Machine.server : Server := ⟨config.streams, m.isRoot, m.currentUsername, m.parseIp⟩

/-- A connection whose certificate names the user and has the key. -/
def Machine.pending (key : κ) (user : String) : Auth.PendingConnection Unit SocketAddr κ :=
  ⟨(), key, user, config.auth, m.localAddr⟩

/-- What the machine's accounts and files may be at one moment. -/
def Machine.Sees (host : Auth.Host) : Prop :=
  host.isRoot = m.isRoot ∧ host.currentUsername = m.currentUsername

end Machine

inductive Stage
  | handshake
  | rejected
  | serving
  | returned
  deriving DecidableEq, Repr

/-- A connection that was accepted, with its task's progress and its streams. `isOpen` is the QUIC
connection, which `follow_peer` keeps a handle of until it is closed. -/
structure Connection where
  stage : Stage
  user : String
  streams : Serve.State
  isOpen : Bool
  deriving DecidableEq, Repr

namespace Connection

def new : Connection := ⟨.handshake, "", .start, true⟩

/-- The task has not ended, so its permit is held. -/
def permit (c : Connection) : Bool := c.stage = .handshake || c.stage = .serving

def Served (c : Connection) : Prop := c.stage = .serving ∨ c.stage = .returned

/-- The task ends and the connection is closed. -/
def reject (c : Connection) : Connection := { c with stage := .rejected, isOpen := false }

/-- The peer closes the connection, or it is lost. -/
def close (c : Connection) : Connection :=
  { c with streams := { c.streams with acceptTask := false }, isOpen := false }

def runningListeners (c : Connection) : Nat := c.streams.listeners.countP (·.running)

def inSession (c : Connection) : Bool := c.streams.phase = .session

end Connection

/-- What happens to one connection. -/
inductive Move (κ : Type)
  | handshakeFails
  | authenticates (host : Auth.Host) (key : κ) (user : String)
  | stream (a : Serve.Action)
  | returns
  | closes

inductive Action (κ : Type)
  | incoming
  | refused
  | connection (i : Nat) (move : Move κ)
  | shutdown
  | endpointEnds

inductive Loop
  | accepting
  | shutDown
  | ended
  deriving DecidableEq, Repr

structure State where
  loop : Loop
  slots : Nat
  connections : List Connection
  deriving DecidableEq, Repr

def State.start (config : RuntimeConfig) : State := ⟨.accepting, config.maxConnections, []⟩

section Step

variable {κ : Type} (m : Machine κ) (config : RuntimeConfig)

inductive Moves : Connection → Move κ → Connection → Prop
  -- Also a certificate without a key and a user ends here: the connection is closed then.
  | handshakeFails {c : Connection} (h : c.stage = .handshake) : Moves c .handshakeFails c.reject
  | turnedAway {c : Connection} {host : Auth.Host} {key : κ} {user : String}
      {rejection : Auth.Rejection} (h : c.stage = .handshake) (hhost : m.Sees host)
      (hauth : (m.pending config key user).authenticate m.keys host = .error rejection) :
      Moves c (.authenticates host key user) c.reject
  | admitted {c : Connection} {host : Auth.Host} {key : κ} {user : String}
      {auth : Auth.AuthenticatedConnection Unit SocketAddr} (h : c.stage = .handshake)
      (hhost : m.Sees host)
      (hauth : (m.pending config key user).authenticate m.keys host = .ok auth) :
      Moves c (.authenticates host key user) { c with stage := .serving, user := auth.user }
  | stream {c : Connection} {a : Serve.Action} {streams : Serve.State} (h : c.Served)
      (hopen : a ≠ .connectionCloses)
      (hstep : Serve.Step (m.server config) c.user c.streams a streams) :
      Moves c (.stream a) { c with streams := streams }
  | returns {c : Connection} (h : c.stage = .serving) (hphase : c.streams.phase = .ended) :
      Moves c .returns { c with stage := .returned }
  | closes {c : Connection} : Moves c .closes c.close

/-- A task that ends drops its permit. -/
def freed (c d : Connection) : Nat := if c.permit && !d.permit then 1 else 0

inductive Step : State → Action κ → State → Prop
  | incoming {s : State} {free : Nat} (h : s.loop = .accepting) (hfree : s.slots = free + 1) :
      Step s .incoming { s with slots := free, connections := s.connections ++ [.new] }
  | refused {s : State} (h : s.loop = .accepting) (hfree : s.slots = 0) : Step s .refused s
  | connection {s : State} {front back : List Connection} {c d : Connection} {move : Move κ}
      (h : s.connections = front ++ c :: back) (hmove : Moves m config c move d) :
      Step s (.connection front.length move)
        { s with slots := s.slots + freed c d, connections := front ++ d :: back }
  -- `Endpoint::close` closes every connection, whatever its task does.
  | shutdown {s : State} (h : s.loop = .accepting) :
      Step s .shutdown
        { s with loop := .shutDown, connections := s.connections.map Connection.close }
  | endpointEnds {s : State} (h : s.loop = .accepting) :
      Step s .endpointEnds { s with loop := .ended }

end Step

variable {κ : Type} {m : Machine κ} {config : RuntimeConfig} {c d : Connection} {move : Move κ}
  {s t : State} {a : Action κ} {actions : List (Action κ)}

/-- The user is one that the configuration and the server's own account let in. -/
def RuntimeConfig.Allows (config : RuntimeConfig) (m : Machine κ) (user : String) : Prop :=
  (config.auth.allowUsers = [] ∨ user ∈ config.auth.allowUsers) ∧
    (m.isRoot = true ∨ user = m.currentUsername)

/-- The peer had a key that was authorized for the user. -/
def RuntimeConfig.Authorizes (config : RuntimeConfig) (m : Machine κ) (host : Auth.Host) (key : κ)
    (user : String) : Prop :=
  m.Sees host ∧ Auth.isAuthorized m.keys host user key config.auth.authorizedKeysPath = .ok true

theorem authenticate_ok {host : Auth.Host} {key : κ} {user : String}
    {auth : Auth.AuthenticatedConnection Unit SocketAddr} (hhost : m.Sees host)
    (h : (m.pending config key user).authenticate m.keys host = .ok auth) :
    auth.user = user ∧ config.Allows m user ∧ config.Authorizes m host key user := by
  unfold Auth.PendingConnection.authenticate at h
  split at h
  · cases h
  · next hcheck =>
    cases h
    obtain ⟨hallow, hlogin, hauth⟩ := Auth.checkAuthorization_ok hcheck
    rw [hhost.1, hhost.2] at hlogin
    exact ⟨rfl, ⟨hallow, hlogin⟩, hhost, hauth⟩

/-- What holds of one connection at every moment: its streams are a run of `serve`. -/
structure Connection.Inv (m : Machine κ) (config : RuntimeConfig) (c : Connection) : Prop where
  runs : ∃ actions, Trace (Serve.Step (m.server config) c.user) .start actions c.streams
  fresh : ¬ c.Served → c.streams = .start
  ended : c.stage = .returned → c.streams.phase = .ended
  user : c.Served → config.Allows m c.user

theorem inv_new : Connection.new.Inv m config where
  runs := ⟨[], .refl⟩
  fresh _ := rfl
  ended h := by cases h
  user h := by rcases h with h | h <;> cases h

/-- Nothing is served again once `serve` has returned. -/
theorem ended_step {server : Server} {user : String} {v w : Serve.State} {b : Serve.Action}
    (h : Serve.Step server user v b w) (hv : v.phase = .ended) : w.phase = .ended := by
  cases h <;> simp_all

theorem Connection.Inv.moved (h : Moves m config c move d) (hc : c.Inv m config) :
    d.Inv m config := by
  have hfirst : c.stage = .handshake → c.streams = .start := by
    intro hstage
    exact hc.fresh (by simp [Served, hstage])
  cases h with
  | handshakeFails hstage | turnedAway hstage =>
    refine ⟨hc.runs, fun _ => hfirst hstage, by simp [reject], by simp [reject, Served]⟩
  | admitted hstage hhost hauth =>
    obtain ⟨huser, hallows, -⟩ := authenticate_ok hhost hauth
    refine ⟨⟨[], ?_⟩, by simp [Served], by simp, fun _ => ?_⟩
    · rw [hfirst hstage]
      exact .refl
    · rw [huser]
      exact hallows
  | stream hserved hopen hstep =>
    obtain ⟨actions, hrun⟩ := hc.runs
    refine ⟨⟨_, hrun.append (.single hstep)⟩, fun hnot => absurd hserved hnot, ?_, hc.user⟩
    exact fun hstage => ended_step hstep (hc.ended hstage)
  | returns hstage hphase =>
    exact ⟨hc.runs, by simp [Served], fun _ => hphase, fun _ => hc.user (Or.inl hstage)⟩
  | closes =>
    obtain ⟨actions, hrun⟩ := hc.runs
    refine ⟨⟨_, hrun.append (.single .connectionCloses)⟩, ?_, hc.ended, hc.user⟩
    intro hnot
    simp [close, hc.fresh hnot, Serve.State.start]

theorem freed_same (h : d.permit = c.permit) : freed c d = 0 := by
  simp [freed, h]

/-- A connection never takes a permit later, and one that it drops is free again. -/
theorem permit_move (h : Moves m config c move d) :
    freed c d + (if d.permit then 1 else 0) = if c.permit then 1 else 0 := by
  cases h with
  | handshakeFails hstage | turnedAway hstage =>
    simp [freed, Connection.permit, Connection.reject, hstage]
  | admitted hstage => simp [freed, Connection.permit, hstage]
  | returns hstage => simp [freed, Connection.permit, hstage]
  | stream | closes => exact (congrArg (· + _) (freed_same rfl)).trans (Nat.zero_add _)

structure Inv (m : Machine κ) (config : RuntimeConfig) (s : State) : Prop where
  permits : s.slots + s.connections.countP Connection.permit = config.maxConnections
  each : ∀ c ∈ s.connections, c.Inv m config
  shut : s.loop = .shutDown → ∀ c ∈ s.connections, c.isOpen = false

theorem inv_start : Inv m config (.start config) :=
  ⟨rfl, by simp [State.start], by simp [State.start]⟩

theorem closed_move (h : Moves m config c move d) (hc : c.isOpen = false) : d.isOpen = false := by
  cases h with
  | handshakeFails | turnedAway | closes => rfl
  | admitted | stream | returns => exact hc

theorem countP_close (connections : List Connection) :
    (connections.map Connection.close).countP Connection.permit =
      connections.countP Connection.permit := by
  rw [List.countP_map]
  rfl

theorem Inv.step (h : Step m config s a t) (hs : Inv m config s) : Inv m config t := by
  have hpermits := hs.permits
  cases h with
  | incoming hloop hfree =>
    refine ⟨?_, ?_, ?_⟩
    · have hnew : Connection.new.permit = true := rfl
      simp only [List.countP_append, List.countP_singleton, hnew]
      simp only [if_true]
      omega
    · intro c hc
      rcases List.mem_append.mp hc with hc | hc
      · exact hs.each c hc
      · rw [List.mem_singleton.mp hc]
        exact inv_new
    · intro hshut
      exact absurd (hloop.symm.trans hshut) (by simp)
  | refused => exact hs
  | connection hconns hmove =>
    have heach := hs.each
    have hshut := hs.shut
    rw [hconns, countP_middle] at hpermits
    rw [hconns] at heach hshut
    rw [forall_middle] at heach
    have hfreed := permit_move hmove
    refine ⟨?_, forall_middle.mpr ⟨heach.1.moved hmove, heach.2⟩, ?_⟩
    · simp only [countP_middle]
      omega
    · intro hloop
      have hclosed := forall_middle.mp (hshut hloop)
      exact forall_middle.mpr ⟨closed_move hmove hclosed.1, hclosed.2⟩
  | shutdown =>
    refine ⟨by rw [countP_close]; exact hpermits, ?_, ?_⟩
    · intro c hc
      obtain ⟨b, hb, rfl⟩ := List.mem_map.mp hc
      exact (hs.each b hb).moved .closes
    · intro _ c hc
      obtain ⟨b, -, rfl⟩ := List.mem_map.mp hc
      rfl
  | endpointEnds => exact ⟨hpermits, hs.each, fun hshut => by cases hshut⟩

theorem inv_run (h : Trace (Step m config) (.start config) actions s) : Inv m config s :=
  h.invariant inv_start fun hstep hs => Inv.step hstep hs

/-- A connection that is served was served before, or is let in by this very move. -/
theorem served_move (h : Moves m config c move d) (hd : d.Served) :
    (c.Served ∧ c.user = d.user) ∨
      ∃ host key, move = .authenticates host key d.user ∧ config.Authorizes m host key d.user := by
  cases h with
  | handshakeFails | turnedAway => simp [Connection.reject, Connection.Served] at hd
  | @admitted host key user auth _ hhost hauth =>
    obtain ⟨rfl, -, hauthorizes⟩ := authenticate_ok hhost hauth
    exact Or.inr ⟨host, key, rfl, hauthorizes⟩
  | stream hserved => exact Or.inl ⟨hserved, rfl⟩
  | returns hstage => exact Or.inl ⟨Or.inl hstage, rfl⟩
  | closes => exact Or.inl ⟨hd, rfl⟩

theorem served_step {i : Nat} (h : Step m config s a t) (hd : t.connections[i]? = some d)
    (hserved : d.Served) :
    (∃ c, s.connections[i]? = some c ∧ c.Served ∧ c.user = d.user) ∨
      ∃ host key, a = .connection i (.authenticates host key d.user) ∧
        config.Authorizes m host key d.user := by
  cases h with
  | incoming =>
    by_cases hi : i < s.connections.length
    · rw [List.getElem?_append_left hi] at hd
      exact Or.inl ⟨d, hd, hserved, rfl⟩
    · rw [List.getElem?_append_right (Nat.not_lt.mp hi)] at hd
      rw [List.mem_singleton.mp (List.mem_of_getElem? hd)] at hserved
      rcases hserved with h | h <;> cases h
  | refused | endpointEnds => exact Or.inl ⟨d, hd, hserved, rfl⟩
  | @connection front back c e move hconns hmove =>
    by_cases hi : i = front.length
    · subst hi
      cases getElem?_middle.symm.trans hd
      rcases served_move hmove hserved with ⟨hc, huser⟩ | ⟨host, key, rfl, hauthorizes⟩
      · exact Or.inl ⟨c, hconns ▸ getElem?_middle, hc, huser⟩
      · exact Or.inr ⟨host, key, rfl, hauthorizes⟩
    · refine Or.inl ⟨d, ?_, hserved, rfl⟩
      rw [hconns, getElem?_middle_ne hi]
      exact hd
  | shutdown =>
    rw [List.getElem?_map, Option.map_eq_some_iff] at hd
    obtain ⟨c, hc, rfl⟩ := hd
    exact Or.inl ⟨c, hc, hserved, rfl⟩

/-- By induction on the run, the connection is served from the start or let in on the way. -/
theorem served_run {i : Nat} (h : Trace (Step m config) s actions t)
    (hd : t.connections[i]? = some d) (hserved : d.Served) :
    (∃ c, s.connections[i]? = some c ∧ c.Served ∧ c.user = d.user) ∨
      ∃ host key, .connection i (.authenticates host key d.user) ∈ actions ∧
        config.Authorizes m host key d.user := by
  induction h with
  | refl => exact Or.inl ⟨d, hd, hserved, rfl⟩
  | stepL hstep _ ih =>
    rcases ih hd with ⟨c, hc, hcserved, huser⟩ | ⟨host, key, hmem, hauthorizes⟩
    · rw [← huser]
      rcases served_step hstep hc hcserved with hold | ⟨host, key, rfl, hauthorizes⟩
      · exact Or.inl hold
      · exact Or.inr ⟨host, key, List.mem_cons_self, hauthorizes⟩
    · exact Or.inr ⟨host, key, List.mem_cons_of_mem _ hmem, hauthorizes⟩

namespace Connection.Inv

variable (h : c.Inv m config)
include h

theorem serve : Serve.Inv (m.server config) c.user c.streams := by
  obtain ⟨actions, hrun⟩ := h.runs
  exact Serve.inv_run hrun

theorem runningListeners_le :
    c.runningListeners ≤ config.streams.maxForwardsPerConnection :=
  List.countP_le_length.trans (h.serve.counted ▸ h.serve.bounded)

/-- Without a permit nothing was served yet, or `serve` has returned. -/
theorem of_no_permit (hp : c.permit = false) :
    c.streams = .start ∨ c.streams.phase = .ended := by
  cases hstage : c.stage with
  | handshake | serving => simp [permit, hstage] at hp
  | rejected => exact Or.inl (h.fresh (by simp [Served, hstage]))
  | returned => exact Or.inr (h.ended hstage)

theorem runningListeners_eq_zero (hp : c.permit = false) : c.runningListeners = 0 := by
  refine List.countP_eq_zero.mpr ?_
  intro l hl
  rcases h.of_no_permit hp with hstart | hended
  · rw [hstart] at hl
    cases hl
  · simp [h.serve.stopped hended l hl]

theorem permit_of_inSession (hin : c.inSession = true) : c.permit = true := by
  cases hp : c.permit with
  | true => rfl
  | false =>
    have hphase : c.streams.phase = .session := by simpa [inSession] using hin
    rcases h.of_no_permit hp with hstart | hended
    · rw [hstart] at hphase
      cases hphase
    · rw [hended] at hphase
      cases hphase

end Connection.Inv

/-- What the permits of a server bound: connections whose task has not ended, and with them their
listeners, sessions and agent sockets. -/
structure Bounded (config : RuntimeConfig) (s : State) : Prop where
  permits : s.slots + s.connections.countP Connection.permit = config.maxConnections
  listeners : (s.connections.map Connection.runningListeners).sum ≤
    config.maxConnections * config.streams.maxForwardsPerConnection
  sessions : s.connections.countP Connection.inSession ≤ config.maxConnections
  agents : s.connections.countP (·.streams.agent) ≤ config.maxConnections

theorem Inv.bounded (h : Inv m config s) : Bounded config s := by
  have hpermits := h.permits
  have hheld : s.connections.countP Connection.permit ≤ config.maxConnections := by omega
  have hsessions : s.connections.countP Connection.inSession ≤
      s.connections.countP Connection.permit :=
    List.countP_mono_left fun c hc hin => (h.each c hc).permit_of_inSession hin
  refine ⟨hpermits, ?_, hsessions.trans hheld, ?_⟩
  · have hsum := sum_le_countP_mul (fun c hc => (h.each c hc).runningListeners_le)
      fun c hc => (h.each c hc).runningListeners_eq_zero
    exact hsum.trans (Nat.mul_le_mul_right _ hheld)
  · refine (List.countP_mono_left ?_).trans (hsessions.trans hheld)
    intro c hc hagent
    simpa [Connection.inSession] using ((h.each c hc).serve.agent hagent).1

/-- The command line or the file switches TCP forwarding off. -/
def Machine.ForbidsTcp (m : Machine κ) (args : Args) : Prop :=
  args.disableTcpForwarding = true ∨
    ∃ file, m.fileConfig args = .ok file ∧ file.allowTcpForwarding = some false

theorem configure_ok {args : Args} {settings : Settings} (h : m.configure args = .ok settings) :
    settings.config.auth.validate m.isRoot = .ok () ∧
      (m.ForbidsTcp args → settings.config.streams.allowTcpForwarding = false) := by
  obtain ⟨file, hfile, h⟩ := bind_ok h
  obtain ⟨_, hvalid, h⟩ := bind_ok h
  cases h
  refine ⟨hvalid, ?_⟩
  rintro (hargs | ⟨file', hfile', hforbids⟩)
  · simp [Args.settings, Args.runtimeConfig, hargs]
  · cases hfile.symm.trans hfile'
    simp [Args.settings, Args.runtimeConfig, hforbids]

/-- A local forward is accepted only where forwarding is allowed. -/
theorem allowed_of_localForward {i : Nat} {target : Protocol.TcpTarget}
    (h : Trace (Step m config) s actions t)
    (hmem : .connection i (.stream (.localForward target)) ∈ actions) :
    config.streams.allowTcpForwarding = true := by
  obtain ⟨v, w, -, -, -, -, hstep, -⟩ := h.takes_of_mem hmem
  cases hstep with
  | connection _ hmove =>
    cases hmove with
    | stream _ _ hserve =>
      cases hserve with
      | localForward _ hallow => exact hallow

/-- A root server with one key file for two users, and nothing in its configuration file. -/
def sharedArgs : Args :=
  ⟨none, defaultListen, none, none, none, some (Path.ofString "/etc/hush/authorized_keys"),
    ["alice", "bob"], false, false, some 1, none, none, none, none, none⟩

def sharedMachine : Machine Auth.KeyLine.PublicKey where
  keys := Auth.KeyLine.keys
  isRoot := true
  currentUsername := "root"
  parseIp _ := none
  localAddr := defaultListen
  defaultDataDir := Path.ofString "/etc/hush"
  readServerConfig _ := .ok none

def sharedSettings : Settings :=
  sharedArgs.settings (sharedMachine.initialDataDir sharedArgs) emptyFileConfig

/-- A move of the connection that was accepted last. -/
theorem Step.newest {loop : Loop} {slots n : Nat} (hmove : Moves m config c move d)
    (connections : List Connection) (hslots : n = slots + freed c d) :
    Step m config ⟨loop, slots, connections ++ [c]⟩ (.connection connections.length move)
      ⟨loop, n, connections ++ [d]⟩ := by
  subst hslots
  exact .connection rfl hmove

theorem sharedSettings_eq : sharedMachine.configure sharedArgs = .ok sharedSettings := by rfl

theorem shared_authenticates :
    (sharedMachine.pending sharedSettings.config Auth.alice.peerKey "alice").authenticate
      sharedMachine.keys Auth.sharedHost =
        .ok ⟨(), "alice", sharedSettings.config.auth, defaultListen⟩ := by
  rfl

def aliceServed : State := ⟨.accepting, 0, [⟨.serving, "alice", .start, true⟩]⟩

/-- Whatever arrives and in whatever order: no more connections are in the handshake or served than
`max_connections`, with the listeners, sessions and agent sockets that these may have, and no permit
is lost. Nothing is served before the peer's key was authorized for the user, on the files of that
moment; a root server that has one key file for all serves the users it was told to allow. Where the
command line or the file switches TCP forwarding off, nothing is forwarded, and a shutdown leaves no
connection open. -/
theorem server_confined {args : Args} {settings : Settings}
    (hconfig : m.configure args = .ok settings)
    (h : Trace (Step m settings.config) (.start settings.config) actions s) :
    Bounded settings.config s ∧
    (∀ c ∈ s.connections, ¬ c.Served → c.streams = .start) ∧
    (∀ (i : Nat) (c : Connection), s.connections[i]? = some c → c.Served →
      (∃ host key, .connection i (.authenticates host key c.user) ∈ actions ∧
        settings.config.Authorizes m host key c.user) ∧
      settings.config.Allows m c.user ∧
      (m.isRoot = true → settings.config.auth.authorizedKeysPath ≠ none →
        c.user ∈ settings.config.auth.allowUsers)) ∧
    (m.ForbidsTcp args → (∀ c ∈ s.connections, c.streams.listeners = []) ∧
      ∀ i target, .connection i (.stream (.localForward target)) ∉ actions) ∧
    (s.loop = .shutDown → ∀ c ∈ s.connections, c.isOpen = false) := by
  have hinv := inv_run h
  obtain ⟨hvalid, hforbids⟩ := configure_ok hconfig
  refine ⟨hinv.bounded, ?_, ?_, ?_, hinv.shut⟩
  · exact fun c hc => (hinv.each c hc).fresh
  · intro i c hc hserved
    have hallows := (hinv.each c (List.mem_of_getElem? hc)).user hserved
    refine ⟨?_, hallows, ?_⟩
    · rcases served_run h hc hserved with ⟨c₀, hc₀, -⟩ | hadmitted
      · cases hc₀
      · exact hadmitted
    · intro hroot hpath
      rw [hroot] at hvalid
      exact hallows.1.resolve_left (Auth.validate_ok hvalid hpath)
  · intro hforbid
    have hoff := hforbids hforbid
    refine ⟨?_, ?_⟩
    · intro c hc
      refine List.eq_nil_iff_forall_not_mem.mpr fun l hl => ?_
      have hon := ((hinv.each c hc).serve.permitted l hl).allowed
      exact absurd (hoff.symm.trans hon) (by simp)
    · intro i target hmem
      exact absurd (hoff.symm.trans (allowed_of_localForward h hmem)) (by simp)

theorem server_confined_alice :
    Bounded sharedSettings.config aliceServed ∧
      "alice" ∈ sharedSettings.config.auth.allowUsers := by
  have hin : Step sharedMachine sharedSettings.config (.start sharedSettings.config) .incoming
      ⟨.accepting, 0, [.new]⟩ := .incoming rfl rfl
  have hserve : Step sharedMachine sharedSettings.config ⟨.accepting, 0, [.new]⟩
      (.connection 0 (.authenticates Auth.sharedHost Auth.alice.peerKey "alice")) aliceServed :=
    .newest (.admitted rfl ⟨rfl, rfl⟩ shared_authenticates) [] rfl
  obtain ⟨hbounded, -, hserved, -⟩ :=
    server_confined sharedSettings_eq (.stepL hin (.single hserve))
  obtain ⟨-, -, hallowed⟩ := hserved 0 _ rfl (Or.inl rfl)
  exact ⟨hbounded, hallowed rfl (by decide)⟩

/-- The streams of a session that has begun. -/
def sessionBegun (config : RuntimeConfig) : Serve.State :=
  { Serve.State.start with
    phase := .session
    sessions := 1
    acceptTask := true
    slots := config.streams.maxForwardStreamsPerConnection }

/-- A connection whose session returned early: it is open, has no permit and accepts streams. -/
def leftBehind (config : RuntimeConfig) (user : String) : Connection :=
  ⟨.returned, user, (sessionBegun config).leave, true⟩

section Unbounded

variable {host : Auth.Host} {key : κ} {user : String}
  {auth : Auth.AuthenticatedConnection Unit SocketAddr}

/-- One connection is let in, its session breaks, and its permit is free again. -/
theorem leaves_behind (hsessions : config.streams.maxSessionsPerConnection ≠ 0)
    (hhost : m.Sees host)
    (hauth : (m.pending config key user).authenticate m.keys host = .ok auth) (free : Nat)
    (connections : List Connection) :
    ∃ actions, Trace (Step m config) ⟨.accepting, free + 1, connections⟩ actions
      ⟨.accepting, free + 1, connections ++ [leftBehind config user]⟩ := by
  obtain ⟨rfl, -⟩ := authenticate_ok hhost hauth
  have hadmitted : Moves m config .new (.authenticates host key auth.user)
      ⟨.serving, auth.user, .start, true⟩ := .admitted rfl hhost hauth
  have hbegins : Moves m config ⟨.serving, auth.user, .start, true⟩
      (.stream (.opened (.session plain))) ⟨.serving, auth.user, sessionBegun config, true⟩ :=
    .stream (Or.inl rfl) (by simp) (.sessionStarts rfl hsessions fun hon => by cases hon)
  have hbreaks : Moves m config ⟨.serving, auth.user, sessionBegun config, true⟩
      (.stream .sessionBreaks) ⟨.serving, auth.user, (sessionBegun config).leave, true⟩ :=
    .stream (Or.inl rfl) (by simp) (.sessionBreaks rfl)
  have hreturns : Moves m config ⟨.serving, auth.user, (sessionBegun config).leave, true⟩ .returns
      (leftBehind config auth.user) := .returns rfl rfl
  exact ⟨_, .stepL (.incoming rfl rfl) <| .stepL (.newest hadmitted connections rfl) <|
    .stepL (.newest hbegins connections rfl) <| .stepL (.newest hbreaks connections rfl) <|
    .single (.newest hreturns connections rfl)⟩

/-- `max_connections` does not bound the connections that are open: a peer whose sessions break gets
its permits back with its connections open, as many as it likes, and all of them forward. -/
theorem connections_unbounded (hmax : config.maxConnections ≠ 0)
    (hsessions : config.streams.maxSessionsPerConnection ≠ 0) (hhost : m.Sees host)
    (hauth : (m.pending config key user).authenticate m.keys host = .ok auth) (n : Nat) :
    ∃ actions s, Trace (Step m config) (.start config) actions s ∧
      s.slots = config.maxConnections ∧ s.connections.length = n ∧
      ∀ c ∈ s.connections, c.isOpen = true ∧
        (config.streams.allowTcpForwarding = true →
          config.streams.maxForwardStreamsPerConnection ≠ 0 → ∀ target, ∃ streams,
            Serve.Step (m.server config) c.user c.streams (.localForward target) streams) := by
  obtain ⟨free, hfree⟩ := Nat.exists_eq_succ_of_ne_zero hmax
  have hrun : ∃ actions, Trace (Step m config) (.start config) actions
      ⟨.accepting, free + 1, List.replicate n (leftBehind config user)⟩ := by
    induction n with
    | zero =>
      rw [State.start, hfree]
      exact ⟨[], .refl⟩
    | succ n ih =>
      obtain ⟨actions, hrun⟩ := ih
      obtain ⟨more, hmore⟩ := leaves_behind hsessions hhost hauth free
        (List.replicate n (leftBehind config user))
      rw [List.replicate_succ']
      exact ⟨_, hrun.append hmore⟩
  obtain ⟨actions, hrun⟩ := hrun
  refine ⟨actions, _, hrun, hfree.symm, List.length_replicate, ?_⟩
  intro c hc
  obtain rfl := List.eq_of_mem_replicate hc
  refine ⟨rfl, fun hallow hstreams target => ?_⟩
  obtain ⟨slots, hslots⟩ := Nat.exists_eq_succ_of_ne_zero hstreams
  exact ⟨_, .localForward rfl hallow hslots⟩

theorem connections_unbounded_shared :
    sharedSettings.config.maxConnections = 1 ∧
    ∃ actions s, Trace (Step sharedMachine sharedSettings.config) (.start sharedSettings.config)
      actions s ∧ s.connections.length = 1000 ∧ ∀ c ∈ s.connections, c.isOpen = true := by
  obtain ⟨actions, s, hrun, -, hlength, hopen⟩ :=
    connections_unbounded (by decide) (by decide) ⟨rfl, rfl⟩ shared_authenticates 1000
  exact ⟨rfl, actions, s, hrun, hlength, fun c hc => (hopen c hc).1⟩

end Unbounded

/-- The move may end a connection's task. -/
def Move.ends : Move κ → Bool
  | .handshakeFails | .authenticates _ _ _ | .returns => true
  | .stream _ | .closes => false

theorem full_step (h : Step m config s a t) (hs : s.slots = 0)
    (ha : ∀ i move, a = .connection i move → move.ends = false) : t.slots = 0 := by
  cases h with
  | incoming _ hfree => exact absurd (hs.symm.trans hfree) (by simp)
  | refused | shutdown | endpointEnds => exact hs
  | connection _ hmove =>
    have hends := ha _ _ rfl
    cases hmove with
    | handshakeFails | turnedAway | admitted | returns => cases hends
    | stream | closes => exact (congrArg (s.slots + ·) (freed_same rfl)).trans hs

theorem incoming_run (hloop : s.loop = .accepting) :
    ∃ t, Trace (Step m config) s (List.replicate s.slots .incoming) t ∧ t.slots = 0 := by
  generalize hslots : s.slots = free
  induction free generalizing s with
  | zero => exact ⟨s, .refl, hslots⟩
  | succ free ih =>
    have hnext : Step m config s .incoming ⟨s.loop, free, s.connections ++ [.new]⟩ :=
      .incoming hloop hslots
    obtain ⟨t, hrun, ht⟩ := ih (s := ⟨s.loop, free, s.connections ++ [.new]⟩) hloop rfl
    exact ⟨t, .stepL hnext hrun, ht⟩

/-- Peers that only begin a handshake take every free permit of a server, whatever it is doing: as
long as none of these handshakes ends and no other connection does, nobody else is let in. -/
theorem permits_taken_unauthenticated (hloop : s.loop = .accepting) :
    ∃ t, Trace (Step m config) s (List.replicate s.slots .incoming) t ∧
      ∀ {more u}, Trace (Step m config) t more u →
        (∀ i move, .connection i move ∈ more → move.ends = false) →
        ∀ v, ¬ Step m config u .incoming v := by
  obtain ⟨t, hrun, ht⟩ := incoming_run hloop
  refine ⟨t, hrun, ?_⟩
  intro more u hmore hends v hin
  have hfull : u.slots = 0 := by
    clear hrun
    induction hmore with
    | refl => exact ht
    | stepL hstep _ ih =>
      refine ih (full_step hstep ht ?_) (fun i move hmem => hends i move (.tail _ hmem)) hin
      rintro i move rfl
      exact hends i move (.head _)
  cases hin with
  | incoming _ hfree => exact absurd (hfull.symm.trans hfree) (by simp)

theorem permits_taken_unauthenticated_shared :
    ∃ t, Trace (Step sharedMachine sharedSettings.config) (.start sharedSettings.config)
      [.incoming] t ∧ ∀ v, ¬ Step sharedMachine sharedSettings.config t .incoming v := by
  obtain ⟨t, hrun, hrefuses⟩ := @permits_taken_unauthenticated _ sharedMachine
    sharedSettings.config (.start sharedSettings.config) rfl
  exact ⟨t, hrun, hrefuses .refl (by simp)⟩

end Hush.Serve.Runtime
