import Mathlib.Data.List.Basic
import Mathlib.Data.List.Nodup
import Mathlib.Tactic.Common
import Hush.Lib.SocketAddr
import Hush.Lib.Trace

/-! A server endpoint's listener and its private sockets, one for each adopted connection. -/
namespace Hush.FastSock
open Hush.Lib

/-- The codes of `raw_os_error` that are told apart. -/
inductive Errno
  | epipe
  | eaddrnotavail
  | other (code : Nat)
  deriving DecidableEq, Repr

inductive ErrorKind
  | wouldBlock
  | other
  deriving DecidableEq, Repr

/-- `io::Error`: not every error comes from the system. -/
structure IoError where
  rawOsError : Option Errno
  kind : ErrorKind
  deriving DecidableEq, Repr

abbrev IoResult := Except IoError Unit

def isDeadSocketError (err : IoError) : Bool :=
  err.rawOsError = some .epipe || err.rawOsError = some .eaddrnotavail

structure Transmit where
  destination : SocketAddr
  ecn : Option Nat
  contents : List UInt8
  segmentSize : Option Nat
  srcIp : Option IpAddr
  deriving DecidableEq, Repr

inductive Domain
  | ipv4
  | ipv6
  deriving DecidableEq, Repr

/-- An open private socket: its family, and what it is bound and connected to. -/
structure QuicSocket where
  domain : Domain
  bound : SocketAddr
  connected : SocketAddr
  deriving DecidableEq, Repr

/-- `id` stands for the identity of the `Arc`. -/
structure PrivateSocket where
  id : Nat
  peer : SocketAddr
  localIp : IpAddr
  socket : Option QuicSocket
  failed : Bool
  deriving DecidableEq, Repr

/-- `port` is the listener's, and `allocated` counts the private sockets made so far. -/
structure MultiSocket where
  port : UInt16
  privates : List PrivateSocket
  allocated : Nat
  deriving DecidableEq, Repr

/-- `PrivateSocketGuard`. -/
structure Guard where
  id : Nat
  peer : SocketAddr
  deriving DecidableEq, Repr

def unmap : IpAddr → IpAddr
  | .v6 ip =>
    match IpAddr.toIpv4Mapped ip with
    | some ip => .v4 ip
    | none => .v6 ip
  | .v4 ip => .v4 ip

/-- The socket that `open_private` opens, where no call in it fails. -/
def openPrivate (port : UInt16) (p : PrivateSocket) : QuicSocket :=
  match unmap p.peer.ip with
  | .v4 peer => ⟨.ipv4, .new (unmap p.localIp) port, .new (.v4 peer) p.peer.port⟩
  | .v6 _ => ⟨.ipv6, .new p.localIp port, p.peer⟩

/-- What the system answers to the calls that one `try_send` may make. -/
structure Outcomes where
  opened : IoResult
  sent : IoResult
  listener : IoResult
  deriving DecidableEq, Repr

/-- What `try_send` does to a socket. -/
inductive Use
  | opens (id : Nat) (result : IoResult)
  | sends (id : Nat) (socket : QuicSocket) (transmit : Transmit) (result : IoResult)
  | listener (transmit : Transmit) (result : IoResult)
  deriving DecidableEq, Repr

/-- What came of the private socket: the datagram still has to go to the listener where there is
no result. -/
structure Tried where
  p : PrivateSocket
  uses : List Use
  result : Option IoResult

structure Sent where
  result : IoResult
  sockets : MultiSocket
  uses : List Use

def sendPrivate (o : Outcomes) (transmit : Transmit) (p : PrivateSocket) (socket : QuicSocket) :
    Tried :=
  -- the socket is bound to one address already, so no source hint
  let uses := [.sends p.id socket { transmit with srcIp := none } o.sent]
  match o.sent with
  | .ok () => ⟨p, uses, some (.ok ())⟩
  | .error e =>
    if isDeadSocketError e then ⟨{ p with failed := true, socket := none }, uses, none⟩
    else if e.kind = .wouldBlock then ⟨p, uses, none⟩
    else ⟨p, uses, some (.error e)⟩

def tryPrivate (port : UInt16) (o : Outcomes) (transmit : Transmit) (p : PrivateSocket) : Tried :=
  match p.socket with
  | some socket => sendPrivate o transmit p socket
  | none =>
    match o.opened with
    | .ok () =>
      let socket := openPrivate port p
      let sent := sendPrivate o transmit { p with socket := some socket } socket
      { sent with uses := .opens p.id (.ok ()) :: sent.uses }
    | .error e => ⟨{ p with failed := true }, [.opens p.id (.error e)], none⟩

/-- What `try_send` returns for the listener's answer. -/
def listenerResult : IoResult → IoResult
  | .ok () => .ok ()
  | .error e =>
    if e.rawOsError = some .epipe then .ok ()
    else if e.rawOsError = some .eaddrnotavail then .ok ()
    else .error e

namespace MultiSocket

def new (port : UInt16) : MultiSocket := ⟨port, [], 0⟩

def adopt (s : MultiSocket) (localIp : IpAddr) (peer : SocketAddr) : MultiSocket × Guard :=
  ({ s with
      privates := s.privates ++ [⟨s.allocated, peer, localIp, none, false⟩]
      allocated := s.allocated + 1 }, ⟨s.allocated, peer⟩)

def closePrivate (s : MultiSocket) (id : Nat) : MultiSocket :=
  { s with privates := s.privates.filter (·.id ≠ id) }

/-- The private socket is shared, so a change of it shows in the list. -/
def update (s : MultiSocket) (p : PrivateSocket) : MultiSocket :=
  { s with privates := s.privates.map fun q => if q.id = p.id then p else q }

def find (s : MultiSocket) (destination : SocketAddr) : Option PrivateSocket :=
  s.privates.find? fun p => p.peer = destination && !p.failed

def trySend (s : MultiSocket) (o : Outcomes) (transmit : Transmit) : Sent :=
  match s.find transmit.destination with
  | none => ⟨listenerResult o.listener, s, [.listener transmit o.listener]⟩
  | some p =>
    let tried := tryPrivate s.port o transmit p
    match tried.result with
    | some result => ⟨result, s.update tried.p, tried.uses⟩
    | none => ⟨listenerResult o.listener, s.update tried.p,
        tried.uses ++ [.listener transmit o.listener]⟩

end MultiSocket

/-- The private socket that a use is of. -/
def Use.private? : Use → Option Nat
  | .opens id _ => some id
  | .sends id _ _ _ => some id
  | .listener _ _ => none

/-- The datagram was handed over. -/
def Use.delivers : Use → Bool
  | .opens _ _ => false
  | .sends _ _ _ result => result.isOk
  | .listener _ result => result.isOk

/-- An open failure or a dead-socket error on a private socket. -/
def Use.breaks : Use → Option Nat
  | .opens id (.error _) => some id
  | .sends id _ _ (.error e) => if isDeadSocketError e then some id else none
  | _ => none

/-- The sockets, the guards that are alive, and the private sockets that broke so far. -/
structure World where
  sockets : MultiSocket
  guards : List Guard
  broken : List Nat

def World.new (port : UInt16) : World := ⟨.new port, [], []⟩

inductive Call
  | adopt (localIp : IpAddr) (peer : SocketAddr)
  | drop (guard : Guard)
  | trySend (transmit : Transmit) (o : Outcomes)

/-- One call; sends to one peer are serialized by its connection's driver. `try_send` uses the
private socket that it has found after it has let go of the list. Here that is one step, so no run
has a guard that is dropped in between. -/
inductive Step : World → Call → World → Prop
  | adopt (w : World) (localIp : IpAddr) (peer : SocketAddr) :
      Step w (.adopt localIp peer)
        { w with
          sockets := (w.sockets.adopt localIp peer).1
          guards := w.guards ++ [(w.sockets.adopt localIp peer).2] }
  | drop {w : World} {front back : List Guard} {guard : Guard}
      (h : w.guards = front ++ guard :: back) :
      Step w (.drop guard)
        { w with sockets := w.sockets.closePrivate guard.id, guards := front ++ back }
  | trySend (w : World) (transmit : Transmit) (o : Outcomes) :
      Step w (.trySend transmit o)
        { w with
          sockets := (w.sockets.trySend o transmit).sockets
          broken := w.broken ++ (w.sockets.trySend o transmit).uses.filterMap Use.breaks }

/-- How the private socket is at hand: it is open, or this call opens it. -/
inductive AtHand (port : UInt16) (p : PrivateSocket) : QuicSocket → List Use → Prop
  | already {socket : QuicSocket} (h : p.socket = some socket) : AtHand port p socket []
  | opened (h : p.socket = none) : AtHand port p (openPrivate port p) [.opens p.id (.ok ())]

/-- The courses that `try_send` can take. -/
inductive TrySend (s : MultiSocket) (o : Outcomes) (transmit : Transmit) : Sent → Prop
  | direct (h : s.find transmit.destination = none) :
      TrySend s o transmit ⟨listenerResult o.listener, s, [.listener transmit o.listener]⟩
  | unopened {p : PrivateSocket} {e : IoError} (h : s.find transmit.destination = some p)
      (hsocket : p.socket = none) (hopened : o.opened = .error e) :
      TrySend s o transmit ⟨listenerResult o.listener, s.update { p with failed := true },
        [.opens p.id (.error e), .listener transmit o.listener]⟩
  | dead {p : PrivateSocket} {socket : QuicSocket} {opening : List Use} {e : IoError}
      (h : s.find transmit.destination = some p) (hsocket : AtHand s.port p socket opening)
      (hsent : o.sent = .error e) (hdead : isDeadSocketError e = true) :
      TrySend s o transmit ⟨listenerResult o.listener,
        s.update { p with failed := true, socket := none },
        opening ++ [.sends p.id socket { transmit with srcIp := none } o.sent,
          .listener transmit o.listener]⟩
  | blocked {p : PrivateSocket} {socket : QuicSocket} {opening : List Use} {e : IoError}
      (h : s.find transmit.destination = some p) (hsocket : AtHand s.port p socket opening)
      (hsent : o.sent = .error e) (hdead : isDeadSocketError e = false)
      (hkind : e.kind = .wouldBlock) :
      TrySend s o transmit ⟨listenerResult o.listener, s.update { p with socket := some socket },
        opening ++ [.sends p.id socket { transmit with srcIp := none } o.sent,
          .listener transmit o.listener]⟩
  | returned {p : PrivateSocket} {socket : QuicSocket} {opening : List Use}
      (h : s.find transmit.destination = some p) (hsocket : AtHand s.port p socket opening)
      (hsent : ∀ e, o.sent = .error e → isDeadSocketError e = false ∧ e.kind ≠ .wouldBlock) :
      TrySend s o transmit ⟨o.sent, s.update { p with socket := some socket },
        opening ++ [.sends p.id socket { transmit with srcIp := none } o.sent]⟩

theorem tryPrivate_cases (port : UInt16) (o : Outcomes) (transmit : Transmit) (p : PrivateSocket) :
    (∃ e, p.socket = none ∧ o.opened = .error e ∧
      tryPrivate port o transmit p = ⟨{ p with failed := true }, [.opens p.id (.error e)], none⟩) ∨
    ∃ socket opening, AtHand port p socket opening ∧
      tryPrivate port o transmit p =
        let sent := sendPrivate o transmit { p with socket := some socket } socket
        { sent with uses := opening ++ sent.uses } := by
  obtain ⟨id, peer, localIp, socket, failed⟩ := p
  cases socket with
  | some socket => exact .inr ⟨socket, [], .already rfl, rfl⟩
  | none =>
    cases hopened : o.opened with
    | error e => exact .inl ⟨e, rfl, rfl, by simp only [tryPrivate, hopened]⟩
    | ok => exact .inr ⟨_, _, .opened rfl, by simp only [tryPrivate, hopened]; rfl⟩

theorem sendPrivate_cases (o : Outcomes) (transmit : Transmit) (p : PrivateSocket)
    (socket : QuicSocket) :
    let uses := [.sends p.id socket { transmit with srcIp := none } o.sent]
    (∃ e, o.sent = .error e ∧ isDeadSocketError e = true ∧
      sendPrivate o transmit p socket = ⟨{ p with failed := true, socket := none }, uses, none⟩) ∨
    (∃ e, o.sent = .error e ∧ isDeadSocketError e = false ∧ e.kind = .wouldBlock ∧
      sendPrivate o transmit p socket = ⟨p, uses, none⟩) ∨
    ((∀ e, o.sent = .error e → isDeadSocketError e = false ∧ e.kind ≠ .wouldBlock) ∧
      sendPrivate o transmit p socket = ⟨p, uses, some o.sent⟩) := by
  cases hsent : o.sent with
  | ok => exact .inr (.inr ⟨nofun, by simp [sendPrivate, hsent]⟩)
  | error e =>
    by_cases hdead : isDeadSocketError e = true
    · exact .inl ⟨e, rfl, hdead, by simp [sendPrivate, hsent, hdead]⟩
    rw [Bool.not_eq_true] at hdead
    by_cases hkind : e.kind = .wouldBlock
    · exact .inr (.inl ⟨e, rfl, hdead, hkind, by simp [sendPrivate, hsent, hdead, hkind]⟩)
    · refine .inr (.inr ⟨?_, by simp [sendPrivate, hsent, hdead, hkind]⟩)
      rintro e' ⟨⟩
      exact ⟨hdead, hkind⟩

theorem trySend_cases (s : MultiSocket) (o : Outcomes) (transmit : Transmit) :
    TrySend s o transmit (s.trySend o transmit) := by
  unfold MultiSocket.trySend
  split
  · next h => exact .direct h
  · next p h =>
    rcases tryPrivate_cases s.port o transmit p with ⟨e, hsocket, hopened, htried⟩ |
      ⟨socket, opening, hsocket, htried⟩
    · simp only [htried]
      exact .unopened h hsocket hopened
    · rcases sendPrivate_cases o transmit { p with socket := some socket } socket with
        ⟨e, hsent, hdead, hp⟩ | ⟨e, hsent, hdead, hkind, hp⟩ | ⟨hsent, hp⟩
      · simp only [htried, hp, List.append_assoc]
        exact .dead h hsocket hsent hdead
      · simp only [htried, hp, List.append_assoc]
        exact .blocked h hsocket hsent hdead hkind
      · simp only [htried, hp]
        exact .returned h hsocket hsent

theorem AtHand.breaks {port : UInt16} {p : PrivateSocket} {socket : QuicSocket}
    {opening : List Use} (h : AtHand port p socket opening) :
    opening.filterMap Use.breaks = [] := by
  cases h <;> rfl

theorem find_some {s : MultiSocket} {destination : SocketAddr} {p : PrivateSocket}
    (h : s.find destination = some p) :
    p ∈ s.privates ∧ p.peer = destination ∧ p.failed = false := by
  have hp := List.find?_some h
  rw [Bool.and_eq_true, decide_eq_true_eq, Bool.not_eq_true'] at hp
  exact ⟨List.mem_of_find?_eq_some h, hp.1, hp.2⟩

theorem find_none {s : MultiSocket} {destination : SocketAddr} :
    s.find destination = none ↔ ∀ p ∈ s.privates, p.peer = destination → p.failed = true := by
  simp [MultiSocket.find, List.find?_eq_none]

theorem mem_update {s : MultiSocket} {p q : PrivateSocket} (h : q ∈ (s.update p).privates) :
    q = p ∨ (q ∈ s.privates ∧ q.id ≠ p.id) := by
  obtain ⟨r, hr, rfl⟩ := List.mem_map.mp h
  split
  · exact .inl rfl
  · next hne => exact .inr ⟨hr, hne⟩

theorem map_update {α : Type*} {s : MultiSocket} {p : PrivateSocket} {f : PrivateSocket → α}
    (h : ∀ q ∈ s.privates, q.id = p.id → f p = f q) :
    (s.update p).privates.map f = s.privates.map f := by
  simp only [MultiSocket.update, List.map_map]
  refine List.map_congr_left fun q hq => ?_
  simp only [Function.comp_apply]
  split
  · next heq => exact h q hq heq
  · rfl

/-- Guards and private sockets match, and a private socket has failed where it broke. -/
structure Inv (w : World) : Prop where
  guards : w.guards = w.sockets.privates.map fun p => ⟨p.id, p.peer⟩
  nodup : (w.sockets.privates.map PrivateSocket.id).Nodup
  allocated : ∀ p ∈ w.sockets.privates, p.id < w.sockets.allocated
  broken : ∀ id ∈ w.broken, id < w.sockets.allocated
  failed : ∀ p ∈ w.sockets.privates, p.failed = true ↔ p.id ∈ w.broken
  opened : ∀ p ∈ w.sockets.privates, ∀ socket, p.socket = some socket →
    socket = openPrivate w.sockets.port p

theorem inv_new (port : UInt16) : Inv (.new port) := by
  refine ⟨rfl, ?_, ?_, ?_, ?_, ?_⟩ <;> simp [World.new, MultiSocket.new]

namespace Inv

variable {w : World}

theorem mem_guards (h : Inv w) {p : PrivateSocket} (hp : p ∈ w.sockets.privates) :
    ⟨p.id, p.peer⟩ ∈ w.guards := by
  rw [h.guards]
  exact List.mem_map.mpr ⟨p, hp, rfl⟩

/-- The private socket that is found has not broken and its guard lives. -/
theorem of_find_some (h : Inv w) {destination : SocketAddr} {p : PrivateSocket}
    (hfind : w.sockets.find destination = some p) :
    p.id ∉ w.broken ∧ ⟨p.id, destination⟩ ∈ w.guards := by
  obtain ⟨hp, rfl, hfailed⟩ := find_some hfind
  refine ⟨?_, h.mem_guards hp⟩
  rw [← h.failed p hp, hfailed]
  exact Bool.false_ne_true

theorem find_eq_none (h : Inv w) {destination : SocketAddr}
    (hbroken : ∀ guard ∈ w.guards, guard.peer = destination → guard.id ∈ w.broken) :
    w.sockets.find destination = none := by
  rw [find_none]
  intro p hp hpeer
  exact (h.failed p hp).mpr (hbroken _ (h.mem_guards hp) hpeer)

theorem eq_of_id (h : Inv w) {p q : PrivateSocket} (hp : p ∈ w.sockets.privates)
    (hq : q ∈ w.sockets.privates) (hid : p.id = q.id) : p = q :=
  List.inj_on_of_nodup_map h.nodup hp hq hid

theorem adopt (h : Inv w) (localIp : IpAddr) (peer : SocketAddr) :
    Inv { w with
      sockets := (w.sockets.adopt localIp peer).1
      guards := w.guards ++ [(w.sockets.adopt localIp peer).2] } := by
  have hfresh : w.sockets.allocated ∉ w.sockets.privates.map PrivateSocket.id := by
    intro hmem
    obtain ⟨p, hp, hid⟩ := List.mem_map.mp hmem
    exact absurd (h.allocated p hp) (by omega)
  have hunbroken : w.sockets.allocated ∉ w.broken := by
    intro hmem
    exact absurd (h.broken _ hmem) (by omega)
  refine ⟨?_, ?_, ?_, ?_, ?_, ?_⟩
  · simp [MultiSocket.adopt, h.guards]
  · simp only [MultiSocket.adopt, List.map_append, List.map_cons, List.map_nil]
    exact List.nodup_append.mpr ⟨h.nodup, by simp, by
      rintro a ha b hb rfl
      rw [List.mem_singleton] at hb
      exact hfresh (hb ▸ ha)⟩
  · simp only [MultiSocket.adopt, List.forall_mem_append, List.forall_mem_singleton]
    refine ⟨?_, by omega⟩
    intro p hp
    have := h.allocated p hp
    omega
  · intro id hid
    have := h.broken id hid
    simp only [MultiSocket.adopt]
    omega
  · simp only [MultiSocket.adopt, List.forall_mem_append, List.forall_mem_singleton]
    exact ⟨h.failed, by simp [hunbroken]⟩
  · simp only [MultiSocket.adopt, List.forall_mem_append, List.forall_mem_singleton]
    exact ⟨h.opened, by simp⟩

theorem drop (h : Inv w) {front back : List Guard} {guard : Guard}
    (hguards : w.guards = front ++ guard :: back) :
    Inv { w with sockets := w.sockets.closePrivate guard.id, guards := front ++ back } := by
  have hsub : ∀ p ∈ (w.sockets.closePrivate guard.id).privates, p ∈ w.sockets.privates :=
    fun p hp => List.mem_of_mem_filter hp
  refine ⟨?_, ?_, fun p hp => h.allocated p (hsub p hp), h.broken,
    fun p hp => h.failed p (hsub p hp), fun p hp => h.opened p (hsub p hp)⟩
  · have hnodup := h.nodup
    have hmap := h.guards
    rw [hguards] at hmap
    obtain ⟨pfront, prest, hprivates, rfl, hrest⟩ := List.map_eq_append_iff.mp hmap.symm
    obtain ⟨p, pback, rfl, rfl, rfl⟩ := List.map_eq_cons_iff.mp hrest
    rw [hprivates, List.map_append, List.map_cons, List.nodup_middle, ← List.map_append] at hnodup
    have hother : ∀ q ∈ pfront ++ pback, q.id ≠ p.id := by
      rintro q hq hid
      exact (List.nodup_cons.mp hnodup).1 (hid ▸ List.mem_map_of_mem hq)
    rw [List.forall_mem_append] at hother
    simp only [MultiSocket.closePrivate, hprivates, List.filter_append, List.map_append]
    rw [List.filter_cons_of_neg (by simp), List.filter_eq_self.mpr (by simpa using hother.1),
      List.filter_eq_self.mpr (by simpa using hother.2)]
  · exact h.nodup.sublist (List.filter_sublist.map _)

/-- A private socket that keeps its identity and peer can change. -/
theorem update (h : Inv w) {p : PrivateSocket} (hp : p ∈ w.sockets.privates)
    (p' : PrivateSocket) (more : List Nat) (hid : p'.id = p.id) (hpeer : p'.peer = p.peer)
    (hmore : ∀ id ∈ more, id = p.id)
    (hfailed : p'.failed = true ↔ p.id ∈ w.broken ++ more)
    (hopened : ∀ socket, p'.socket = some socket → socket = openPrivate w.sockets.port p') :
    Inv { w with sockets := w.sockets.update p', broken := w.broken ++ more } := by
  have hlt : p.id < w.sockets.allocated := h.allocated p hp
  refine ⟨?_, ?_, ?_, ?_, ?_, ?_⟩
  · rw [map_update, h.guards]
    intro q hq heq
    obtain rfl := h.eq_of_id hq hp (heq.trans hid)
    rw [hid, hpeer]
  · rw [map_update fun q _ heq => heq.symm]
    exact h.nodup
  · intro q hq
    rcases mem_update hq with rfl | ⟨hq, -⟩
    · rw [hid]
      exact hlt
    · exact h.allocated q hq
  · intro id hmem
    rcases List.mem_append.mp hmem with hmem | hmem
    · exact h.broken id hmem
    · rw [hmore id hmem]
      exact hlt
  · intro q hq
    rcases mem_update hq with rfl | ⟨hq, hne⟩
    · rw [hid]
      exact hfailed
    · have : q.id ∉ more := fun hin => hne ((hmore q.id hin).trans hid.symm)
      rw [h.failed q hq, List.mem_append, or_iff_left this]
  · intro q hq
    rcases mem_update hq with rfl | ⟨hq, -⟩
    · exact hopened
    · exact h.opened q hq

theorem atHand_eq (h : Inv w) {p : PrivateSocket} (hp : p ∈ w.sockets.privates)
    {socket : QuicSocket} {opening : List Use} (hsocket : AtHand w.sockets.port p socket opening) :
    socket = openPrivate w.sockets.port p := by
  cases hsocket with
  | already hopen => exact h.opened p hp socket hopen
  | opened => rfl

/-- A socket that did not break stays open. -/
theorem keepOpen (h : Inv w) {p : PrivateSocket} (hp : p ∈ w.sockets.privates)
    {socket : QuicSocket} {opening : List Use} (hsocket : AtHand w.sockets.port p socket opening) :
    Inv { w with
      sockets := w.sockets.update { p with socket := some socket }, broken := w.broken ++ [] } := by
  refine h.update hp _ _ rfl rfl (by simp) (by simpa using h.failed p hp) ?_
  rintro socket' ⟨⟩
  rw [h.atHand_eq hp hsocket]
  rfl

theorem trySend (h : Inv w) (transmit : Transmit) (o : Outcomes) :
    Inv { w with
      sockets := (w.sockets.trySend o transmit).sockets
      broken := w.broken ++ (w.sockets.trySend o transmit).uses.filterMap Use.breaks } := by
  have hcases := trySend_cases w.sockets o transmit
  generalize w.sockets.trySend o transmit = r at hcases ⊢
  cases hcases with
  | direct hfind =>
    simp only [List.filterMap_cons, List.filterMap_nil, Use.breaks, List.append_nil]
    exact h
  | @unopened p e hfind hsocket hopened =>
    obtain ⟨hp, -, -⟩ := find_some hfind
    simp only [List.filterMap_cons, List.filterMap_nil, Use.breaks]
    refine h.update hp _ _ rfl rfl ?_ ?_ ?_ <;> simp [hsocket]
  | @dead p socket opening e hfind hsocket hsent hdead =>
    obtain ⟨hp, -, -⟩ := find_some hfind
    simp only [List.filterMap_append, hsocket.breaks, List.filterMap_cons, List.filterMap_nil,
      Use.breaks, hsent, hdead, if_true, List.nil_append]
    refine h.update hp _ _ rfl rfl ?_ ?_ ?_ <;> simp
  | @blocked p socket opening e hfind hsocket hsent hdead hkind =>
    obtain ⟨hp, -, -⟩ := find_some hfind
    simp only [List.filterMap_append, hsocket.breaks, List.filterMap_cons, List.filterMap_nil,
      Use.breaks, hsent, hdead, Bool.false_eq_true, if_false, List.nil_append]
    exact h.keepOpen hp hsocket
  | @returned p socket opening hfind hsocket hsent =>
    obtain ⟨hp, -, -⟩ := find_some hfind
    have hbreaks :
        (Use.sends p.id socket { transmit with srcIp := none } o.sent).breaks = none := by
      cases hresult : o.sent with
      | ok => rfl
      | error e => simp [Use.breaks, (hsent e hresult).1]
    simp only [List.filterMap_append, hsocket.breaks, List.filterMap_cons, List.filterMap_nil,
      hbreaks, List.nil_append]
    exact h.keepOpen hp hsocket

theorem step {w' : World} {call : Call} (hstep : Step w call w') (h : Inv w) : Inv w' := by
  cases hstep with
  | adopt localIp peer => exact h.adopt localIp peer
  | drop hguards => exact h.drop hguards
  | trySend transmit o => exact h.trySend transmit o

end Inv

theorem openPrivate_connected (port : UInt16) (p : PrivateSocket) :
    (openPrivate port p).connected.port = p.peer.port ∧
      unmap (openPrivate port p).connected.ip = unmap p.peer.ip := by
  unfold openPrivate
  split
  · next peer hpeer => exact ⟨rfl, hpeer.symm⟩
  · exact ⟨rfl, rfl⟩

theorem listenerResult_error {result : IoResult} {e : IoError}
    (h : listenerResult result = .error e) :
    result = .error e ∧ e.rawOsError ≠ some .epipe ∧ e.rawOsError ≠ some .eaddrnotavail := by
  cases result with
  | ok => cases h
  | error e' =>
    simp only [listenerResult] at h
    split_ifs at h with hpipe haddr
    cases h
    exact ⟨rfl, hpipe, haddr⟩

theorem isDeadSocketError_eq_false {e : IoError} :
    isDeadSocketError e = false ↔
      e.rawOsError ≠ some .epipe ∧ e.rawOsError ≠ some .eaddrnotavail := by
  simp [isDeadSocketError]

/-- The private socket did not take the datagram and the listener has to. -/
def FallsBack (result : IoResult) : Prop :=
  ∃ e, result = .error e ∧ (isDeadSocketError e = true ∨ e.kind = .wouldBlock)

namespace TrySend

variable {s : MultiSocket} {o : Outcomes} {transmit : Transmit} {r : Sent}

theorem opening_eq {port : UInt16} {p : PrivateSocket} {socket : QuicSocket}
    {opening : List Use} (h : AtHand port p socket opening) :
    opening = [] ∨ opening = [.opens p.id (.ok ())] := by
  cases h with
  | already => exact .inl rfl
  | opened => exact .inr rfl

/-- Only the last use can hand the datagram over. -/
theorem countP_delivers_le (tried : List Use) (use : Use)
    (htried : ∀ use ∈ tried, use.delivers = false) :
    (tried ++ [use]).countP Use.delivers ≤ 1 := by
  have hnone : tried.countP Use.delivers = 0 := List.countP_eq_zero.mpr (by simpa using htried)
  have hlast : [use].countP Use.delivers ≤ 1 := List.countP_le_length
  rw [List.countP_append]
  omega

theorem delivers_le (h : TrySend s o transmit r) : r.uses.countP Use.delivers ≤ 1 := by
  cases h with
  | direct hfind => exact countP_delivers_le [] _ (by simp)
  | @unopened p e hfind hsocket hopened =>
    exact countP_delivers_le [.opens p.id (.error e)] _ (by simp [Use.delivers])
  | @dead p socket opening e hfind hsocket hsent hdead =>
    rw [List.append_cons]
    apply countP_delivers_le
    rcases opening_eq hsocket with rfl | rfl <;>
      simp [Use.delivers, hsent, Except.isOk, Except.toBool]
  | @blocked p socket opening e hfind hsocket hsent hdead hkind =>
    rw [List.append_cons]
    apply countP_delivers_le
    rcases opening_eq hsocket with rfl | rfl <;>
      simp [Use.delivers, hsent, Except.isOk, Except.toBool]
  | returned hfind hsocket hsent =>
    apply countP_delivers_le
    rcases opening_eq hsocket with rfl | rfl <;> simp [Use.delivers]

theorem find_of_mem (h : TrySend s o transmit r) {use : Use} (huse : use ∈ r.uses) {id : Nat}
    (hid : use.private? = some id) : ∃ p, s.find transmit.destination = some p ∧ p.id = id := by
  cases h with
  | direct hfind =>
    rw [List.mem_singleton] at huse
    simp [huse, Use.private?] at hid
  | @unopened p e hfind hsocket hopened =>
    refine ⟨p, hfind, ?_⟩
    grind [Use.private?]
  | @dead p socket opening e hfind hsocket hsent hdead =>
    refine ⟨p, hfind, ?_⟩
    rcases opening_eq hsocket with rfl | rfl <;> grind [Use.private?]
  | @blocked p socket opening e hfind hsocket hsent hdead hkind =>
    refine ⟨p, hfind, ?_⟩
    rcases opening_eq hsocket with rfl | rfl <;> grind [Use.private?]
  | @returned p socket opening hfind hsocket hsent =>
    refine ⟨p, hfind, ?_⟩
    rcases opening_eq hsocket with rfl | rfl <;> grind [Use.private?]

theorem sends_of_mem (h : TrySend s o transmit r) {id : Nat} {socket : QuicSocket}
    {sent : Transmit} {result : IoResult} (huse : .sends id socket sent result ∈ r.uses) :
    sent = { transmit with srcIp := none } ∧ result = o.sent ∧
      ∃ p opening, s.find transmit.destination = some p ∧ AtHand s.port p socket opening := by
  cases h with
  | direct hfind => simp at huse
  | unopened hfind hsocket hopened => simp at huse
  | dead hfind hsocket hsent hdead =>
    rcases opening_eq hsocket with rfl | rfl <;> grind
  | blocked hfind hsocket hsent hdead hkind =>
    rcases opening_eq hsocket with rfl | rfl <;> grind
  | returned hfind hsocket hsent =>
    rcases opening_eq hsocket with rfl | rfl <;> grind

/-- A private socket that breaks is not used again in the same call. -/
theorem pairwise_uses (h : TrySend s o transmit r) :
    r.uses.Pairwise fun use later => ∀ id, use.breaks = some id → later.private? ≠ some id := by
  cases h with
  | direct hfind => exact List.pairwise_singleton ..
  | unopened hfind hsocket hopened => simp [Use.private?]
  | dead hfind hsocket hsent hdead =>
    rcases opening_eq hsocket with rfl | rfl <;> simp [Use.breaks, Use.private?]
  | blocked hfind hsocket hsent hdead hkind =>
    rcases opening_eq hsocket with rfl | rfl <;> simp [Use.breaks, Use.private?]
  | returned hfind hsocket hsent =>
    rcases opening_eq hsocket with rfl | rfl <;> simp [Use.breaks]

theorem listener_mem_iff (h : TrySend s o transmit r) :
    .listener transmit o.listener ∈ r.uses ↔
      ∀ id socket sent result, .sends id socket sent result ∈ r.uses → FallsBack result := by
  have hsame : ∀ id socket sent result, .sends id socket sent result ∈ r.uses →
      result = o.sent := fun id socket sent result huse => (h.sends_of_mem huse).2.1
  cases h with
  | direct hfind => simp
  | unopened hfind hsocket hopened => simp
  | @dead p socket opening e hfind hsocket hsent hdead =>
    refine iff_of_true (by simp) ?_
    intro id socket' sent result huse
    exact ⟨e, (hsame _ _ _ _ huse).trans hsent, .inl hdead⟩
  | @blocked p socket opening e hfind hsocket hsent hdead hkind =>
    refine iff_of_true (by simp) ?_
    intro id socket' sent result huse
    exact ⟨e, (hsame _ _ _ _ huse).trans hsent, .inr hkind⟩
  | @returned p socket opening hfind hsocket hsent =>
    refine iff_of_false ?_ ?_
    · rcases opening_eq hsocket with rfl | rfl <;> simp
    · intro hall
      obtain ⟨e, he, hdead | hkind⟩ := hall p.id socket { transmit with srcIp := none } o.sent
        (by simp)
      · simp [(hsent e he).1] at hdead
      · exact (hsent e he).2 hkind

/-- What is not left to the listener is returned as it is. -/
theorem result_eq (h : TrySend s o transmit r) {id : Nat} {socket : QuicSocket}
    {sent : Transmit} {result : IoResult} (huse : .sends id socket sent result ∈ r.uses)
    (hresult : ¬ FallsBack result) : r.result = result := by
  obtain ⟨-, rfl, -⟩ := h.sends_of_mem huse
  cases h with
  | direct hfind => simp at huse
  | unopened hfind hsocket hopened => simp at huse
  | @dead p socket opening e hfind hsocket hsent hdead =>
    exact (hresult ⟨e, hsent, .inl hdead⟩).elim
  | @blocked p socket opening e hfind hsocket hsent hdead hkind =>
    exact (hresult ⟨e, hsent, .inr hkind⟩).elim
  | returned hfind hsocket hsent => rfl

theorem result_error (h : TrySend s o transmit r) {e : IoError} (he : r.result = .error e) :
    isDeadSocketError e = false ∧ (e.kind = .wouldBlock →
      .listener transmit o.listener ∈ r.uses ∧ o.listener = .error e) := by
  have hlistener (hr : r.result = listenerResult o.listener)
      (hmem : .listener transmit o.listener ∈ r.uses) :
      isDeadSocketError e = false ∧ (e.kind = .wouldBlock →
        .listener transmit o.listener ∈ r.uses ∧ o.listener = .error e) := by
    obtain ⟨hresult, halive⟩ := listenerResult_error (hr.symm.trans he)
    exact ⟨isDeadSocketError_eq_false.mpr halive, fun _ => ⟨hmem, hresult⟩⟩
  cases h with
  | direct hfind => exact hlistener rfl (by simp)
  | unopened hfind hsocket hopened => exact hlistener rfl (by simp)
  | dead hfind hsocket hsent hdead => exact hlistener rfl (by simp)
  | blocked hfind hsocket hsent hdead hkind => exact hlistener rfl (by simp)
  | returned hfind hsocket hsent =>
    obtain ⟨halive, hkind⟩ := hsent e he
    exact ⟨halive, fun hblock => (hkind hblock).elim⟩

end TrySend

/-- In every run: at most one socket takes a datagram, a private socket is used for its own peer
only, while its guard lives and until it breaks, and the listener takes what is left. -/
theorem datagrams_not_misdirected {port : UInt16} {calls : List Call} {w : World}
    (hrun : Trace Step (.new port) calls w) (o : Outcomes) (transmit : Transmit) :
    let r := w.sockets.trySend o transmit
    r.uses.countP Use.delivers ≤ 1 ∧
    (∀ use ∈ r.uses, ∀ id, use.private? = some id →
      id ∉ w.broken ∧ ⟨id, transmit.destination⟩ ∈ w.guards) ∧
    (r.uses.Pairwise fun use later => ∀ id, use.breaks = some id → later.private? ≠ some id) ∧
    (∀ id socket sent result, .sends id socket sent result ∈ r.uses →
      sent = { transmit with srcIp := none } ∧
      socket.connected.port = transmit.destination.port ∧
      unmap socket.connected.ip = unmap transmit.destination.ip ∧
      (¬ FallsBack result → r.result = result)) ∧
    ((∀ guard ∈ w.guards, guard.peer = transmit.destination → guard.id ∈ w.broken) →
      r.uses = [.listener transmit o.listener]) ∧
    (.listener transmit o.listener ∈ r.uses ↔
      ∀ id socket sent result, .sends id socket sent result ∈ r.uses → FallsBack result) ∧
    ∀ e, r.result = .error e →
      e.rawOsError ≠ some .epipe ∧ e.rawOsError ≠ some .eaddrnotavail ∧
      (e.kind = .wouldBlock → .listener transmit o.listener ∈ r.uses ∧ o.listener = .error e) := by
  intro r
  have h : Inv w := hrun.invariant (P := Inv) (inv_new port) Inv.step
  have hr : TrySend w.sockets o transmit r := trySend_cases w.sockets o transmit
  refine ⟨hr.delivers_le, ?_, hr.pairwise_uses, ?_, ?_, hr.listener_mem_iff, ?_⟩
  · intro use huse id hid
    obtain ⟨p, hfind, rfl⟩ := hr.find_of_mem huse hid
    exact h.of_find_some hfind
  · intro id socket sent result huse
    obtain ⟨hsent, -, p, opening, hfind, hsocket⟩ := hr.sends_of_mem huse
    obtain ⟨hp, hpeer, -⟩ := find_some hfind
    obtain ⟨hport, hip⟩ := openPrivate_connected w.sockets.port p
    rw [hpeer, ← h.atHand_eq hp hsocket] at hport hip
    exact ⟨hsent, hport, hip, hr.result_eq huse⟩
  · intro hbroken
    simp only [r, MultiSocket.trySend, h.find_eq_none hbroken]
  · intro e he
    obtain ⟨halive, hblock⟩ := hr.result_error he
    obtain ⟨hpipe, haddr⟩ := isDeadSocketError_eq_false.mp halive
    exact ⟨hpipe, haddr, hblock⟩

/-- The first datagram for an adopted peer blocks on the new socket and goes to the listener. -/
theorem datagrams_not_misdirected_first_send :
    ∃ w, Trace Step (.new 4433) [.adopt (.v4 0x7f000001) (.v4 0x7f000001 5000)] w ∧
      let o : Outcomes := ⟨.ok (), .error ⟨none, .wouldBlock⟩, .ok ()⟩
      let transmit : Transmit := ⟨.v4 0x7f000001 5000, none, [1, 2, 3], none, none⟩
      (w.sockets.trySend o transmit).uses.countP Use.delivers ≤ 1 ∧
        .listener transmit o.listener ∈ (w.sockets.trySend o transmit).uses := by
  refine ⟨_, .single (.adopt _ _ _), ?_⟩
  intro o transmit
  obtain ⟨hdelivers, -⟩ := datagrams_not_misdirected
    (.single (.adopt (.new 4433) (.v4 0x7f000001) (.v4 0x7f000001 5000))) o transmit
  exact ⟨hdelivers, by decide⟩

end Hush.FastSock
