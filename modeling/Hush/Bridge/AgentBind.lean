import Hush.Bridge.Forwarded
import Hush.Client.ServerStreams

/-!
# A forwarded agent connection

`serve_agent_forward_stream` connects to the agent of the client, binds the connection to the
session, and only then bridges it to the stream, at whose other end a process on the server's host
writes.
-/
namespace Hush.Bridge.Agent
open Hush.Lib Hush.Lib.Wire Hush.Bridge
open Hush.Client (SessionBind)

def sessionBindExtension : List UInt8 := Utf8.encode "session-bind@openssh.com".toList

def sshAgentcExtension : UInt8 := 27

def sshAgentSuccess : UInt8 := 6

def maxAgentReplyLen : Nat := 256 * 1024

def bindBody (bind : SessionBind) : List UInt8 :=
  [sshAgentcExtension] ++ str sessionBindExtension ++ str bind.hostKey ++ str bind.sessionId ++
    str bind.signature ++ [1]

/-- The body with its length in front. -/
def bindMessage (bind : SessionBind) : List UInt8 := str (bindBody bind)

/-- Where `serve_agent_forward_stream` is: before the agent's socket, with so much of the message
left, with so much of the reply read, or copying, after a binding that the agent accepted or not. -/
inductive Phase
  | connecting
  | writing (left : List UInt8)
  | reading (got : List UInt8)
  | bridging (accepted : Option Bool)
  | failed
  deriving DecidableEq, Repr

structure State where
  forwarded : Forwarded
  phase : Phase
  deriving DecidableEq, Repr

def State.start : State := ⟨.start, .connecting⟩

def replyLen (got : List UInt8) : Nat := beValue (got.take 4)

/-- `read_u32` has its four bytes, and they are a length that is taken. -/
def LengthRead (got : List UInt8) : Prop :=
  4 ≤ got.length ∧ 0 < replyLen got ∧ replyLen got ≤ maxAgentReplyLen

/-- The bytes that are still read: up to the length's end, and then up to the reply's. -/
def Wanted (got : List UInt8) (n : Nat) : Prop :=
  got.length + n ≤ 4 ∨ (LengthRead got ∧ got.length + n ≤ 4 + replyLen got)

/-- The client writes to the agent itself. -/
def greeted (s : Forwarded) (items : List UInt8) : Forwarded :=
  { s with there := { s.there with out := s.there.out.put items } }

/-- The client reads from the agent itself. -/
def heard (s : Forwarded) (n : Nat) : Forwarded :=
  { s with back := { s.back with inn := s.back.inn.take n } }

/-- A step of the bridge is labelled, and one of the client before it is not. -/
inductive Step (l : Limits) (bind : Option SessionBind) : State → Option Action → State → Prop
  | forwards {s : State} {a : Action} {f : Forwarded} (h : Forwarded.Step l s.forwarded a f)
      (ha : a ≠ .connect) : Step l bind s (some a) { s with forwarded := f }
  | unbound {s : State} (h : s.phase = .connecting) (hbind : bind = none) :
      Step l bind s none ⟨s.forwarded.bridged, .bridging none⟩
  | connects {s : State} {b : SessionBind} (h : s.phase = .connecting) (hbind : bind = some b) :
      Step l bind s none { s with phase := .writing (bindMessage b) }
  | connectFails {s : State} (h : s.phase = .connecting) :
      Step l bind s none ⟨s.forwarded.refused, .failed⟩
  | writes {s : State} {left : List UInt8} {n : Nat} (h : s.phase = .writing left) (hpos : 0 < n)
      (hn : n ≤ left.length) (hroom : s.forwarded.there.out.queue.length + n ≤ l.socket) :
      Step l bind s none ⟨greeted s.forwarded (left.take n), .writing (left.drop n)⟩
  | writeFails {s : State} {left : List UInt8} (h : s.phase = .writing left) (hleft : left ≠ [])
      (hout : s.forwarded.there.out.broken = true ∨ s.forwarded.there.out.stopped = true) :
      Step l bind s none ⟨s.forwarded.refused, .failed⟩
  | written {s : State} (h : s.phase = .writing []) :
      Step l bind s none { s with phase := .reading [] }
  | reads {s : State} {got : List UInt8} {n : Nat} (h : s.phase = .reading got) (hpos : 0 < n)
      (hn : n ≤ s.forwarded.back.inn.queue.length) (hwanted : Wanted got n) :
      Step l bind s none
        ⟨heard s.forwarded n, .reading (got ++ s.forwarded.back.inn.queue.take n)⟩
  | readFails {s : State} {got : List UInt8} (h : s.phase = .reading got) (hwanted : Wanted got 1)
      (hinn : s.forwarded.back.inn.broken = true ∨
        (s.forwarded.back.inn.queue = [] ∧ s.forwarded.back.inn.ended = true)) :
      Step l bind s none ⟨s.forwarded.refused, .failed⟩
  | badLength {s : State} {got : List UInt8} (h : s.phase = .reading got) (hgot : got.length = 4)
      (hlen : replyLen got = 0 ∨ maxAgentReplyLen < replyLen got) :
      Step l bind s none ⟨s.forwarded.refused, .failed⟩
  | answered {s : State} {got : List UInt8} (h : s.phase = .reading got) (hlen : LengthRead got)
      (hgot : got.length = 4 + replyLen got) :
      Step l bind s none
        ⟨s.forwarded.bridged, .bridging (some (decide (got[4]? = some sshAgentSuccess)))⟩

variable {l : Limits} {bind : Option SessionBind} {b : SessionBind} {s t : State}
  {f f' : Forwarded} {a : Action} {greeting reply : List UInt8}

/-! Before the bridge nothing passes. -/

/-- The far end copies nothing, and has not done so. -/
structure Mute (f : Forwarded) : Prop where
  writer : ∀ held atEnd, f.there.writer ≠ .copying held atEnd
  reader : ∀ held atEnd, f.back.reader ≠ .copying held atEnd
  there : f.there.stream.received = []
  back : f.back.stream.sent = []

theorem Mute.of_waits (hinv : f.Inv greeting reply) (h : f.Waits) : Mute f where
  writer := by simp [h.there]
  reader := by simp [h.back]
  there := (hinv.there.far.waiting h.there).1
  back := (hinv.back.near.waiting h.back).2

theorem Mute.refused (h : Mute f) : Mute f.refused :=
  ⟨by simp [Forwarded.refused], by simp [Forwarded.refused], h.there, h.back⟩

/-- A step of the others leaves a far end that does not copy. -/
theorem Mute.step (hm : Mute f) (h : Forwarded.Step l f a f') (ha : a ≠ .connect) :
    Mute f' ∧ f'.there.writer = f.there.writer ∧ f'.back.reader = f.back.reader := by
  cases h with
  | there h =>
    cases h with
    | near h => exact ⟨⟨hm.writer, hm.reader, (h.received_sink).trans hm.there, hm.back⟩, rfl, rfl⟩
    | far h =>
      obtain ⟨held, atEnd, hcopier⟩ := h.copying
      exact absurd hcopier (hm.writer held atEnd)
    | delivers => exact ⟨⟨hm.writer, hm.reader, hm.there, hm.back⟩, rfl, rfl⟩
  | back h =>
    cases h with
    | near h =>
      obtain ⟨held, atEnd, hcopier⟩ := h.copying
      exact absurd hcopier (hm.reader held atEnd)
    | far h => exact ⟨⟨hm.writer, hm.reader, hm.there, h.taken.sent.trans hm.back⟩, rfl, rfl⟩
    | delivers => exact ⟨⟨hm.writer, hm.reader, hm.there, hm.back⟩, rfl, rfl⟩
  | therePeer h => cases h <;> exact ⟨⟨hm.writer, hm.reader, hm.there, hm.back⟩, rfl, rfl⟩
  | backPeer h => cases h <;> exact ⟨⟨hm.writer, hm.reader, hm.there, hm.back⟩, rfl, rfl⟩
  | connects | refuses => exact absurd rfl ha
  | nearResets | farResets | loses =>
    exact ⟨⟨hm.writer, hm.reader, hm.there, hm.back⟩, rfl, rfl⟩

/-- Where the far end copies nothing, the agent has got the client's bytes and no others, and the
process none. -/
theorem Mute.silent (hm : Mute f) (hinv : f.Inv greeting reply) :
    f.there.out.sent = greeting ∧ f.back.out.sent = [] := by
  obtain ⟨passed, hout, hpassed⟩ := hinv.there.far.passed
  obtain ⟨brought, hback, hbrought⟩ := hinv.back.far.passed
  constructor
  · change [] ++ passed <+: f.there.stream.received at hpassed
    rw [hm.there, List.nil_append, List.prefix_nil] at hpassed
    rw [hpassed, List.append_nil] at hout
    exact hout
  · change [] ++ brought <+: f.back.stream.received at hbrought
    have hnil : brought <+: [] := hm.back ▸ hbrought.trans f.back.stream.received_prefix
    rw [List.prefix_nil.mp hnil] at hback
    exact hback

theorem inv_greeted (hinv : f.Inv greeting reply) (h : f.Waits) (items : List UInt8) :
    (greeted f items).Inv (greeting ++ items) reply := by
  obtain ⟨hreceived, hsent⟩ := hinv.there.far.waiting h.there
  have hidle := @Hop.Inv.idle _ f.there.stream (f.there.out.put items)
    (hinv.there.far.open_of_waiting h.there)
  change f.there.stream.received = [] at hreceived
  change f.there.out.sent = greeting at hsent
  rw [hreceived, Link.sent_put, hsent, ← h.there] at hidle
  exact ⟨⟨hinv.there.near, hidle, hinv.there.stopped⟩, hinv.back⟩

theorem inv_heard (hinv : f.Inv greeting reply) (h : f.Waits) (n : Nat) :
    (heard f n).Inv greeting (reply ++ f.back.inn.queue.take n) := by
  obtain ⟨hreceived, hsent⟩ := hinv.back.near.waiting h.back
  have hidle := @Hop.Inv.idle _ (f.back.inn.take n) f.back.stream
    (hinv.back.near.open_of_waiting h.back)
  change f.back.inn.received = reply at hreceived
  change f.back.stream.sent = [] at hsent
  rw [hsent, ← h.back, show (f.back.inn.take n).received = reply ++ f.back.inn.queue.take n by
    rw [Link.take, hreceived]] at hidle
  exact ⟨hinv.there, ⟨hidle, hinv.back.far, hinv.back.stopped⟩⟩

/-! What the agent is told, and what it answers. -/

def greetingOf : Option SessionBind → List UInt8
  | none => []
  | some b => bindMessage b

/-- The reply to a binding, whole, and whether it accepts; without a binding there is none. -/
def Answer : Option SessionBind → List UInt8 → Option Bool → Prop
  | none, reply, accepted => reply = [] ∧ accepted = none
  | some _, reply, accepted => ∃ body, reply = str body ∧ body ≠ [] ∧
      body.length ≤ maxAgentReplyLen ∧ accepted = some (decide (body.head? = some sshAgentSuccess))

theorem answer_of_read {got : List UInt8} (hlen : LengthRead got)
    (hgot : got.length = 4 + replyLen got) :
    Answer (some b) got (some (decide (got[4]? = some sshAgentSuccess))) := by
  obtain ⟨hfour, hpos, hmax⟩ := hlen
  have hbody : (got.drop 4).length = replyLen got := by rw [List.length_drop]; omega
  refine ⟨got.drop 4, ?_, ?_, by omega, ?_⟩
  · have hhead : beBytes 4 (replyLen got) = got.take 4 := by
      have hvalue := beBytes_beValue (got.take 4)
      rwa [List.length_take_of_le hfour] at hvalue
    rw [str, hbody, hhead, List.take_append_drop]
  · rw [← List.length_pos_iff, hbody]
    exact hpos
  · rw [List.head?_drop]

/-- The client's own part of what went to the agent and came from it. -/
def Exchanged (bind : Option SessionBind) : Phase → List UInt8 → List UInt8 → Prop
  | .connecting, greeting, reply => greeting = [] ∧ reply = []
  | .writing left, greeting, reply =>
    (∃ b, bind = some b) ∧ greeting ++ left = greetingOf bind ∧ reply = []
  | .reading got, greeting, reply =>
    (∃ b, bind = some b) ∧ greeting = greetingOf bind ∧ reply = got
  | .bridging accepted, greeting, reply => greeting = greetingOf bind ∧ Answer bind reply accepted
  | .failed, greeting, _ => greeting <+: greetingOf bind

def Held : Phase → Forwarded → Prop
  | .bridging _, _ => True
  | .failed, f => Mute f
  | _, f => f.Waits

def Inv (bind : Option SessionBind) (s : State) : Prop :=
  ∃ greeting reply, s.forwarded.Inv greeting reply ∧ Exchanged bind s.phase greeting reply ∧
    Held s.phase s.forwarded

theorem inv_start : Inv bind .start := ⟨[], [], Forwarded.inv_start, ⟨rfl, rfl⟩, ⟨rfl, rfl⟩⟩

theorem Held.step {phase : Phase} (hheld : Held phase f) (hinv : f.Inv greeting reply)
    (h : Forwarded.Step l f a f') (ha : a ≠ .connect) : Held phase f' := by
  have waits (hw : f.Waits) : f'.Waits := by
    obtain ⟨-, hwriter, hreader⟩ := (Mute.of_waits hinv hw).step h ha
    exact ⟨hwriter.trans hw.there, hreader.trans hw.back⟩
  cases phase with
  | connecting | writing | reading => exact waits hheld
  | bridging => trivial
  | failed => exact (Mute.step hheld h ha).1

/-- The client gives up before the bridge. -/
theorem Inv.fails (hinv : f.Inv greeting reply) (h : f.Waits) (hle : greeting <+: greetingOf bind) :
    Inv bind ⟨f.refused, .failed⟩ :=
  ⟨greeting, reply, hinv.refused h, hle, (Mute.of_waits hinv h).refused⟩

theorem Step.inv {label : Option Action} (h : Step l bind s label t) (hinv : Inv bind s) :
    Inv bind t := by
  obtain ⟨greeting, reply, hf, hex, hheld⟩ := hinv
  obtain ⟨f, phase⟩ := s
  cases h with
  | forwards h ha => exact ⟨greeting, reply, h.inv hf, hex, hheld.step hf h ha⟩
  | unbound h hbind =>
    cases h
    obtain ⟨rfl, rfl⟩ := hex
    subst hbind
    exact ⟨[], [], hf.bridged hheld, ⟨rfl, rfl, rfl⟩, trivial⟩
  | @connects b h hbind =>
    cases h
    obtain ⟨rfl, rfl⟩ := hex
    subst hbind
    exact ⟨[], [], hf, ⟨⟨b, rfl⟩, rfl, rfl⟩, hheld⟩
  | connectFails h =>
    cases h
    obtain ⟨rfl, rfl⟩ := hex
    exact .fails hf hheld List.nil_prefix
  | @writes left n h =>
    cases h
    obtain ⟨hbound, hleft, rfl⟩ := hex
    refine ⟨_, [], inv_greeted hf hheld (left.take n), ⟨hbound, ?_, rfl⟩, ⟨hheld.there, hheld.back⟩⟩
    rw [List.append_assoc, List.take_append_drop, hleft]
  | writeFails h =>
    cases h
    obtain ⟨-, hleft, -⟩ := hex
    exact .fails hf hheld ⟨_, hleft⟩
  | written h =>
    cases h
    obtain ⟨hbound, hleft, rfl⟩ := hex
    rw [List.append_nil] at hleft
    exact ⟨greeting, [], hf, ⟨hbound, hleft, rfl⟩, hheld⟩
  | @reads got n h =>
    cases h
    obtain ⟨hbound, hgreeting, rfl⟩ := hex
    exact ⟨greeting, _, inv_heard hf hheld n, ⟨hbound, hgreeting, rfl⟩, ⟨hheld.there, hheld.back⟩⟩
  | readFails h =>
    cases h
    obtain ⟨-, rfl, -⟩ := hex
    exact .fails hf hheld (List.prefix_refl _)
  | badLength h =>
    cases h
    obtain ⟨-, rfl, -⟩ := hex
    exact .fails hf hheld (List.prefix_refl _)
  | answered h hlen hgot =>
    cases h
    obtain ⟨⟨b, rfl⟩, hgreeting, rfl⟩ := hex
    exact ⟨greeting, _, hf.bridged hheld, ⟨hgreeting, answer_of_read hlen hgot⟩, trivial⟩

/-- Where nothing has passed: of the client's message a part is written, and no byte of the
process's. -/
def Before (bind : Option SessionBind) (f : Forwarded) : Prop :=
  f.there.out.sent <+: greetingOf bind ∧ f.back.out.sent = []

/-- Where bytes pass: the message is written and the agent has answered; behind it the agent gets
what the process wrote, and the process what the agent wrote behind the answer. -/
def Behind (bind : Option SessionBind) (f : Forwarded) (accepted : Option Bool) : Prop :=
  ∃ reply passed, Answer bind reply accepted ∧ f.there.out.sent = greetingOf bind ++ passed ∧
    passed <+: f.there.inn.sent ∧ reply ++ f.back.out.sent <+: f.back.inn.sent

theorem Inv.before_or_behind (hinv : Inv bind s) :
    (Before bind s.forwarded ∧ ∀ accepted, s.phase ≠ .bridging accepted) ∨
      ∃ accepted, s.phase = .bridging accepted ∧ Behind bind s.forwarded accepted := by
  obtain ⟨greeting, reply, hf, hex, hheld⟩ := hinv
  obtain ⟨f, phase⟩ := s
  have before (hm : Mute f) (hle : greeting <+: greetingOf bind) : Before bind f := by
    obtain ⟨hout, hback⟩ := hm.silent hf
    exact ⟨hout ▸ hle, hback⟩
  cases phase with
  | connecting =>
    obtain ⟨rfl, rfl⟩ := hex
    exact Or.inl ⟨before (.of_waits hf hheld) List.nil_prefix, by simp⟩
  | writing left =>
    obtain ⟨-, hleft, -⟩ := hex
    exact Or.inl ⟨before (.of_waits hf hheld) ⟨left, hleft⟩, by simp⟩
  | reading got =>
    obtain ⟨-, rfl, -⟩ := hex
    exact Or.inl ⟨before (.of_waits hf hheld) (List.prefix_refl _), by simp⟩
  | failed => exact Or.inl ⟨before hheld hex, by simp⟩
  | bridging accepted =>
    obtain ⟨rfl, hanswer⟩ := hex
    obtain ⟨passed, hout, hpassed⟩ := hf.there.passed
    obtain ⟨brought, hback, hbrought⟩ := hf.back.passed
    rw [List.nil_append] at hback hpassed
    refine Or.inr ⟨accepted, rfl, reply, passed, hanswer, hout,
      hpassed.trans f.there.inn.received_prefix, ?_⟩
    rw [hback]
    exact hbrought.trans f.back.inn.received_prefix

/-! The message, as an agent reads it. -/

/-- One byte. -/
def byte : Reader Unit UInt8 := do return (← take () 1).headD 0

/-- The fields of a session binding, and whether it is for forwarding. -/
def readFields : Reader Unit (SessionBind × Bool) := do
  let kind ← byte
  let extension ← string ()
  if kind ≠ sshAgentcExtension ∨ extension ≠ sessionBindExtension then throw ()
  let hostKey ← string ()
  let sessionId ← string ()
  let signature ← string ()
  let forwarding ← byte
  return (⟨hostKey, sessionId, signature⟩, forwarding ≠ 0)

def readSessionBind : Reader Unit (SessionBind × Bool) := do
  let body ← string ()
  match readFields body with
  | .ok (fields, []) => return fields
  | _ => throw ()

theorem reads_byte (x : UInt8) : Reads () byte [x] x := by
  have htake : Reads () (take () 1) [x] [x] := reads_take rfl
  exact htake.map (·.headD 0)

theorem readFields_bindBody (h : (bindBody b).length < 2 ^ 32) :
    readFields (bindBody b) = .ok ((b, true), []) := by
  simp only [bindBody, List.length_append, List.length_singleton, length_str] at h
  have hkey : b.hostKey.length < 2 ^ 32 := by omega
  have hid : b.sessionId.length < 2 ^ 32 := by omega
  have hsignature : b.signature.length < 2 ^ 32 := by omega
  have hname : sessionBindExtension.length < 2 ^ 32 := by decide
  simp only [bindBody, List.append_assoc]
  refine bind_eq_ok_iff.mpr ⟨_, _, (reads_byte _).ok _, ?_⟩
  refine bind_eq_ok_iff.mpr ⟨_, _, (reads_string hname).ok _, ?_⟩
  rw [if_neg (by simp)]
  refine bind_eq_ok_iff.mpr ⟨_, _, (reads_string hkey).ok _, ?_⟩
  refine bind_eq_ok_iff.mpr ⟨_, _, (reads_string hid).ok _, ?_⟩
  refine bind_eq_ok_iff.mpr ⟨_, _, (reads_string hsignature).ok _, ?_⟩
  exact bind_eq_ok_iff.mpr ⟨1, [], rfl, rfl⟩

theorem readSessionBind_bindMessage (h : (bindBody b).length < 2 ^ 32) (data : List UInt8) :
    readSessionBind (bindMessage b ++ data) = .ok ((b, true), data) := by
  refine bind_eq_ok_iff.mpr ⟨_, _, (reads_string h).ok data, ?_⟩
  rw [readFields_bindBody h]
  rfl

/-- Whatever the process on the server's host writes and when, and whatever the agent answers: the
first that the agent reads is the client's binding, with the client's own key of the host and
session, marked as forwarding. No byte of the process's reaches the agent before the agent has
answered it, nor ever when the answer is missing or malformed; and no byte of the answer reaches the
process. -/
theorem agent_bound_first {labels : List (Option Action)}
    (h : Trace (Step l (some b)) .start labels s) (hsize : (bindBody b).length < 2 ^ 32) :
    (∀ data, readSessionBind (bindMessage b ++ data) = .ok ((b, true), data)) ∧
      ((Before (some b) s.forwarded ∧ ∀ accepted, s.phase ≠ .bridging accepted) ∨
        ∃ accepted, s.phase = .bridging accepted ∧ Behind (some b) s.forwarded accepted) :=
  ⟨readSessionBind_bindMessage hsize, (h.invariant inv_start Step.inv).before_or_behind⟩

/-- A binding, and the agent's answer to it. -/
def sample : SessionBind := ⟨[1], [2], [3]⟩

def answer : List UInt8 := [0, 0, 0, 1, 6]

theorem page_pos : 0 < 4096 := by decide

def roomy : Limits := ⟨8192, 4 * 1024 * 1024, 4096, narrow.buffer_pos, narrow.stream_pos, page_pos⟩

/-- The message is in the agent's socket, and the answer in the client's. -/
def asked : Forwarded :=
  ⟨{ Forwarded.start.there with out := .put (bindMessage sample) .empty },
    { Forwarded.start.back with inn := .put answer .empty }⟩

def bound : State := ⟨(heard (heard asked 4) 1).bridged, .bridging (some true)⟩

theorem trace_bound : ∃ labels, Trace (Step roomy (some sample)) .start labels bound := by
  have hlen : (bindMessage sample).length = 49 := by decide
  have hwrites : Step roomy (some sample) ⟨.start, .writing (bindMessage sample)⟩ none
      ⟨greeted .start (bindMessage sample), .writing []⟩ := by
    have hroom : Forwarded.start.there.out.queue.length + 49 ≤ roomy.socket := by decide
    have h : Step roomy (some sample) ⟨.start, .writing (bindMessage sample)⟩ none _ :=
      .writes rfl (by decide) hlen.ge hroom
    rwa [List.take_of_length_le hlen.le, List.drop_of_length_le hlen.le] at h
  have hpeer : Forwarded.Step roomy (greeted .start (bindMessage sample)) .peer asked :=
    .backPeer (.writes rfl (by decide))
  have hfour : Step roomy (some sample) ⟨asked, .reading []⟩ none
      ⟨heard asked 4, .reading [0, 0, 0, 1]⟩ :=
    Step.reads (s := ⟨asked, .reading []⟩) (n := 4) rfl (by decide) (by decide) (Or.inl (by decide))
  have hone : Step roomy (some sample) ⟨heard asked 4, .reading [0, 0, 0, 1]⟩ none
      ⟨heard (heard asked 4) 1, .reading answer⟩ :=
    Step.reads (s := ⟨heard asked 4, .reading [0, 0, 0, 1]⟩) (n := 1) rfl (by decide) (by decide)
      (Or.inr ⟨⟨by decide, by decide, by decide⟩, by decide⟩)
  have hlength : LengthRead answer := ⟨by decide, by decide, by decide⟩
  have hwhole : answer.length = 4 + replyLen answer := by decide
  have hanswered : Step roomy (some sample) ⟨heard (heard asked 4) 1, .reading answer⟩ none bound :=
    .answered rfl hlength hwhole
  exact ⟨_, .stepL (.connects rfl rfl) (.stepL hwrites (.stepL (.written rfl)
    (.stepL (.forwards hpeer (by decide)) (.stepL hfour (.stepL hone (.single hanswered))))))⟩

theorem agent_bound_first_sample :
    (∀ data, readSessionBind (bindMessage sample ++ data) = .ok ((sample, true), data)) ∧
      ((Before (some sample) bound.forwarded ∧ ∀ accepted, bound.phase ≠ .bridging accepted) ∨
        ∃ accepted, bound.phase = .bridging accepted ∧
          Behind (some sample) bound.forwarded accepted) := by
  obtain ⟨labels, h⟩ := trace_bound
  exact agent_bound_first h (by decide)

end Hush.Bridge.Agent
