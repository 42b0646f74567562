import Hush.Lib.Link
import Hush.Lib.Trace

/-!
# A forwarded connection

Both ends of a stream run `copy_reader_to_quic` and `copy_quic_to_writer` beside each other, each in
a task of its own. The end that opens the stream has a connection already; the other first connects.
-/
namespace Hush.Bridge
open Hush.Lib

/-- What the buffer of `io::copy`, a stream's window and a socket hold. -/
structure Limits where
  buffer : Nat
  stream : Nat
  socket : Nat
  buffer_pos : 0 < buffer
  stream_pos : 0 < stream
  socket_pos : 0 < socket

inductive Action
  | move
  | peer
  | connect
  | accident
  deriving DecidableEq, Repr

/-- One way through a forwarded connection: from the socket `inn` through `reader`, a task of
`copy_reader_to_quic`, to the stream, and from there through `writer`, a task of
`copy_quic_to_writer`, to the socket `out`. The stream is counted from behind its header. -/
structure Direction where
  inn : Link UInt8
  reader : Copier UInt8
  stream : Link UInt8
  writer : Copier UInt8
  out : Link UInt8
  deriving DecidableEq, Repr

namespace Direction

/-- The tasks of a bridge move bytes, and the peer behind `out` reads them. -/
inductive Move (l : Limits) : Direction → Direction → Prop
  | near {d : Direction} {inn stream : Link UInt8} {reader : Copier UInt8}
      (h : Hop.Step l.buffer l.stream ⟨d.inn, d.reader, d.stream⟩ ⟨inn, reader, stream⟩) :
      Move l d { d with inn := inn, reader := reader, stream := stream }
  | far {d : Direction} {stream out : Link UInt8} {writer : Copier UInt8}
      (h : Hop.Step l.buffer l.socket ⟨d.stream, d.writer, d.out⟩ ⟨stream, writer, out⟩) :
      Move l d { d with stream := stream, writer := writer, out := out }
  | delivers {d : Direction} {n : Nat} (hpos : 0 < n) (hn : n ≤ d.out.queue.length) :
      Move l d { d with out := d.out.take n }

/-- The peers write, shut their side down, or go away. -/
inductive Peer (l : Limits) : Direction → Direction → Prop
  | writes {d : Direction} {data : List UInt8} (hopen : d.inn.ended = false)
      (hroom : d.inn.queue.length + data.length ≤ l.socket) :
      Peer l d { d with inn := d.inn.put data }
  | shuts {d : Direction} : Peer l d { d with inn := { d.inn with ended := true } }
  | leaves {d : Direction} : Peer l d { d with out := d.out.stop }

inductive Step (l : Limits) : Direction → Action → Direction → Prop
  | move {d d' : Direction} (h : Move l d d') : Step l d .move d'
  | peer {d d' : Direction} (h : Peer l d d') : Step l d .peer d'

/-- Neither a socket nor the connection has failed, and the peer that reads is there. -/
structure Sound (d : Direction) : Prop where
  inn : d.inn.broken = false
  stream : d.stream.broken = false
  out : d.out.broken = false
  reads : d.out.stopped = false

/-- The bytes `base` are in `out` before the bridge, and `skip` are read from `inn` before it. -/
structure Inv (skip base : List UInt8) (d : Direction) : Prop where
  near : Hop.Inv skip [] ⟨d.inn, d.reader, d.stream⟩
  far : Hop.Inv [] base ⟨d.stream, d.writer, d.out⟩
  stopped : d.stream.stopped = true →
    d.stream.broken = true ∨ d.out.broken = true ∨ d.out.stopped = true

variable {l : Limits} {d d' : Direction} {skip base : List UInt8}

theorem Move.inv (h : Move l d d') (hinv : d.Inv skip base) : d'.Inv skip base := by
  cases h with
  | near h =>
    refine ⟨h.inv hinv.near, hinv.far.around (h.fed hinv.near) (.refl _), ?_⟩
    obtain ⟨-, hbroken, hstopped, -⟩ := h.calm
    intro hstop
    rcases hinv.stopped (hstopped.symm.trans hstop) with hcause | hcause
    · exact Or.inl (hbroken.trans hcause)
    · exact Or.inr hcause
  | far h =>
    refine ⟨hinv.near.around (.refl _) h.taken, h.inv hinv.far, ?_⟩
    obtain ⟨hstream, hbroken, hstopped, hcalm⟩ := h.calm
    intro hstop
    change _ = d.stream.broken at hstream
    change _ = d.out.broken at hbroken
    change _ = d.out.stopped at hstopped
    rw [hstream, hbroken, hstopped]
    -- the writer stops the stream only where it fails
    by_contra hnone
    simp only [not_or, Bool.not_eq_true] at hnone
    obtain ⟨h₁, h₂, h₃⟩ := hnone
    rcases hinv.stopped ((hcalm h₁ h₂ h₃).symm.trans hstop) with hcause | hcause | hcause <;>
      simp_all
  | delivers hpos hn =>
    exact ⟨hinv.near, hinv.far.around (.refl _) (Link.taken_take _), hinv.stopped⟩

theorem Peer.inv (h : Peer l d d') (hinv : d.Inv skip base) : d'.Inv skip base := by
  cases h with
  | writes hopen _ =>
    exact ⟨hinv.near.around (Link.fed_put hopen) (.refl _), hinv.far, hinv.stopped⟩
  | shuts =>
    exact ⟨hinv.near.around (.of_queue rfl rfl (fun _ => rfl) id) (.refl _), hinv.far,
      hinv.stopped⟩
  | leaves =>
    exact ⟨hinv.near, hinv.far.around (.refl _) Link.taken_stop, fun _ => Or.inr (Or.inr rfl)⟩

/-- What has gone out is what came in, up to where the bridge stands. -/
theorem Inv.passed (hinv : d.Inv skip base) :
    ∃ passed, d.out.sent = base ++ passed ∧ skip ++ passed <+: d.inn.received := by
  obtain ⟨passed, hout, hpassed⟩ := hinv.far.passed
  obtain ⟨brought, hstream, hbrought⟩ := hinv.near.passed
  rw [List.nil_append] at hpassed hstream
  have hle : passed <+: brought := hstream ▸ hpassed.trans d.stream.received_prefix
  exact ⟨passed, hout, ((List.prefix_append_right_inj skip).mpr hle).trans hbrought⟩

theorem Inv.running (hinv : d.Inv skip base) (hsound : d.Sound) : d.stream.stopped = false := by
  refine Bool.eq_false_iff.mpr fun hstop => ?_
  obtain ⟨-, hstream, hout, hreads⟩ := hsound
  rcases hinv.stopped hstop with hcause | hcause | hcause <;> simp_all

/-- Without a failure the end comes behind everything. -/
theorem Inv.whole (hinv : d.Inv skip base) (hsound : d.Sound) (hended : d.out.ended = true) :
    d.inn.ended = true ∧ ∃ moved, d.inn.sent = skip ++ moved ∧ d.out.sent = base ++ moved := by
  obtain ⟨hstream, moved, hmoved, hout⟩ :=
    hinv.far.whole hended hsound.stream hsound.out hsound.reads
  obtain ⟨hinn, brought, hbrought, hsent⟩ :=
    hinv.near.whole hstream hsound.inn hsound.stream (hinv.running hsound)
  obtain rfl : brought = moved := hsent.symm.trans hmoved
  exact ⟨hinn, brought, hbrought, hout⟩

/-- A bridge that can do nothing more, where nothing has failed, has passed on everything. -/
theorem Inv.drained (hinv : d.Inv skip base) (hsound : d.Sound) (hreader : d.reader ≠ .waiting)
    (hwriter : d.writer ≠ .waiting) (hquiet : ∀ d', ¬ Move l d d') :
    (∃ moved, d.inn.sent = skip ++ moved ∧ d.out.received = base ++ moved) ∧
      (d.inn.ended = true → d.out.ended = true) := by
  have hout : d.out.queue = [] := by
    by_contra hne
    exact hquiet _ (.delivers Nat.one_pos (List.length_pos_of_ne_nil hne))
  obtain ⟨hstream, hheldFar, hendFar⟩ := hinv.far.drained
    (fun _ (h : Hop.Step l.buffer l.socket _ _) => hquiet _ (.far h)) hwriter l.buffer_pos
    (by simpa [hout] using l.socket_pos) hsound.stream hsound.out hsound.reads
  change d.stream.queue = [] at hstream
  obtain ⟨hinn, hheldNear, hendNear⟩ := hinv.near.drained
    (fun _ (h : Hop.Step l.buffer l.stream _ _) => hquiet _ (.near h)) hreader l.buffer_pos
    (by simpa [hstream] using l.stream_pos) hsound.inn hsound.stream (hinv.running hsound)
  change d.inn.queue = [] at hinn
  refine ⟨?_, fun hended => hendFar (hendNear hended)⟩
  obtain ⟨moved, hreceived, hsent⟩ := hinv.near.moved
  obtain ⟨brought, hbrought, hgone⟩ := hinv.far.moved
  simp only [Link.sent, hinn, hstream, hout, hheldNear, hheldFar, List.append_nil,
    List.nil_append] at hreceived hsent hbrought hgone ⊢
  exact ⟨moved, hreceived, by rw [hgone, ← hbrought, hsent]⟩

theorem Step.inv {a : Action} (h : Step l d a d') (hinv : d.Inv skip base) : d'.Inv skip base := by
  cases h with
  | move h => exact h.inv hinv
  | peer h => exact h.inv hinv

/-- A task that has returned stays as it is. -/
theorem Step.returned {a : Action} (h : Step l d a d') :
    (d.reader.Done → d'.reader.Done) ∧ (d.writer.Done → d'.writer.Done) := by
  cases h with
  | move h =>
    cases h with
    | near h =>
      obtain ⟨held, atEnd, hcopier⟩ := h.copying
      change d.reader = _ at hcopier
      exact ⟨fun hdone => by simp [hcopier, Copier.Done] at hdone, id⟩
    | far h =>
      obtain ⟨held, atEnd, hcopier⟩ := h.copying
      change d.writer = _ at hcopier
      exact ⟨id, fun hdone => by simp [hcopier, Copier.Done] at hdone⟩
    | delivers => exact ⟨id, id⟩
  | peer h => cases h <;> exact ⟨id, id⟩

/-- The stream holds no more than its window, and the tasks no more than their buffers. -/
structure Bounded (l : Limits) (d : Direction) : Prop where
  stream : d.stream.queue.length ≤ l.stream
  out : d.out.queue.length ≤ l.socket
  reader : d.reader.held.length ≤ l.buffer
  writer : d.writer.held.length ≤ l.buffer

theorem Step.bounded {a : Action} (h : Step l d a d') (hd : d.Bounded l) : d'.Bounded l := by
  cases h with
  | move h =>
    cases h with
    | near h =>
      obtain ⟨hstream, hreader, -⟩ := h.bounded hd.stream hd.reader
      exact ⟨hstream, hd.out, hreader, hd.writer⟩
    | far h =>
      obtain ⟨hout, hwriter, hstream⟩ := h.bounded hd.out hd.writer
      exact ⟨hstream.trans hd.stream, hout, hd.reader, hwriter⟩
    | @delivers n hpos hn =>
      have hle : (d.out.take n).queue.length ≤ d.out.queue.length := by simp [Link.take]
      exact ⟨hd.stream, hle.trans hd.out, hd.reader, hd.writer⟩
  | peer h => cases h <;> exact ⟨hd.stream, hd.out, hd.reader, hd.writer⟩

theorem Inv.finished_reader (hinv : d.Inv skip base) (hsound : d.Sound) (hdone : d.reader.Done) :
    d.reader = .finished := by
  cases hreader : d.reader with
  | finished => rfl
  | failed dropped =>
    have hstopped := hinv.running hsound
    obtain ⟨hinn, hstream, -, -⟩ := hsound
    rcases hinv.near.failed dropped hreader with hcause | hcause | hcause <;> simp_all
  | waiting | copying => simp [hreader, Copier.Done] at hdone

theorem Inv.finished_writer (hinv : d.Inv skip base) (hsound : d.Sound) (hdone : d.writer.Done) :
    d.out.ended = true := by
  obtain ⟨-, hstream, hout, hreads⟩ := hsound
  cases hwriter : d.writer with
  | finished => rcases hinv.far.finished hwriter with hend | hcause | hcause <;> simp_all
  | failed dropped =>
    rcases hinv.far.failed dropped hwriter with hcause | hcause | hcause <;> simp_all
  | waiting | copying => simp [hwriter, Copier.Done] at hdone

def weight (d : Direction) : Nat :=
  Hop.weight 3 ⟨d.inn, d.reader, d.stream⟩ +
    (2 * d.writer.buffered.length + d.out.queue.length + d.writer.stage)

theorem Move.weight_lt (h : Move l d d') : d'.weight < d.weight := by
  cases h with
  | near h => exact Nat.add_lt_add_right (h.weight_lt 3) _
  | far h =>
    have hlt := h.weight_lt 1
    simp only [weight, Hop.weight] at hlt ⊢
    omega
  | delivers hpos hn =>
    simp only [weight, Link.take, List.length_drop]
    omega

/-- What the moves of a bridge leave alone. -/
structure Kept (d d' : Direction) : Prop where
  sent : d'.inn.sent = d.inn.sent
  ended : d'.inn.ended = d.inn.ended
  sound : d.Sound → d'.Sound
  reader : d.reader ≠ .waiting → d'.reader ≠ .waiting
  writer : d.writer ≠ .waiting → d'.writer ≠ .waiting

theorem Kept.refl (d : Direction) : d.Kept d := ⟨rfl, rfl, id, id, id⟩

theorem Kept.trans {u : Direction} (h : d.Kept u) (h' : u.Kept d') : d.Kept d' :=
  ⟨h'.sent.trans h.sent, h'.ended.trans h.ended, h'.sound ∘ h.sound, h'.reader ∘ h.reader,
    h'.writer ∘ h.writer⟩

theorem Move.kept (h : Move l d d') : d.Kept d' := by
  cases h with
  | near h =>
    obtain ⟨hinn, hstream, -, -⟩ := h.calm
    refine ⟨h.taken.sent, h.taken.ended, ?_, fun _ => h.not_waiting, id⟩
    rintro ⟨h₁, h₂, h₃, h₄⟩
    exact ⟨hinn.trans h₁, hstream.trans h₂, h₃, h₄⟩
  | far h =>
    obtain ⟨hstream, hout, hreads, -⟩ := h.calm
    refine ⟨rfl, rfl, ?_, id, fun _ => h.not_waiting⟩
    rintro ⟨h₁, h₂, h₃, h₄⟩
    exact ⟨h₁, hstream.trans h₂, hout.trans h₃, hreads.trans h₄⟩
  | delivers => exact ⟨rfl, rfl, fun ⟨h₁, h₂, h₃, h₄⟩ => ⟨h₁, h₂, h₃, h₄⟩, id, id⟩

end Direction

/-- A forwarded connection: `there` from the end that opened the stream, and `back` to it. -/
structure Forwarded where
  there : Direction
  back : Direction
  deriving DecidableEq, Repr

namespace Forwarded

def start : Forwarded where
  there := ⟨.empty, .copying [] false, .empty, .waiting, .empty⟩
  back := ⟨.empty, .waiting, .empty, .copying [] false, .empty⟩

/-- The far end starts its two tasks. -/
def bridged (s : Forwarded) : Forwarded where
  there := { s.there with writer := .copying [] false }
  back := { s.back with reader := .copying [] false }

/-- The far end gives up, which drops both halves of its stream. -/
def refused (s : Forwarded) : Forwarded where
  there := { s.there with
    stream := s.there.stream.stop, writer := .failed [], out := s.there.out.cut }
  back := { s.back with
    inn := s.back.inn.cut, reader := .failed [], stream := s.back.stream.close }

def nearReset (s : Forwarded) : Forwarded where
  there := { s.there with inn := s.there.inn.cut }
  back := { s.back with out := s.back.out.cut }

def farReset (s : Forwarded) : Forwarded where
  there := { s.there with out := s.there.out.cut }
  back := { s.back with inn := s.back.inn.cut }

def lost (s : Forwarded) : Forwarded where
  there := { s.there with stream := s.there.stream.cut }
  back := { s.back with stream := s.back.stream.cut }

/-- The far end has not connected. -/
structure Waits (s : Forwarded) : Prop where
  there : s.there.writer = .waiting
  back : s.back.reader = .waiting

inductive Step (l : Limits) : Forwarded → Action → Forwarded → Prop
  | there {s : Forwarded} {d : Direction} (h : s.there.Move l d) :
      Step l s .move { s with there := d }
  | back {s : Forwarded} {d : Direction} (h : s.back.Move l d) : Step l s .move { s with back := d }
  | therePeer {s : Forwarded} {d : Direction} (h : s.there.Peer l d) :
      Step l s .peer { s with there := d }
  | backPeer {s : Forwarded} {d : Direction} (h : s.back.Peer l d) :
      Step l s .peer { s with back := d }
  | connects {s : Forwarded} (h : s.Waits) : Step l s .connect s.bridged
  | refuses {s : Forwarded} (h : s.Waits) : Step l s .connect s.refused
  | nearResets {s : Forwarded} : Step l s .accident s.nearReset
  | farResets {s : Forwarded} : Step l s .accident s.farReset
  | loses {s : Forwarded} : Step l s .accident s.lost

/-- The bytes `greeting` are in the far socket before the bridge, and `reply` are read from it. -/
structure Inv (greeting reply : List UInt8) (s : Forwarded) : Prop where
  there : s.there.Inv [] greeting
  back : s.back.Inv reply []

variable {l : Limits} {s t u : Forwarded} {a : Action} {xs ys : List Action}
  {greeting reply : List UInt8}

theorem inv_start : start.Inv [] [] := by
  have hstart := @Hop.Inv.start UInt8 .empty .empty rfl
  have hidle := @Hop.Inv.idle UInt8 .empty .empty rfl
  exact ⟨⟨hstart, hidle, fun h => absurd h Bool.false_ne_true⟩,
    ⟨hidle, hstart, fun h => absurd h Bool.false_ne_true⟩⟩

theorem Inv.bridged (hinv : s.Inv greeting reply) (h : s.Waits) : s.bridged.Inv greeting reply :=
  ⟨⟨hinv.there.near, hinv.there.far.started h.there, hinv.there.stopped⟩,
    ⟨hinv.back.near.started h.back, hinv.back.far, hinv.back.stopped⟩⟩

theorem Inv.refused (hinv : s.Inv greeting reply) (h : s.Waits) : s.refused.Inv greeting reply where
  there := ⟨hinv.there.near.around (.refl _) Link.taken_stop,
    hinv.there.far.abandoned h.there rfl rfl (Or.inr (Or.inl rfl)), fun _ => Or.inr (Or.inl rfl)⟩
  back := ⟨hinv.back.near.abandoned h.back rfl rfl (Or.inl rfl),
    hinv.back.far.around Link.fed_close (.refl _), hinv.back.stopped⟩

theorem Inv.nearReset (hinv : s.Inv greeting reply) : s.nearReset.Inv greeting reply where
  there := ⟨hinv.there.near.around Link.fed_cut (.refl _), hinv.there.far, hinv.there.stopped⟩
  back := ⟨hinv.back.near, hinv.back.far.around (.refl _) Link.taken_cut,
    fun _ => Or.inr (Or.inl rfl)⟩

theorem Inv.farReset (hinv : s.Inv greeting reply) : s.farReset.Inv greeting reply where
  there := ⟨hinv.there.near, hinv.there.far.around (.refl _) Link.taken_cut,
    fun _ => Or.inr (Or.inl rfl)⟩
  back := ⟨hinv.back.near.around Link.fed_cut (.refl _), hinv.back.far, hinv.back.stopped⟩

theorem Inv.lost (hinv : s.Inv greeting reply) : s.lost.Inv greeting reply where
  there := ⟨hinv.there.near.around (.refl _) Link.taken_cut,
    hinv.there.far.around Link.fed_cut (.refl _), fun _ => Or.inl rfl⟩
  back := ⟨hinv.back.near.around (.refl _) Link.taken_cut,
    hinv.back.far.around Link.fed_cut (.refl _), fun _ => Or.inl rfl⟩

theorem Step.inv (h : Step l s a t) (hinv : s.Inv greeting reply) : t.Inv greeting reply := by
  cases h with
  | there h => exact ⟨h.inv hinv.there, hinv.back⟩
  | back h => exact ⟨hinv.there, h.inv hinv.back⟩
  | therePeer h => exact ⟨h.inv hinv.there, hinv.back⟩
  | backPeer h => exact ⟨hinv.there, h.inv hinv.back⟩
  | connects h => exact hinv.bridged h
  | refuses h => exact hinv.refused h
  | nearResets => exact hinv.nearReset
  | farResets => exact hinv.farReset
  | loses => exact hinv.lost

def Reaches (l : Limits) (s : Forwarded) : Prop := ∃ xs, Trace (Step l) start xs s

theorem Reaches.inv (h : Reaches l s) : s.Inv [] [] := by
  obtain ⟨xs, h⟩ := h
  exact h.invariant inv_start Step.inv

theorem Reaches.then (h : Reaches l s) (h' : Trace (Step l) s xs t) : Reaches l t := by
  obtain ⟨ys, h⟩ := h
  exact ⟨ys ++ xs, h.append h'⟩

end Forwarded

/-- What is read behind `out` is what was written into `inn`, up to some byte; and an end is the end
of all of it, where nothing has failed. -/
def Direction.InOrder (d : Direction) : Prop :=
  d.out.received <+: d.inn.sent ∧
    (d.out.ended = true → d.Sound → d.inn.ended = true ∧ d.out.sent = d.inn.sent)

theorem Direction.Inv.inOrder {d : Direction} (hinv : d.Inv [] []) : d.InOrder := by
  constructor
  · obtain ⟨passed, hout, hpassed⟩ := hinv.passed
    rw [List.nil_append] at hout hpassed
    exact (hout ▸ d.out.received_prefix).trans (hpassed.trans d.inn.received_prefix)
  · intro hended hsound
    obtain ⟨hinn, moved, hmoved, hout⟩ := hinv.whole hsound hended
    exact ⟨hinn, hout.trans hmoved.symm⟩

open Forwarded

variable {l : Limits} {s t : Forwarded} {xs ys : List Action}

/-! Runs in which every byte is delivered. -/

/-- All that was written is delivered, and both ends copy. -/
def idle (data : List UInt8) : Direction :=
  ⟨⟨data, [], false, false, false⟩, .copying [] false, ⟨data, [], false, false, false⟩,
    .copying [] false, ⟨data, [], false, false, false⟩⟩

/-- The same with more bytes in the socket. -/
def written (data more : List UInt8) : Direction :=
  { idle data with inn := ⟨data, more, false, false, false⟩ }

theorem trace_written (data : List UInt8) {more : List UInt8} (h : more.length ≤ l.socket) :
    Trace (Direction.Step l) (idle data) [.peer] (written data more) := by
  have hroom : (idle data).inn.queue.length + more.length ≤ l.socket := by simpa [idle] using h
  exact .single (.peer (.writes rfl hroom))

/-- Five moves take one byte through. -/
theorem trace_byte (data : List UInt8) (x : UInt8) :
    Trace (Direction.Step l) (written data [x]) (List.replicate 5 .move) (idle (data ++ [x])) := by
  have hbuffer : 0 + 1 ≤ l.buffer := l.buffer_pos
  have hstream : 0 + 1 ≤ l.stream := l.stream_pos
  have hsocket : 0 + 1 ≤ l.socket := l.socket_pos
  exact .stepL (.move (.near (.reads Nat.one_pos (Nat.le_refl _) hbuffer)))
    (.stepL (.move (.near (.writes Nat.one_pos (Nat.le_refl _) hstream)))
    (.stepL (.move (.far (.reads Nat.one_pos (Nat.le_refl _) hbuffer)))
    (.stepL (.move (.far (.writes Nat.one_pos (Nat.le_refl _) hsocket)))
    (.single (.move (.delivers Nat.one_pos (Nat.le_refl _)))))))

theorem trace_idle (data : List UInt8) :
    ∃ xs, Trace (Direction.Step l) (idle []) xs (idle data) := by
  induction data using List.reverseRecOn with
  | nil => exact ⟨[], .refl⟩
  | append_singleton data x ih =>
    obtain ⟨xs, h⟩ := ih
    have hone : [x].length ≤ l.socket := l.socket_pos
    exact ⟨_, (h.append (trace_written data hone)).append (trace_byte data x)⟩

theorem trace_there {d d' : Direction} (back : Direction) (h : Trace (Direction.Step l) d xs d') :
    Trace (Step l) ⟨d, back⟩ xs ⟨d', back⟩ := by
  have hstep {d d' : Direction} {a : Action} (h : d.Step l a d') :
      Step l ⟨d, back⟩ a ⟨d', back⟩ := by
    cases h with
    | move h => exact .there h
    | peer h => exact .therePeer h
  have hrun := h.image (Forwarded.mk · back) id hstep
  rwa [List.map_id] at hrun

theorem reaches_idle (data : List UInt8) : Reaches l ⟨idle data, idle []⟩ := by
  have hconnected : Reaches l ⟨idle [], idle []⟩ := ⟨[.connect], .single (.connects ⟨rfl, rfl⟩)⟩
  obtain ⟨xs, h⟩ := @trace_idle l data
  exact hconnected.then (trace_there _ h)

theorem reaches_written (data : List UInt8) {more : List UInt8} (h : more.length ≤ l.socket) :
    Reaches l ⟨written data more, idle []⟩ :=
  (reaches_idle data).then (trace_there _ (trace_written data h))

/-- A socket that holds one byte, before the buffers of `io::copy` and `stream_receive_window`. -/
def narrow : Limits := ⟨8192, 4 * 1024 * 1024, 1, by decide, by decide, by decide⟩

/-- However the tasks of both ends and the peers interleave, and whatever fails: a forwarded
connection carries either way a prefix of what was written, and without a failure it ends only
behind all of it. -/
theorem forwarded_in_order (h : Reaches l s) : s.there.InOrder ∧ s.back.InOrder :=
  ⟨h.inv.there.inOrder, h.inv.back.inOrder⟩

theorem forwarded_in_order_hi : (idle [104, 105]).InOrder ∧ (idle []).InOrder :=
  forwarded_in_order (@reaches_idle narrow [104, 105])

/-! The moves of a bridge come to an end, and leave nothing behind. -/

def Forwarded.weight (s : Forwarded) : Nat := s.there.weight + s.back.weight

/-- The far end has connected, and nothing has failed. -/
structure Forwarded.Works (s : Forwarded) : Prop where
  writer : s.there.writer ≠ .waiting
  reader : s.back.reader ≠ .waiting
  there : s.there.Sound
  back : s.back.Sound

structure Forwarded.Kept (s t : Forwarded) : Prop where
  there : s.there.Kept t.there
  back : s.back.Kept t.back

theorem move_kept (h : Step l s .move t) : s.Kept t := by
  cases h with
  | there h => exact ⟨h.kept, .refl _⟩
  | back h => exact ⟨.refl _, h.kept⟩

theorem move_weight_lt (h : Step l s .move t) : t.weight < s.weight := by
  cases h with
  | there h => exact Nat.add_lt_add_right h.weight_lt _
  | back h => exact Nat.add_lt_add_left h.weight_lt _

/-- Moves only, as many as this. -/
abbrev Moves (l : Limits) (s : Forwarded) (n : Nat) (t : Forwarded) : Prop :=
  Trace (Step l) s (List.replicate n .move) t

theorem Moves.kept {n : Nat} (h : Moves l s n t) : s.Kept t ∧ n + t.weight ≤ s.weight := by
  induction n generalizing s with
  | zero =>
    cases h
    exact ⟨⟨.refl _, .refl _⟩, by omega⟩
  | succ n ih =>
    cases h with
    | stepL hstep h =>
      obtain ⟨hkept, hweight⟩ := ih h
      have hfirst := move_kept hstep
      have hlt := move_weight_lt hstep
      exact ⟨⟨hfirst.there.trans hkept.there, hfirst.back.trans hkept.back⟩, by omega⟩

/-- All that was written up to `d` has been read by `d'`, the end included. -/
def Direction.Delivered (d d' : Direction) : Prop :=
  d'.out.received = d.inn.sent ∧ (d.inn.ended = true → d'.out.ended = true)

theorem Direction.Inv.delivered {d d' : Direction} (hinv : d'.Inv [] []) (hkept : d.Kept d')
    (hsound : d.Sound) (hreader : d.reader ≠ .waiting) (hwriter : d.writer ≠ .waiting)
    (hquiet : ∀ d'', ¬ d'.Move l d'') : d.Delivered d' := by
  obtain ⟨⟨moved, hsent, hreceived⟩, hended⟩ :=
    hinv.drained (hkept.sound hsound) (hkept.reader hreader) (hkept.writer hwriter) hquiet
  rw [hkept.sent] at hsent
  exact ⟨hreceived.trans hsent.symm, fun h => hended (hkept.ended.trans h)⟩

/-- The tasks that an end starts by itself have started. -/
theorem Forwarded.Reaches.copies (h : Reaches l s) :
    s.there.reader ≠ .waiting ∧ s.back.writer ≠ .waiting := by
  obtain ⟨xs, h⟩ := h
  refine h.invariant (P := fun s => s.there.reader ≠ .waiting ∧ s.back.writer ≠ .waiting)
    (by simp [start]) ?_
  rintro s a t h ⟨hreader, hwriter⟩
  cases h with
  | there h => exact ⟨h.kept.reader hreader, hwriter⟩
  | back h => exact ⟨hreader, h.kept.writer hwriter⟩
  | therePeer h => exact ⟨by cases h <;> exact hreader, hwriter⟩
  | backPeer h => exact ⟨hreader, by cases h <;> exact hwriter⟩
  | connects | refuses | nearResets | farResets | loses => exact ⟨hreader, hwriter⟩

/-- From every state in which both ends are connected and nothing has failed, whatever is still in
the sockets, the stream and the buffers, and however small those are: the tasks make so many moves
at most, in any order; and when no move is left, both peers have read everything, and whoever waits
for an end has seen it. One way that is shut down leaves the other. -/
theorem forwarded_drains {n : Nat} (h : Reaches l s) (hworks : s.Works) (hmoves : Moves l s n t) :
    n ≤ s.weight ∧ ((∀ u, ¬ Step l t .move u) →
      s.there.Delivered t.there ∧ s.back.Delivered t.back) := by
  obtain ⟨hkept, hweight⟩ := hmoves.kept
  refine ⟨by omega, fun hquiet => ?_⟩
  obtain ⟨hreader, hwriter⟩ := h.copies
  have hinv := (h.then hmoves).inv
  exact ⟨hinv.there.delivered hkept.there hworks.there hreader hworks.writer
      fun _ hmove => hquiet _ (.there hmove),
    hinv.back.delivered hkept.back hworks.back hworks.reader hwriter
      fun _ hmove => hquiet _ (.back hmove)⟩

theorem idle_quiet (data : List UInt8) (d : Direction) : ¬ (idle data).Move l d := by
  have hop {size room : Nat} {out : Link UInt8} {h : Hop UInt8} :
      ¬ Hop.Step size room ⟨⟨data, [], false, false, false⟩, .copying [] false, out⟩ h := by
    intro h
    cases h with
    | reads hpos hn => exact absurd hn (Nat.not_le.mpr hpos)
    | readsEnd _ hended => cases hended
    | readFails hbroken => cases hbroken
    | writes hpos hn => exact absurd hn (Nat.not_le.mpr hpos)
    | writeFails hheld => exact hheld rfl
  intro h
  cases h with
  | near h => exact hop h
  | far h => exact hop h
  | delivers hpos hn => exact absurd hn (Nat.not_le.mpr hpos)

theorem forwarded_drains_byte :
    5 ≤ (Forwarded.mk (written [] [104]) (idle [])).weight ∧
      (written [] [104]).Delivered (idle [104]) ∧ (idle []).Delivered (idle []) := by
  have hreached : Reaches narrow ⟨written [] [104], idle []⟩ := reaches_written [] (Nat.le_refl 1)
  have hworks : (Forwarded.mk (written [] [104]) (idle [])).Works :=
    ⟨by simp [written, idle], by simp [idle], ⟨rfl, rfl, rfl, rfl⟩, ⟨rfl, rfl, rfl, rfl⟩⟩
  obtain ⟨hweight, hdelivered⟩ :=
    forwarded_drains hreached hworks (trace_there _ (trace_byte [] 104))
  refine ⟨hweight, hdelivered ?_⟩
  intro u h
  cases h with
  | there h => exact idle_quiet _ _ h
  | back h => exact idle_quiet _ _ h

/-! What the peer behind `out` sees of a failure. -/

/-- The end of the far socket's data: so much is read, and no more will come. -/
def endedAt (data : List UInt8) : Link UInt8 := ⟨data, [], true, false, false⟩

/-- The peer shut its side down. -/
theorem reaches_whole (data : List UInt8) :
    ∃ s, Reaches l s ∧ s.there.Sound ∧ s.there.inn = endedAt data ∧ s.there.out = endedAt data :=
  ⟨_, (reaches_idle data).then
      (.stepL (.therePeer .shuts)
      (.stepL (.there (.near (.readsEnd rfl rfl)))
      (.stepL (.there (.near .finishes))
      (.stepL (.there (.far (.readsEnd rfl rfl)))
      (.single (.there (.far .finishes))))))),
    ⟨rfl, rfl, rfl, rfl⟩, rfl, rfl⟩

/-- The peer's connection was reset with bytes on their way. -/
theorem reaches_reset (data : List UInt8) {rest : List UInt8} (h : rest.length ≤ l.socket) :
    ∃ s, Reaches l s ∧ s.there.inn.sent = data ++ rest ∧ s.there.inn.ended = false ∧
      s.there.out = endedAt data :=
  ⟨_, (reaches_written data h).then
      (.stepL .nearResets
      (.stepL (.there (.near (.readFails rfl)))
      (.stepL (.there (.far (.readsEnd rfl rfl)))
      (.single (.there (.far .finishes)))))),
    rfl, rfl, rfl⟩

/-- The connection between the two ends was lost with bytes on their way. -/
theorem reaches_lost (data : List UInt8) {rest : List UInt8} (h : rest.length ≤ l.socket) :
    ∃ s, Reaches l s ∧ s.there.inn.sent = data ++ rest ∧ s.there.inn.ended = false ∧
      s.there.out = endedAt data :=
  ⟨_, (reaches_written data h).then
      (.stepL .loses
      (.single (.there (.far (.readFails rfl))))),
    rfl, rfl, rfl⟩

/-- Whatever was delivered and whatever was not: a peer that finishes, a peer whose connection is
reset before it finishes, and a connection that is lost look the same behind `out`, namely as the
end of the data. The dropped `SendStream` finishes the stream, and the dropped write half shuts the
socket down, so a failure cuts the data short without a mark. -/
theorem truncation_unseen (data : List UInt8) {rest : List UInt8} (h : rest.length ≤ l.socket) :
    ∃ whole reset lost : Forwarded,
      (Reaches l whole ∧ Reaches l reset ∧ Reaches l lost) ∧
      (whole.there.inn.sent = data ∧ whole.there.inn.ended = true ∧ whole.there.Sound) ∧
      (reset.there.inn.sent = data ++ rest ∧ reset.there.inn.ended = false) ∧
      (lost.there.inn.sent = data ++ rest ∧ lost.there.inn.ended = false) ∧
      whole.there.out = endedAt data ∧ reset.there.out = whole.there.out ∧
      lost.there.out = whole.there.out := by
  obtain ⟨whole, hwhole, hsound, hinn, hout⟩ := @reaches_whole l data
  obtain ⟨reset, hreset, hresetSent, hresetOpen, hresetOut⟩ := reaches_reset data h
  obtain ⟨lost, hlost, hlostSent, hlostOpen, hlostOut⟩ := reaches_lost data h
  refine ⟨whole, reset, lost, ⟨hwhole, hreset, hlost⟩, ?_, ⟨hresetSent, hresetOpen⟩,
    ⟨hlostSent, hlostOpen⟩, hout, hresetOut.trans hout.symm, hlostOut.trans hout.symm⟩
  rw [hinn]
  exact ⟨List.append_nil data, rfl, hsound⟩

theorem truncation_unseen_byte :
    ∃ whole reset lost : Forwarded,
      (Reaches narrow whole ∧ Reaches narrow reset ∧ Reaches narrow lost) ∧
      (whole.there.inn.sent = [104] ∧ whole.there.inn.ended = true ∧ whole.there.Sound) ∧
      (reset.there.inn.sent = [104, 105] ∧ reset.there.inn.ended = false) ∧
      (lost.there.inn.sent = [104, 105] ∧ lost.there.inn.ended = false) ∧
      whole.there.out = endedAt [104] ∧ reset.there.out = whole.there.out ∧
      lost.there.out = whole.there.out :=
  truncation_unseen [104] (Nat.le_refl 1)

end Hush.Bridge
