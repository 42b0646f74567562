import Hush.Bridge.Forwarded

/-!
# The output of a session

The child's output goes through a task of the server's and a task of the client's. The server sends
the status when its own tasks are through, and the client, when it has the status, gives its tasks
two seconds each and exits.
-/
namespace Hush.Session.Output
open Hush.Lib Hush.Bridge

/-- `run_pipes` or `run_pty` of the server: before the child's end, at the `await` of `out_task` and
of `err_task`, and with the status sent. -/
inductive Server
  | running
  | awaitsOut
  | awaitsErr
  | sent
  deriving DecidableEq, Repr

/-- `run_pipes` or `run_pty` of the client: before the session's end is known, at the `timeout`
around `out_task` and around `err_task`, and after `finish_session`, with the status of the child or
without one. -/
inductive Client
  | running
  | awaitsOut (status : Bool)
  | awaitsErr (status : Bool)
  | exited (status : Bool)
  deriving DecidableEq, Repr

/-- The pipes or the terminal of the child are the `inn` of the directions, and the client's own
stdout and stderr their `out`. -/
structure State where
  stdout : Direction
  stderr : Direction
  childRuns : Bool
  server : Server
  client : Client
  timedOut : Bool
  deriving DecidableEq, Repr

def State.start : State := ⟨idle [], idle [], true, .running, .running, false⟩

inductive Event
  | output (action : Action)
  | childExits
  | server
  | client
  | timeout
  | lost
  deriving DecidableEq, Repr

/-- What comes after `out_task`: with a terminal there is no stream for stderr. -/
def afterOut (terminal : Bool) : Server := if terminal then .sent else .awaitsErr

def exitAfterOut (terminal status : Bool) : Client :=
  if terminal then .exited status else .awaitsErr status

/-- Whoever holds the child's output writes it, also behind the child's end. A task still runs when
its `timeout` has passed; only the exit of the client ends its tasks, whose every step shows in
`writer`. -/
inductive Step (l : Limits) (terminal : Bool) : State → Event → State → Prop
  | stdout {s : State} {a : Action} {d : Direction} (h : s.stdout.Step l a d)
      (hlive : ∀ status, s.client = .exited status → d.writer = s.stdout.writer) :
      Step l terminal s (.output a) { s with stdout := d }
  | stderr {s : State} {a : Action} {d : Direction} (h : s.stderr.Step l a d)
      (hlive : ∀ status, s.client = .exited status → d.writer = s.stderr.writer) :
      Step l terminal s (.output a) { s with stderr := d }
  | childExits {s : State} : Step l terminal s .childExits { s with childRuns := false }
  | childWaited {s : State} (h : s.server = .running) (hchild : s.childRuns = false) :
      Step l terminal s .server { s with server := .awaitsOut }
  | outCopied {s : State} (h : s.server = .awaitsOut) (hdone : s.stdout.reader.Done) :
      Step l terminal s .server { s with server := afterOut terminal }
  | outTimesOut {s : State} (hterminal : terminal = true) (h : s.server = .awaitsOut) :
      Step l terminal s .timeout { s with server := .sent, timedOut := true }
  | errCopied {s : State} (h : s.server = .awaitsErr) (hdone : s.stderr.reader.Done) :
      Step l terminal s .server { s with server := .sent }
  | statusRead {s : State} (h : s.client = .running) (hserver : s.server = .sent) :
      Step l terminal s .client { s with client := .awaitsOut true }
  | noStatus {s : State} (h : s.client = .running) :
      Step l terminal s .client { s with client := .awaitsOut false }
  | outWritten {s : State} {status : Bool} (h : s.client = .awaitsOut status)
      (hdone : s.stdout.writer.Done) :
      Step l terminal s .client { s with client := exitAfterOut terminal status }
  | outLate {s : State} {status : Bool} (h : s.client = .awaitsOut status) :
      Step l terminal s .timeout
        { s with client := exitAfterOut terminal status, timedOut := true }
  | errWritten {s : State} {status : Bool} (h : s.client = .awaitsErr status)
      (hdone : s.stderr.writer.Done) :
      Step l terminal s .client { s with client := .exited status }
  | errLate {s : State} {status : Bool} (h : s.client = .awaitsErr status) :
      Step l terminal s .timeout { s with client := .exited status, timedOut := true }
  | loses {s : State} :
      Step l terminal s .lost { s with
        stdout := { s.stdout with stream := s.stdout.stream.cut }
        stderr := { s.stderr with stream := s.stderr.stream.cut } }

variable {l : Limits} {terminal : Bool} {s t : State} {e : Event} {events : List Event}

/-- The client has the child's status. -/
def Client.Informed : Client → Prop
  | awaitsOut status | awaitsErr status | exited status => status = true
  | running => False

structure Inv (l : Limits) (terminal : Bool) (s : State) : Prop where
  out : s.stdout.Inv [] []
  err : s.stderr.Inv [] []
  outBounded : s.stdout.Bounded l
  errBounded : s.stderr.Bounded l
  outCopied : s.server = .awaitsErr ∨ s.server = .sent →
    s.stdout.reader.Done ∨ (terminal = true ∧ s.timedOut = true)
  errCopied : terminal = false → s.server = .sent → s.stderr.reader.Done
  informed : s.client.Informed → s.server = .sent
  outWritten : ∀ status, s.client = .awaitsErr status ∨ s.client = .exited status →
    s.stdout.writer.Done ∨ s.timedOut = true
  errWritten : ∀ status, terminal = false → s.client = .exited status →
    s.stderr.writer.Done ∨ s.timedOut = true

theorem inv_idle : (idle []).Inv [] [] := by
  have hstart := @Hop.Inv.start UInt8 .empty .empty rfl
  exact ⟨hstart, hstart, fun h => absurd h Bool.false_ne_true⟩

theorem bounded_idle : (idle []).Bounded l :=
  ⟨Nat.zero_le _, Nat.zero_le _, Nat.zero_le _, Nat.zero_le _⟩

theorem inv_start : Inv l terminal .start :=
  ⟨inv_idle, inv_idle, bounded_idle, bounded_idle, by simp [State.start], by simp [State.start],
    by simp [State.start, Client.Informed], by simp [State.start], by simp [State.start]⟩

theorem inv_cut {d : Direction} (hinv : d.Inv [] []) :
    Direction.Inv [] [] { d with stream := d.stream.cut } :=
  ⟨hinv.near.around (.refl _) Link.taken_cut, hinv.far.around Link.fed_cut (.refl _),
    fun _ => Or.inl rfl⟩

theorem Step.inv (h : Step l terminal s e t) (hinv : Inv l terminal s) : Inv l terminal t := by
  cases h with
  | stdout h _ =>
    exact { hinv with
      out := h.inv hinv.out
      outBounded := h.bounded hinv.outBounded
      outCopied := fun hs => (hinv.outCopied hs).imp_left h.returned.1
      outWritten := fun status hs => (hinv.outWritten status hs).imp_left h.returned.2 }
  | stderr h _ =>
    exact { hinv with
      err := h.inv hinv.err
      errBounded := h.bounded hinv.errBounded
      errCopied := fun ht hs => h.returned.1 (hinv.errCopied ht hs)
      errWritten := fun status ht hs => (hinv.errWritten status ht hs).imp_left h.returned.2 }
  | childExits => exact { hinv with }
  | childWaited h _ =>
    exact { hinv with
      outCopied := by simp
      errCopied := by simp
      informed := fun hi => absurd (h.symm.trans (hinv.informed hi)) (by simp) }
  | outCopied h hdone =>
    exact { hinv with
      outCopied := fun _ => Or.inl hdone
      errCopied := by rintro rfl; simp [afterOut]
      informed := fun hi => absurd (h.symm.trans (hinv.informed hi)) (by simp) }
  | outTimesOut hterminal h =>
    exact { hinv with
      outCopied := fun _ => Or.inr ⟨hterminal, rfl⟩
      errCopied := by simp [hterminal]
      informed := fun _ => rfl
      outWritten := fun _ _ => Or.inr rfl
      errWritten := fun _ _ _ => Or.inr rfl }
  | errCopied h hdone =>
    exact { hinv with
      outCopied := fun _ => hinv.outCopied (Or.inl h)
      errCopied := fun _ _ => hdone
      informed := fun _ => rfl }
  | statusRead h hserver =>
    exact { hinv with
      informed := fun _ => hserver
      outWritten := by simp
      errWritten := by simp }
  | noStatus h =>
    exact { hinv with
      informed := by simp [Client.Informed]
      outWritten := by simp
      errWritten := by simp }
  | @outWritten status h hdone =>
    exact { hinv with
      informed := fun hi => hinv.informed (by
        rw [h]
        cases terminal <;> exact hi)
      outWritten := fun _ _ => Or.inl hdone
      errWritten := by rintro _ rfl; simp [exitAfterOut] }
  | @outLate status h =>
    exact { hinv with
      outCopied := fun hs => (hinv.outCopied hs).imp_right fun ht => ⟨ht.1, rfl⟩
      informed := fun hi => hinv.informed (by
        rw [h]
        cases terminal <;> exact hi)
      outWritten := fun _ _ => Or.inr rfl
      errWritten := fun _ _ _ => Or.inr rfl }
  | @errWritten status h hdone =>
    exact { hinv with
      informed := fun hi => hinv.informed (by rw [h]; exact hi)
      outWritten := fun _ _ => hinv.outWritten status (Or.inl h)
      errWritten := fun _ _ _ => Or.inl hdone }
  | @errLate status h =>
    exact { hinv with
      outCopied := fun hs => (hinv.outCopied hs).imp_right fun ht => ⟨ht.1, rfl⟩
      informed := fun hi => hinv.informed (by rw [h]; exact hi)
      outWritten := fun _ _ => Or.inr rfl
      errWritten := fun _ _ _ => Or.inr rfl }
  | loses =>
    exact { hinv with
      out := inv_cut hinv.out
      err := inv_cut hinv.err
      outBounded := ⟨hinv.outBounded.stream, hinv.outBounded.out, hinv.outBounded.reader,
        hinv.outBounded.writer⟩
      errBounded := ⟨hinv.errBounded.stream, hinv.errBounded.out, hinv.errBounded.reader,
        hinv.errBounded.writer⟩ }

/-! A run that ends in time, and one that does not. -/

/-- The child's output up to `data` is read behind the client, and `rest` waits in the stream. -/
def stalled (data rest : List UInt8) : Direction :=
  { idle data with
    inn := ⟨data ++ rest, [], false, false, false⟩
    stream := ⟨data, rest, false, false, false⟩ }

/-- The same with the child's output at its end. -/
def stalledEnd (data rest : List UInt8) : Direction :=
  ⟨⟨data ++ rest, [], true, false, false⟩, .finished, ⟨data, rest, true, false, false⟩,
    .copying [] false, ⟨data, [], false, false, false⟩⟩

theorem trace_stalled (data : List UInt8) {rest : List UInt8} (h : rest.length ≤ l.stream) :
    ∃ xs, Trace (Direction.Step l) (idle data) xs (stalled data rest) := by
  induction rest using List.reverseRecOn with
  | nil => exact ⟨[], by rw [stalled, List.append_nil]; exact .refl⟩
  | append_singleton rest x ih =>
    rw [List.length_append, List.length_singleton] at h
    obtain ⟨xs, hxs⟩ := ih (Nat.le_of_succ_le h)
    have hsocket : 0 + 1 ≤ l.socket := l.socket_pos
    have hbuffer : 0 + 1 ≤ l.buffer := l.buffer_pos
    have hpeer : (stalled data rest).Peer l
        { stalled data rest with inn := (stalled data rest).inn.put [x] } := .writes rfl hsocket
    have hnext : stalled data (rest ++ [x]) = { stalled data rest with
        inn := ⟨data ++ rest ++ [x], [], false, false, false⟩
        stream := ⟨data, rest ++ [x], false, false, false⟩ } := by
      rw [stalled, List.append_assoc]
      rfl
    rw [hnext]
    exact ⟨_, hxs.append (.stepL (.peer hpeer)
      (.stepL (.move (.near (.reads Nat.one_pos (Nat.le_refl _) hbuffer)))
      (.single (.move (.near (.writes Nat.one_pos (Nat.le_refl _) h))))))⟩

theorem trace_stalledEnd (data rest : List UInt8) :
    Trace (Direction.Step l) (stalled data rest) [.peer, .move, .move] (stalledEnd data rest) :=
  .stepL (.peer .shuts) (.stepL (.move (.near (.readsEnd rfl rfl)))
    (.single (.move (.near .finishes))))

theorem trace_stdout {d : Direction} {xs : List Action} (hclient : s.client = .running)
    (h : Trace (Direction.Step l) s.stdout xs d) :
    Trace (Step l terminal) s (xs.map .output) { s with stdout := d } :=
  h.image (fun d => { s with stdout := d }) Event.output fun hstep =>
    Step.stdout hstep fun _ hexit => by simp [hclient] at hexit

theorem trace_stderr {d : Direction} {xs : List Action} (hclient : s.client = .running)
    (h : Trace (Direction.Step l) s.stderr xs d) :
    Trace (Step l terminal) s (xs.map .output) { s with stderr := d } :=
  h.image (fun d => { s with stderr := d }) Event.output fun hstep =>
    Step.stderr hstep fun _ hexit => by simp [hclient] at hexit

/-- The child's output is delivered, up to its end. -/
def delivered (data : List UInt8) : Direction :=
  ⟨endedAt data, .finished, endedAt data, .finished, endedAt data⟩

theorem trace_delivered (data : List UInt8) :
    Trace (Direction.Step l) (idle data) [.peer, .move, .move, .move, .move] (delivered data) :=
  .stepL (.peer .shuts) (.stepL (.move (.near (.readsEnd rfl rfl)))
    (.stepL (.move (.near .finishes)) (.stepL (.move (.far (.readsEnd rfl rfl)))
    (.single (.move (.far .finishes))))))

/-- The client has exited behind its task for the terminal. -/
def completed (data : List UInt8) : State :=
  ⟨delivered data, idle [], false, .sent, .exited true, false⟩

theorem trace_completed (data : List UInt8) :
    ∃ events, Trace (Step l true) .start events (completed data) := by
  obtain ⟨_, hidle⟩ := @trace_idle l data
  have hout : Trace (Step l true) .start _ { State.start with stdout := delivered data } :=
    trace_stdout rfl (hidle.append (trace_delivered data))
  exact ⟨_, hout.append (.stepL .childExits (.stepL (.childWaited rfl rfl)
    (.stepL (.outCopied rfl trivial) (.stepL (.statusRead rfl rfl)
    (.single (.outWritten rfl trivial))))))⟩

/-- The client has exited on a timeout. -/
def cutShort (terminal : Bool) (data rest : List UInt8) : State :=
  ⟨stalledEnd data rest, if terminal then idle [] else stalledEnd [] [], false, .sent,
    .exited true, true⟩

theorem trace_cutShort (terminal : Bool) (data : List UInt8) {rest : List UInt8}
    (h : rest.length ≤ l.stream) :
    ∃ events, Trace (Step l terminal) .start events (cutShort terminal data rest) := by
  obtain ⟨_, hidle⟩ := @trace_idle l data
  obtain ⟨_, hstalled⟩ := trace_stalled data h
  have hout : Trace (Step l terminal) .start _
      { State.start with stdout := stalledEnd data rest } :=
    trace_stdout rfl ((hidle.append hstalled).append (trace_stalledEnd data rest))
  -- the server's part up to the end of its task for stdout
  have hserver := hout.append (.stepL .childExits (.stepL (.childWaited rfl rfl)
    (.single (.outCopied rfl trivial))))
  cases terminal with
  | true => exact ⟨_, hserver.append (.stepL (.statusRead rfl rfl) (.single (.outLate rfl)))⟩
  | false =>
    have herr := hserver.append (trace_stderr rfl (trace_stalledEnd [] []))
    exact ⟨_, herr.append (.stepL (.errCopied rfl trivial) (.stepL (.statusRead rfl rfl)
      (.stepL (.outLate rfl) (.single (.errLate rfl)))))⟩

/-- All of a child's output has been written by the client, up to its end. -/
def Whole (d : Direction) : Prop := d.inn.ended = true ∧ d.out.sent = d.inn.sent

theorem whole_of_done {d : Direction} (hinv : d.Inv [] []) (hsound : d.Sound)
    (hdone : d.writer.Done) : Whole d := by
  obtain ⟨hended, moved, hinn, hout⟩ := hinv.whole hsound (hinv.finished_writer hsound hdone)
  exact ⟨hended, hout.trans hinn.symm⟩

/-- A client that exits with the child's status, before any of the timeouts, has written all of the
child's output, on a terminal or on pipes, however the tasks and the status interleave. -/
theorem output_complete (h : Trace (Step l terminal) .start events s)
    (hexit : s.client = .exited true) (htime : s.timedOut = false) (hout : s.stdout.Sound) :
    Whole s.stdout ∧ (terminal = false → s.stderr.Sound → Whole s.stderr) := by
  have hinv := h.invariant inv_start Step.inv
  constructor
  · rcases hinv.outWritten true (Or.inr hexit) with hdone | hlate
    · exact whole_of_done hinv.out hout hdone
    · exact absurd (htime.symm.trans hlate) Bool.false_ne_true
  · intro hterminal herr
    rcases hinv.errWritten true hterminal hexit with hdone | hlate
    · exact whole_of_done hinv.err herr hdone
    · exact absurd (htime.symm.trans hlate) Bool.false_ne_true

theorem output_complete_hi :
    Whole (completed [104, 105]).stdout ∧
      (true = false → (completed [104, 105]).stderr.Sound →
        Whole (completed [104, 105]).stderr) := by
  obtain ⟨_, h⟩ := @trace_completed narrow [104, 105]
  exact output_complete h rfl rfl ⟨rfl, rfl, rfl, rfl⟩

/-- What the client has not written is the end of the child's output, and bounded. -/
def LosesTail (l : Limits) (d : Direction) : Prop :=
  d.inn.ended = true ∧
    ∃ missing, d.inn.sent = d.out.sent ++ missing ∧ missing.length ≤ l.buffer + l.stream

/-- Where the reader has returned, all that is missing is in the stream or in the buffer of the
client's task. -/
theorem losesTail_of_done {d : Direction} (hinv : d.Inv [] []) (hbounded : d.Bounded l)
    (hsound : d.Sound) (hdone : d.reader.Done) : LosesTail l d := by
  have hfinished := hinv.finished_reader hsound hdone
  obtain ⟨hqueue, hended⟩ := hinv.near.atEnd (Or.inr hfinished)
  obtain ⟨moved, hreceived, hsent⟩ := hinv.near.moved
  obtain ⟨brought, hbrought, hgone⟩ := hinv.far.moved
  rw [hfinished] at hsent
  change d.stream.sent ++ [] = [] ++ moved at hsent
  simp only [List.append_nil, List.nil_append] at hreceived hsent hbrought hgone
  refine ⟨hended, d.writer.held ++ d.stream.queue, ?_, ?_⟩
  · calc d.inn.sent = d.stream.sent := by
          rw [hsent, Link.sent, show d.inn.queue = [] from hqueue, List.append_nil, hreceived]
      _ = d.stream.received ++ d.stream.queue := rfl
      _ = d.out.sent ++ (d.writer.held ++ d.stream.queue) := by
          rw [hbrought, ← List.append_assoc, ← hgone]
  · rw [List.length_append]
    exact Nat.add_le_add hbounded.writer hbounded.stream

/-- On pipes, also after a timeout, a client that exits with the child's status has lost no more
than a stream's window and a buffer of each output, and that from its end. -/
theorem output_loss_bounded (h : Trace (Step l false) .start events s)
    (hexit : s.client = .exited true) (hout : s.stdout.Sound) (herr : s.stderr.Sound) :
    LosesTail l s.stdout ∧ LosesTail l s.stderr := by
  have hinv := h.invariant inv_start Step.inv
  have hsent : s.server = .sent := hinv.informed (by rw [hexit]; rfl)
  refine ⟨?_, losesTail_of_done hinv.err hinv.errBounded herr (hinv.errCopied rfl hsent)⟩
  rcases hinv.outCopied (Or.inr hsent) with hdone | ⟨hterminal, -⟩
  · exact losesTail_of_done hinv.out hinv.outBounded hout hdone
  · cases hterminal

theorem output_loss_bounded_byte :
    LosesTail narrow (stalledEnd [104] [105]) ∧ LosesTail narrow (stalledEnd [] []) := by
  have hfits : ([105] : List UInt8).length ≤ narrow.stream := by decide
  obtain ⟨_, h⟩ := trace_cutShort false [104] hfits
  exact output_loss_bounded h rfl ⟨rfl, rfl, rfl, rfl⟩ ⟨rfl, rfl, rfl, rfl⟩

/-! What the timeouts cost. -/

theorem exited_step {status : Bool} {written : List UInt8} (h : Step l terminal s e t)
    (hs : s.client = .exited status ∧ s.stdout.out.sent = written) :
    t.client = .exited status ∧ t.stdout.out.sent = written := by
  obtain ⟨hexit, hsent⟩ := hs
  cases h with
  | stdout h hlive =>
    refine ⟨hexit, ?_⟩
    cases h with
    | move h =>
      cases h with
      | near => exact hsent
      | far h => exact absurd (hlive status hexit) h.copier_ne
      | delivers => exact (Link.sent_take _ _).trans hsent
    | peer h => cases h <;> exact hsent
  | stderr | childExits | childWaited | outCopied | outTimesOut | errCopied | loses =>
    exact ⟨hexit, hsent⟩
  | statusRead h | noStatus h | outWritten h | outLate h | errWritten h | errLate h =>
    rw [hexit] at h
    cases h

/-- However much of its output is delivered and however much is not, up to a stream's window: with
every socket and the connection in order, a client whose stdout is read too slowly for two seconds
exits with the child's status, and never writes the rest. -/
theorem output_cut_short (terminal : Bool) (data : List UInt8) {rest : List UInt8}
    (h : rest.length ≤ l.stream) :
    ∃ s events, Trace (Step l terminal) .start events s ∧ s.client = .exited true ∧
      s.stdout.Sound ∧ s.stdout.inn.ended = true ∧ s.stdout.inn.sent = data ++ rest ∧
      ∀ t events', Trace (Step l terminal) s events' t → t.stdout.out.sent = data := by
  obtain ⟨events, hrun⟩ := trace_cutShort terminal data h
  refine ⟨_, events, hrun, rfl, ⟨rfl, rfl, rfl, rfl⟩, rfl, List.append_nil _, ?_⟩
  intro t events' hrest
  have hfinal := hrest.invariant (P := fun t => t.client = .exited true ∧
    t.stdout.out.sent = data) ⟨rfl, List.append_nil data⟩ exited_step
  exact hfinal.2

theorem output_cut_short_byte :
    ∃ s events, Trace (Step narrow false) .start events s ∧ s.client = .exited true ∧
      s.stdout.Sound ∧ s.stdout.inn.ended = true ∧ s.stdout.inn.sent = [104, 105] ∧
      ∀ t events', Trace (Step narrow false) s events' t → t.stdout.out.sent = [104] :=
  output_cut_short false [104] (by decide)

end Hush.Session.Output
