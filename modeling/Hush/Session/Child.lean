import Hush.Lib.Trace
import Hush.Protocol.Messages

/-!
# The child of a session

The task that reads the client's side streams, the two channels of sixteen places that it fills,
and the loop of `wait_for_child` up to the child's end.
-/
namespace Hush.Session.Child
open Hush.Lib Hush.Protocol

/-- The places of `resize_tx` and of `signal_tx`. -/
def capacity : Nat := 16

/-- Where the side task is: reading streams, waiting for a place in a channel, or at its end, which
closes both channels. -/
inductive Side
  | reading
  | sendingResize
  | sendingSignal (signal : RemoteSignal)
  | done
  deriving DecidableEq, Repr

inductive Stage
  | waiting
  | hungUp
  | killed
  deriving DecidableEq, Repr

/-- `received` are the signals that the client has sent, and `delivered` those that the process
group got; `result` is whether `wait_for_child` has returned a status or an error. -/
structure State where
  side : Side
  resizes : Nat
  signals : List RemoteSignal
  disconnected : Bool
  running : Bool
  stage : Stage
  result : Option Bool
  resizeCount : Nat
  received : List RemoteSignal
  delivered : List RemoteSignal
  deriving DecidableEq, Repr

def State.start : State := ⟨.reading, 0, [], false, true, .waiting, none, 0, [], []⟩

inductive Action
  | resize
  | signal (signal : RemoteSignal)
  | disconnects
  | childExits
  | server
  deriving DecidableEq, Repr

/-- With a terminal a task takes the sizes out of their channel; with pipes no one does. -/
inductive Step (terminal : Bool) : State → Action → State → Prop
  | resize {s : State} (h : s.side = .reading) (hconn : s.disconnected = false) :
      Step terminal s .resize
        { s with side := .sendingResize, resizeCount := s.resizeCount + 1 }
  | signal {s : State} {signal : RemoteSignal} (h : s.side = .reading)
      (hconn : s.disconnected = false) :
      Step terminal s (.signal signal)
        { s with side := .sendingSignal signal, received := s.received ++ [signal] }
  | disconnects {s : State} : Step terminal s .disconnects { s with disconnected := true }
  | childExits {s : State} : Step terminal s .childExits { s with running := false }
  | queuesResize {s : State} (h : s.side = .sendingResize) (hfree : s.resizes < capacity) :
      Step terminal s .server { s with side := .reading, resizes := s.resizes + 1 }
  | queuesSignal {s : State} {signal : RemoteSignal} (h : s.side = .sendingSignal signal)
      (hfree : s.signals.length < capacity) :
      Step terminal s .server { s with side := .reading, signals := s.signals ++ [signal] }
  | takesResize {s : State} {n : Nat} (hterminal : terminal = true) (h : s.resizes = n + 1) :
      Step terminal s .server { s with resizes := n }
  | sideEnds {s : State} (h : s.side = .reading) (hconn : s.disconnected = true) :
      Step terminal s .server { s with side := .done }
  | passes {s : State} {signal : RemoteSignal} {rest : List RemoteSignal}
      (h : s.stage = .waiting) (hresult : s.result = none) (hsignals : s.signals = signal :: rest) :
      Step terminal s .server
        { s with signals := rest, delivered := s.delivered ++ [signal] }
  | passFails {s : State} {signal : RemoteSignal} {rest : List RemoteSignal}
      (h : s.stage = .waiting) (hresult : s.result = none) (hsignals : s.signals = signal :: rest) :
      Step terminal s .server { s with result := some false }
  | hangsUp {s : State} (h : s.stage = .waiting) (hresult : s.result = none)
      (hside : s.side = .done) (hsignals : s.signals = []) :
      Step terminal s .server
        { s with stage := .hungUp, delivered := s.delivered ++ [.sighup] }
  | kills {s : State} (h : s.stage = .hungUp) (hresult : s.result = none)
      (hrunning : s.running = true) :
      Step terminal s .server
        { s with stage := .killed, delivered := s.delivered ++ [.sigkill] }
  | returns {s : State} (hresult : s.result = none) (hrunning : s.running = false) :
      Step terminal s .server { s with result := some true }

variable {terminal : Bool} {s t : State} {a : Action} {actions : List Action}

/-- The signal that the side task holds. -/
def Side.pending : Side → List RemoteSignal
  | .sendingSignal signal => [signal]
  | .reading | .sendingResize | .done => []

/-- What the server sends to the group by itself. -/
def Stage.own : Stage → List RemoteSignal
  | .waiting => []
  | .hungUp => [.sighup]
  | .killed => [.sighup, .sigkill]

structure Inv (s : State) : Prop where
  order : ∃ passed, s.delivered = passed ++ s.stage.own ∧
    s.received = passed ++ s.signals ++ s.side.pending
  done : s.side = .done → s.disconnected = true
  finished : s.stage ≠ .waiting → s.side = .done ∧ s.signals = []
  status : s.result = some true → s.running = false

theorem inv_start : Inv .start where
  order := ⟨[], rfl, rfl⟩
  done h := by cases h
  finished h := absurd rfl h
  status h := by cases h

/-- A side task that is not at its end has no hang-up behind it. -/
theorem Inv.waiting (h : Inv s) (hside : s.side ≠ .done) : s.stage = .waiting := by
  by_contra hstage
  exact hside (h.finished hstage).1

/-- What the side task does before its end touches the channels and what it holds only. -/
theorem Inv.side_step (hs : Inv s) (hside : s.side ≠ .done) (hstage : t.stage = s.stage)
    (hdelivered : t.delivered = s.delivered) (hstatus : t.result = some true → t.running = false)
    (hreceived : ∀ passed, s.received = passed ++ s.signals ++ s.side.pending →
      t.received = passed ++ t.signals ++ t.side.pending)
    (hdone : t.side = .done → t.disconnected = true) : Inv t := by
  obtain ⟨passed, hpassed, horder⟩ := hs.order
  refine ⟨⟨passed, ?_, hreceived passed horder⟩, hdone, ?_, hstatus⟩
  · rw [hdelivered, hstage, hpassed]
  · intro hfinished
    exact absurd (hstage.trans (hs.waiting hside)) hfinished

theorem Inv.step (h : Step terminal s a t) (hs : Inv s) : Inv t := by
  obtain ⟨passed, hdelivered, hreceived⟩ := hs.order
  cases h with
  | resize hside _ =>
    refine hs.side_step (by simp [hside]) rfl rfl hs.status ?_ (fun hdone => by cases hdone)
    intro passed horder
    simpa [hside, Side.pending] using horder
  | @signal sig hside _ =>
    refine hs.side_step (by simp [hside]) rfl rfl hs.status ?_ (fun hdone => by cases hdone)
    intro passed horder
    simp [horder, hside, Side.pending]
  | disconnects => exact ⟨hs.order, fun _ => rfl, hs.finished, hs.status⟩
  | childExits => exact ⟨hs.order, hs.done, hs.finished, fun _ => rfl⟩
  | queuesResize hside _ =>
    refine hs.side_step (by simp [hside]) rfl rfl hs.status ?_ (fun hdone => by cases hdone)
    intro passed horder
    simpa [hside, Side.pending] using horder
  | @queuesSignal sig hside _ =>
    refine hs.side_step (by simp [hside]) rfl rfl hs.status ?_ (fun hdone => by cases hdone)
    intro passed horder
    simp [horder, hside, Side.pending]
  | takesResize => exact ⟨hs.order, hs.done, hs.finished, hs.status⟩
  | sideEnds hside hconn =>
    refine hs.side_step (by simp [hside]) rfl rfl hs.status ?_ (fun _ => hconn)
    intro passed horder
    simpa [hside, Side.pending] using horder
  | @passes sig rest hstage _ hsignals =>
    refine ⟨⟨passed ++ [sig], ?_, ?_⟩, hs.done, fun hover => absurd hstage hover, hs.status⟩
    · rw [hstage] at hdelivered ⊢
      simp [hdelivered, Stage.own]
    · simp [hreceived, hsignals]
  | passFails => exact ⟨hs.order, hs.done, hs.finished, fun hok => by cases hok⟩
  | hangsUp hstage _ hside hsignals =>
    refine ⟨⟨passed, ?_, hreceived⟩, hs.done, fun _ => ⟨hside, hsignals⟩, hs.status⟩
    rw [hstage] at hdelivered
    simp [hdelivered, Stage.own]
  | kills hstage _ _ =>
    have hover := hs.finished (by simp [hstage])
    refine ⟨⟨passed, ?_, hreceived⟩, hs.done, fun _ => hover, hs.status⟩
    rw [hstage] at hdelivered
    simp [hdelivered, Stage.own]
  | returns _ hrunning => exact ⟨hs.order, hs.done, hs.finished, fun _ => hrunning⟩

theorem inv_run (h : Trace (Step terminal) .start actions s) : Inv s :=
  h.invariant inv_start fun hstep hs => Inv.step hstep hs

/-- In every run: the process group gets the client's signals in the order they were sent, none
twice and none left out before a later one, and after them SIGHUP and then SIGKILL of the server's
own at most. These come only once the client is gone, when all of its signals have been passed on.
A status is returned only for a child that has exited. -/
theorem signals_in_order (h : Trace (Step terminal) .start actions s) :
    (∃ passed, passed <+: s.received ∧ s.delivered = passed ++ s.stage.own) ∧
    (s.stage ≠ .waiting → s.disconnected = true ∧ s.delivered = s.received ++ s.stage.own) ∧
    (s.result = some true → s.running = false) := by
  have hinv := inv_run h
  obtain ⟨passed, hdelivered, hreceived⟩ := hinv.order
  refine ⟨⟨passed, ?_, hdelivered⟩, ?_, hinv.status⟩
  · rw [hreceived, List.append_assoc]
    exact List.prefix_append _ _
  · intro hstage
    obtain ⟨hside, hsignals⟩ := hinv.finished hstage
    refine ⟨hinv.done hside, ?_⟩
    rw [hsignals, hside] at hreceived
    simp [hdelivered, hreceived, Side.pending]

/-- An interrupt, and then the client is gone and the child hung up. -/
theorem signals_in_order_interrupt :
    ∃ actions s, Trace (Step false) .start actions s ∧ s.stage = .hungUp ∧
      s.delivered = [.sigint, .sighup] := by
  have hrun : Trace (Step false) .start
      [.signal .sigint, .server, .disconnects, .server, .server, .server]
      ⟨.done, 0, [], true, true, .hungUp, none, 0, [.sigint], [.sigint, .sighup]⟩ :=
    .stepL (.signal rfl rfl) (.stepL (.queuesSignal rfl (by decide)) (.stepL .disconnects
      (.stepL (.sideEnds rfl rfl) (.stepL (.passes rfl rfl rfl)
        (.single (.hangsUp rfl rfl rfl rfl))))))
  have hordered := (signals_in_order hrun).2.1 (by decide)
  exact ⟨_, _, hrun, rfl, hordered.2⟩

/-! Whether the server notices that the client is gone. -/

/-- The sizes are in their channel, or on the way to it. -/
def Counted (s : State) : Prop :=
  s.resizes ≤ capacity ∧ s.resizeCount = s.resizes + if s.side = .sendingResize then 1 else 0

theorem counted_step (h : Step false s a t) (hs : Counted s) : Counted t := by
  unfold Counted at hs ⊢
  cases h with
  | resize hside _ => simp_all
  | signal hside _ => simp_all
  | queuesResize hside hfree =>
    refine ⟨hfree, ?_⟩
    simpa [hside] using hs.2
  | queuesSignal hside _ => simp_all
  | takesResize hterminal _ => cases hterminal
  | sideEnds hside _ => simp_all
  | disconnects | childExits | passes | passFails | hangsUp | kills | returns => exact hs

theorem counted_run (h : Trace (Step false) .start actions s) : Counted s :=
  h.invariant ⟨Nat.zero_le _, rfl⟩ fun hstep hs => counted_step hstep hs

/-- The server can get there by its own steps. -/
def Comes (terminal : Bool) (s : State) (P : State → Prop) : Prop :=
  ∃ actions t, (∀ a ∈ actions, a = .server) ∧ Trace (Step terminal) s actions t ∧ P t

theorem Comes.now {P : State → Prop} (h : P s) : Comes terminal s P :=
  ⟨[], s, by simp, .refl, h⟩

theorem Comes.after {P : State → Prop} (h : Step terminal s .server t) (ht : Comes terminal t P) :
    Comes terminal s P := by
  obtain ⟨actions, u, hserver, hrun, hu⟩ := ht
  exact ⟨.server :: actions, u, by simpa using hserver, .stepL h hrun, hu⟩

/-- The client's signals are passed on, and then the child is hung up. -/
theorem comes_of_done (hside : s.side = .done) (hstage : s.stage = .waiting)
    (hresult : s.result = none) : Comes terminal s (·.stage = .hungUp) := by
  generalize hsignals : s.signals = signals
  induction signals generalizing s with
  | nil => exact .after (.hangsUp hstage hresult hside hsignals) (.now rfl)
  | cons signal rest ih =>
    exact .after (.passes hstage hresult hsignals) (ih hside hstage hresult rfl)

theorem comes_of_reading (hside : s.side = .reading) (hconn : s.disconnected = true)
    (hstage : s.stage = .waiting) (hresult : s.result = none) :
    Comes terminal s (·.stage = .hungUp) :=
  .after (.sideEnds hside hconn) (comes_of_done rfl hstage hresult)

theorem comes_of_sendingSignal {signal : RemoteSignal} (hside : s.side = .sendingSignal signal)
    (hconn : s.disconnected = true) (hstage : s.stage = .waiting) (hresult : s.result = none) :
    Comes terminal s (·.stage = .hungUp) := by
  generalize hsignals : s.signals = signals
  induction signals generalizing s with
  | nil =>
    have hfree : s.signals.length < capacity := by simp [hsignals, capacity]
    exact .after (.queuesSignal hside hfree) (comes_of_reading rfl hconn hstage hresult)
  | cons first rest ih =>
    exact .after (.passes hstage hresult hsignals) (ih hside hconn hstage hresult rfl)

theorem comes_of_sendingResize (hside : s.side = .sendingResize) (hconn : s.disconnected = true)
    (hstage : s.stage = .waiting) (hresult : s.result = none)
    (hfree : terminal = true ∨ s.resizes < capacity) : Comes terminal s (·.stage = .hungUp) := by
  by_cases hlt : s.resizes < capacity
  · exact .after (.queuesResize hside hlt) (comes_of_reading rfl hconn hstage hresult)
  · have hterminal := hfree.resolve_right hlt
    generalize hresizes : s.resizes = n
    induction n generalizing s with
    | zero => exact absurd (by simp [hresizes, capacity]) hlt
    | succ n ih =>
      by_cases hn : n < capacity
      · refine .after (.takesResize hterminal hresizes) (.after (.queuesResize hside hn) ?_)
        exact comes_of_reading rfl hconn hstage hresult
      · exact .after (.takesResize hterminal hresizes)
          (ih hside hconn hstage hresult (Or.inl hterminal) hn rfl)

/-- The side task waits for a place that never comes. -/
def Stuck (s : State) : Prop :=
  s.side = .sendingResize ∧ s.resizes = capacity ∧ s.stage = .waiting

theorem stuck_of_many (h : Trace (Step false) .start actions s) (hmany : capacity < s.resizeCount) :
    Stuck s := by
  obtain ⟨hle, hcounted⟩ := counted_run h
  have hside : s.side = .sendingResize := by
    by_contra hne
    rw [if_neg hne] at hcounted
    omega
  rw [if_pos hside] at hcounted
  exact ⟨hside, by omega, (inv_run h).waiting (by simp [hside])⟩

theorem stuck_step (h : Step false s a t) (hs : Stuck s) : Stuck t := by
  obtain ⟨hside, hfull, hstage⟩ := hs
  cases h with
  | resize h _ => simp [hside] at h
  | signal h _ => simp [hside] at h
  | queuesResize _ hfree => omega
  | queuesSignal h _ => simp [hside] at h
  | takesResize hterminal _ => cases hterminal
  | sideEnds h _ => simp [hside] at h
  | hangsUp _ _ h _ => simp [hside] at h
  | kills h _ _ => simp [hstage] at h
  | disconnects | childExits | passes | passFails | returns => exact ⟨hside, hfull, hstage⟩

/-- So many sizes are in their channel. -/
def filled (n : Nat) : State := { State.start with resizes := n, resizeCount := n }

theorem filled_run {n : Nat} (h : n ≤ capacity) :
    ∃ actions, Trace (Step false) .start actions (filled n) := by
  induction n with
  | zero => exact ⟨[], .refl⟩
  | succ n ih =>
    obtain ⟨actions, hrun⟩ := ih (by omega)
    have hresize : Step false (filled n) .resize
        { filled n with side := .sendingResize, resizeCount := n + 1 } := .resize rfl rfl
    have hqueues : Step false { filled n with side := .sendingResize, resizeCount := n + 1 }
        .server (filled (n + 1)) := .queuesResize rfl h
    exact ⟨_, hrun.append (.stepL hresize (.single hqueues))⟩

/-- A client that has sent seventeen sizes to a session with pipes and is gone. -/
def abandoned : State :=
  { filled capacity with side := .sendingResize, resizeCount := capacity + 1, disconnected := true }

end Hush.Session.Child
