import Hush.Lib.Trace

/-!
# Receiving on the private sockets

One task polls all the sockets, while sends on other threads open and close private ones. Each
critical section of a lock is a step.
-/
namespace Hush.FastSock.Receive
open Hush.Lib

/-- A private socket as the receiving task meets it. `woken` says that the send that opened it has
got past waking the task, and `registered` that its next datagram wakes the task. -/
structure Private where
  id : Nat
  opened : Bool
  failed : Bool
  woken : Bool
  registered : Bool
  deriving DecidableEq, Repr

/-- Where the receiving task is: not in `poll_recv`, before the poll of the listener, before the
copy of the list, or with these sockets of the copy to go. -/
inductive Receiver
  | parked
  | polling
  | copying
  | visiting (ids : List Nat)
  deriving DecidableEq, Repr

/-- `notified` says that the task will be polled again. -/
structure State where
  privates : List Private
  receiver : Receiver
  waker : Bool
  notified : Bool
  deriving DecidableEq, Repr

/-- The task has been spawned, and is polled for the first time some time later. -/
def State.start : State := ⟨[], .parked, false, true⟩

def State.change (s : State) (id : Nat) (f : Private → Private) : List Private :=
  s.privates.map fun p => if p.id = id then f p else p

inductive Action
  | adopts (id : Nat)
  | opens (id : Nat)
  | openFails (id : Nat)
  | wakes (id : Nat)
  | dies (id : Nat)
  | closes (id : Nat)
  | arrives (id : Nat)
  | receives
  deriving DecidableEq, Repr

inductive Step : State → Action → State → Prop
  | adopts {s : State} {id : Nat} :
      Step s (.adopts id) { s with privates := s.privates ++ [⟨id, false, false, false, false⟩] }
  | opens {s : State} {id : Nat}
      (h : ∀ p ∈ s.privates, p.id = id → p.opened = false ∧ p.failed = false) :
      Step s (.opens id)
        { s with privates := s.change id ({ · with opened := true, woken := false }) }
  | openFails {s : State} {id : Nat} (h : ∀ p ∈ s.privates, p.id = id → p.opened = false) :
      Step s (.openFails id) { s with privates := s.change id ({ · with failed := true }) }
  | wakes {s : State} {id : Nat} :
      Step s (.wakes id)
        { s with
          privates := s.change id ({ · with woken := true })
          notified := s.notified || s.waker }
  | dies {s : State} {id : Nat} :
      Step s (.dies id)
        { s with
          privates := s.change id
            ({ · with opened := false, failed := true, registered := false }) }
  | closes {s : State} {id : Nat} :
      Step s (.closes id) { s with privates := s.privates.filter (·.id ≠ id) }
  | arrives {s : State} {id : Nat} {p : Private} (hp : p ∈ s.privates) (hid : p.id = id)
      (h : p.registered = true) :
      Step s (.arrives id)
        { s with
          privates := s.change id ({ · with registered := false })
          notified := true }
  | begins {s : State} (h : s.receiver = .parked) :
      Step s .receives { s with receiver := .polling, waker := true, notified := false }
  | listens {s : State} (h : s.receiver = .polling) :
      Step s .receives { s with receiver := .copying }
  | copies {s : State} (h : s.receiver = .copying) :
      Step s .receives { s with receiver := .visiting (s.privates.map (·.id)) }
  | visits {s : State} {id : Nat} {ids : List Nat} (h : s.receiver = .visiting (id :: ids)) :
      Step s .receives
        { s with
          receiver := .visiting ids
          privates := s.change id fun p => { p with registered := p.registered || p.opened } }
  -- The listener or a private socket has datagrams: the caller polls again.
  | ready {s : State} (h : s.receiver ≠ .parked) :
      Step s .receives { s with receiver := .parked, notified := true }
  | ends {s : State} (h : s.receiver = .visiting []) :
      Step s .receives { s with receiver := .parked }

variable {s t : State} {a : Action} {actions : List Action} {p q : Private} {id : Nat}

/-- The task still gets to the socket in the poll that it is in. -/
def Receiver.reaches : Receiver → Nat → Prop
  | .parked, _ => False
  | .polling, _ | .copying, _ => True
  | .visiting ids, id => id ∈ ids

/-- The socket is not forgotten: its datagrams wake the task, or the task will come to it. -/
def Attended (s : State) (p : Private) : Prop :=
  p.registered = true ∨ s.notified = true ∨ s.receiver.reaches p.id

structure Inv (s : State) : Prop where
  attended : ∀ p ∈ s.privates, p.opened = true → p.woken = true → Attended s p
  first : s.waker = false → s.notified = true ∧ s.receiver = .parked

theorem inv_start : Inv .start where
  attended p hp := by cases hp
  first _ := ⟨rfl, rfl⟩

theorem mem_change {f : Private → Private} (h : q ∈ s.change id f) :
    ∃ p ∈ s.privates, (p.id = id ∧ q = f p) ∨ (p.id ≠ id ∧ q = p) := by
  obtain ⟨p, hp, rfl⟩ := List.mem_map.mp h
  by_cases hid : p.id = id
  · exact ⟨p, hp, Or.inl ⟨hid, if_pos hid⟩⟩
  · exact ⟨p, hp, Or.inr ⟨hid, if_neg hid⟩⟩

/-- A task that is in a poll has left its waker. -/
theorem Inv.waker_of_busy (h : Inv s) (hbusy : s.receiver ≠ .parked) : s.waker = true := by
  cases hwaker : s.waker with
  | true => rfl
  | false => exact absurd (h.first hwaker).2 hbusy

theorem Inv.step (h : Step s a t) (hs : Inv s) : Inv t := by
  cases h with
  | adopts =>
    refine ⟨?_, hs.first⟩
    intro p hp hopened hwoken
    rcases List.mem_append.mp hp with hp | hp
    · exact hs.attended p hp hopened hwoken
    · obtain rfl := List.mem_singleton.mp hp
      cases hopened
  | opens =>
    refine ⟨?_, hs.first⟩
    intro q hq hopened hwoken
    obtain ⟨p, hp, ⟨-, rfl⟩ | ⟨-, rfl⟩⟩ := mem_change hq
    · cases hwoken
    · exact hs.attended _ hp hopened hwoken
  | openFails =>
    refine ⟨?_, hs.first⟩
    intro q hq hopened hwoken
    obtain ⟨p, hp, ⟨-, rfl⟩ | ⟨-, rfl⟩⟩ := mem_change hq
    · exact hs.attended p hp hopened hwoken
    · exact hs.attended _ hp hopened hwoken
  | wakes =>
    -- Without a waker the task has not been polled yet, so its first poll is still to come.
    have hnotified : (s.notified || s.waker) = true := by
      cases hwaker : s.waker with
      | true => simp
      | false => simp [(hs.first hwaker).1]
    exact ⟨fun _ _ _ _ => Or.inr (Or.inl hnotified), fun hwaker => ⟨hnotified, (hs.first hwaker).2⟩⟩
  | dies =>
    refine ⟨?_, hs.first⟩
    intro q hq hopened hwoken
    obtain ⟨p, hp, ⟨-, rfl⟩ | ⟨-, rfl⟩⟩ := mem_change hq
    · cases hopened
    · exact hs.attended _ hp hopened hwoken
  | closes =>
    refine ⟨?_, hs.first⟩
    intro p hp hopened hwoken
    exact hs.attended p (List.mem_of_mem_filter hp) hopened hwoken
  | arrives =>
    exact ⟨fun _ _ _ _ => Or.inr (Or.inl rfl), fun hwaker => ⟨rfl, (hs.first hwaker).2⟩⟩
  | begins =>
    exact ⟨fun _ _ _ _ => Or.inr (Or.inr trivial), fun hwaker => by cases hwaker⟩
  | listens hreceiver =>
    have hset := hs.waker_of_busy (by simp [hreceiver])
    exact ⟨fun _ _ _ _ => Or.inr (Or.inr trivial), fun hwaker => by simp [hset] at hwaker⟩
  | copies hreceiver =>
    have hset := hs.waker_of_busy (by simp [hreceiver])
    refine ⟨?_, fun hwaker => by simp [hset] at hwaker⟩
    intro p hp _ _
    exact Or.inr (Or.inr (List.mem_map_of_mem hp))
  | @visits id ids hreceiver =>
    have hset := hs.waker_of_busy (by simp [hreceiver])
    refine ⟨?_, fun hwaker => by simp [hset] at hwaker⟩
    intro q hq hopened hwoken
    obtain ⟨p, hp, ⟨-, rfl⟩ | ⟨hne, rfl⟩⟩ := mem_change hq
    · have hopened : p.opened = true := hopened
      exact Or.inl (by simp [hopened])
    · rcases hs.attended _ hp hopened hwoken with hreg | hnotified | hreaches
      · exact Or.inl hreg
      · exact Or.inr (Or.inl hnotified)
      · rw [hreceiver] at hreaches
        exact Or.inr (Or.inr ((List.mem_cons.mp hreaches).resolve_left hne))
  | ready =>
    exact ⟨fun _ _ _ _ => Or.inr (Or.inl rfl), fun _ => ⟨rfl, rfl⟩⟩
  | ends hreceiver =>
    refine ⟨?_, fun hwaker => ⟨(hs.first hwaker).1, rfl⟩⟩
    intro p hp hopened hwoken
    rcases hs.attended p hp hopened hwoken with hreg | hnotified | hreaches
    · exact Or.inl hreg
    · exact Or.inr (Or.inl hnotified)
    · rw [hreceiver] at hreaches
      cases hreaches

theorem inv_run (h : Trace Step .start actions s) : Inv s :=
  h.invariant inv_start fun hstep hs => Inv.step hstep hs

/-- In every interleaving of the receiving task with sends that open and close private sockets: when
the task rests and will not be polled again by itself, a datagram on any open private socket polls
it, as soon as the send that opened the socket has got past its wakeup; and that wakeup polls the
task as well. -/
theorem no_socket_stranded (h : Trace Step .start actions s) (hparked : s.receiver = .parked)
    (hquiet : s.notified = false) :
    (∀ p ∈ s.privates, p.opened = true → p.woken = true →
      ∃ t, Step s (.arrives p.id) t ∧ t.notified = true) ∧
    ∀ id t, Step s (.wakes id) t → t.notified = true := by
  have hinv := inv_run h
  constructor
  · intro p hp hopened hwoken
    rcases hinv.attended p hp hopened hwoken with hreg | hnotified | hreaches
    · exact ⟨_, .arrives hp rfl hreg, rfl⟩
    · rw [hquiet] at hnotified
      cases hnotified
    · rw [hparked] at hreaches
      cases hreaches
  · intro id t hwakes
    cases hwakes with
    | wakes =>
      cases hwaker : s.waker with
      | true => simp
      | false =>
        have hnotified := (hinv.first hwaker).1
        rw [hquiet] at hnotified
        cases hnotified

/-- A socket that is opened while the task is in the middle of a poll, after it has passed it by. -/
def passedBy : State := ⟨[⟨0, true, false, false, false⟩], .parked, true, false⟩

theorem passedBy_run : Trace Step .start
    [.adopts 0, .receives, .receives, .receives, .receives, .opens 0, .receives] passedBy := by
  have hfresh : ∀ p ∈ [(⟨0, false, false, false, false⟩ : Private)], p.id = 0 →
      p.opened = false ∧ p.failed = false := by decide
  exact .stepL .adopts (.stepL (.begins rfl) (.stepL (.listens rfl) (.stepL (.copies rfl)
    (.stepL (.visits rfl) (.stepL (.opens hfresh) (.single (.ends rfl)))))))

/-- The send wakes the task, which then polls the socket and rests. -/
def attendedTo : State := ⟨[⟨0, true, false, true, true⟩], .parked, true, false⟩

theorem attendedTo_run : Trace Step .start
    [.adopts 0, .receives, .receives, .receives, .receives, .opens 0, .receives,
      .wakes 0, .receives, .receives, .receives, .receives, .receives] attendedTo :=
  passedBy_run.append (.stepL .wakes (.stepL (.begins rfl) (.stepL (.listens rfl)
    (.stepL (.copies rfl) (.stepL (.visits rfl) (.single (.ends rfl)))))))

theorem no_socket_stranded_passedBy :
    Step passedBy (.wakes 0) ⟨[⟨0, true, false, true, false⟩], .parked, true, true⟩ ∧
    (∀ t, Step passedBy (.wakes 0) t → t.notified = true) ∧
    ∃ t, Step attendedTo (.arrives 0) t ∧ t.notified = true := by
  refine ⟨.wakes, (no_socket_stranded passedBy_run rfl rfl).2 0, ?_⟩
  exact (no_socket_stranded attendedTo_run rfl rfl).1 _ (List.mem_singleton_self _) rfl rfl

end Hush.FastSock.Receive
