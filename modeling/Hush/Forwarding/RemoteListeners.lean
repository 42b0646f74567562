import Hush.Lib.Processes
import Hush.Lib.Trace

/-! The accept loops of a connection's remote forwards, which share one semaphore. -/
namespace Hush.Forwarding
open Hush.Lib

/-- Where an accept loop is: before `acquire_owned`, waiting in it, or with a permit in `accept`. -/
inductive Phase
  | asking
  | queued
  | accepting
  deriving DecidableEq, Repr

/-- A listener's loop, and the TCP connections that wait on the listener. -/
structure Listener where
  phase : Phase
  waiting : Nat
  deriving DecidableEq, Repr

/-- The listeners that were answered with Ok, the free permits and the live streams. -/
structure State where
  listeners : List Listener
  available : Nat
  live : Nat
  deriving DecidableEq, Repr

/-- `serve` has made the semaphore. -/
def State.start (maxForwardStreams : Nat) : State := ⟨[], maxForwardStreams, 0⟩

inductive Action
  | opens
  | arrives (listener : Nat)
  | acquires (listener : Nat)
  | accepts (listener : Nat)
  | streamEnds
  deriving DecidableEq, Repr

/-- The server does this by itself. -/
def Action.server : Action → Bool
  | .acquires _ | .accepts _ => true
  | .opens | .arrives _ | .streamEnds => false

/-- A listener is named by its place in the list. The permit of a stream that ends goes to a loop
that waits for one, if there is any. -/
inductive Step : State → Action → State → Prop
  | opens {s : State} : Step s .opens { s with listeners := s.listeners ++ [⟨.asking, 0⟩] }
  | arrives {s : State} {front back : List Listener} {l : Listener}
      (h : s.listeners = front ++ l :: back) :
      Step s (.arrives front.length)
        { s with listeners := front ++ { l with waiting := l.waiting + 1 } :: back }
  | acquires {s : State} {front back : List Listener} {waiting free : Nat}
      (h : s.listeners = front ++ ⟨.asking, waiting⟩ :: back) (hfree : s.available = free + 1) :
      Step s (.acquires front.length)
        { s with listeners := front ++ ⟨.accepting, waiting⟩ :: back, available := free }
  | queues {s : State} {front back : List Listener} {waiting : Nat}
      (h : s.listeners = front ++ ⟨.asking, waiting⟩ :: back) (hfree : s.available = 0) :
      Step s (.acquires front.length)
        { s with listeners := front ++ ⟨.queued, waiting⟩ :: back }
  | accepts {s : State} {front back : List Listener} {waiting : Nat}
      (h : s.listeners = front ++ ⟨.accepting, waiting + 1⟩ :: back) :
      Step s (.accepts front.length)
        { s with listeners := front ++ ⟨.asking, waiting⟩ :: back, live := s.live + 1 }
  | handsOver {s : State} {front back : List Listener} {waiting live : Nat}
      (hlive : s.live = live + 1) (h : s.listeners = front ++ ⟨.queued, waiting⟩ :: back) :
      Step s .streamEnds
        { s with listeners := front ++ ⟨.accepting, waiting⟩ :: back, live := live }
  | releases {s : State} {live : Nat} (hlive : s.live = live + 1)
      (h : ∀ l ∈ s.listeners, l.phase ≠ .queued) :
      Step s .streamEnds { s with available := s.available + 1, live := live }

variable {M : Nat} {s t : State} {a : Action}

def Listener.holds (l : Listener) : Bool := l.phase = .accepting

/-- Every permit is free, with a stream or with a loop, and no loop waits for a free one. -/
structure Inv (M : Nat) (s : State) : Prop where
  permits : s.available + s.live + s.listeners.countP Listener.holds = M
  queued : ∀ l ∈ s.listeners, l.phase = .queued → s.available = 0

theorem Inv.step (h : Step s a t) (hs : Inv M s) : Inv M t := by
  obtain ⟨hpermits, hqueued⟩ := hs
  cases h with
  | opens =>
    constructor
    · simpa [Listener.holds] using hpermits
    · simpa [or_imp, forall_and] using hqueued
  | arrives h =>
    rw [h, countP_middle] at hpermits
    rw [h, forall_middle] at hqueued
    exact ⟨by rw [countP_middle]; exact hpermits, forall_middle.mpr hqueued⟩
  | acquires h hfree =>
    rw [h, countP_middle] at hpermits
    rw [h, forall_middle] at hqueued
    refine ⟨?_, forall_middle.mpr ⟨by simp, fun l hl hl' => ?_⟩⟩
    · simp [Listener.holds] at hpermits ⊢
      omega
    · have := hqueued.2 l hl hl'
      omega
  | queues h hfree =>
    rw [h, countP_middle] at hpermits
    refine ⟨by rw [countP_middle]; exact hpermits, fun _ _ _ => hfree⟩
  | accepts h =>
    rw [h, countP_middle] at hpermits
    rw [h, forall_middle] at hqueued
    refine ⟨?_, forall_middle.mpr ⟨by simp, hqueued.2⟩⟩
    simp [Listener.holds] at hpermits ⊢
    omega
  | handsOver hlive h =>
    rw [h, countP_middle] at hpermits
    rw [h, forall_middle] at hqueued
    refine ⟨?_, forall_middle.mpr ⟨by simp, hqueued.2⟩⟩
    simp [Listener.holds] at hpermits ⊢
    omega
  | releases hlive h =>
    refine ⟨?_, fun l hl hphase => absurd hphase (h l hl)⟩
    simp only
    omega

theorem inv_start (M : Nat) : Inv M (.start M) := ⟨rfl, by simp [State.start]⟩

def Reachable (M : Nat) (s : State) : Prop := ∃ actions, Trace Step (.start M) actions s

theorem Reachable.inv (h : Reachable M s) : Inv M s := by
  obtain ⟨actions, h⟩ := h
  exact h.invariant (inv_start M) Inv.step

/-- The server alone gets to accepting the connection that is next in line on a listener. -/
def Serves (s : State) (listener : Nat) : Prop :=
  ∃ actions t u, (∀ a ∈ actions, a.server) ∧ Trace Step s actions t ∧ Step t (.accepts listener) u

/-- While fewer streams than allowed are live, every listener that has a connection waiting is
served. -/
def AllServed (M : Nat) (s : State) : Prop :=
  s.live < M → ∀ front l back, s.listeners = front ++ l :: back → 0 < l.waiting →
    Serves s front.length

/-- A loop that has a permit, or that can get one, accepts. -/
theorem serves_of_permit {front back : List Listener} {l : Listener}
    (h : s.listeners = front ++ l :: back) (hwait : 0 < l.waiting) (hq : l.phase ≠ .queued)
    (hpermit : l.phase = .accepting ∨ 0 < s.available) : Serves s front.length := by
  obtain ⟨phase, waiting⟩ := l
  obtain ⟨n, rfl⟩ := Nat.exists_eq_succ_of_ne_zero (Nat.ne_of_gt hwait)
  cases phase with
  | queued => exact absurd rfl hq
  | accepting => exact ⟨[], s, _, by simp, .refl, .accepts h⟩
  | asking =>
    obtain ⟨free, hfree⟩ := Nat.exists_eq_succ_of_ne_zero
      (Nat.ne_of_gt (hpermit.resolve_left (by simp)))
    exact ⟨[.acquires front.length], _, _, by simp [Action.server], .single (.acquires h hfree),
      .accepts rfl⟩

/-- One listener alone is always served. -/
theorem Inv.allServed (hs : Inv M s) (hone : s.listeners.length ≤ 1) : AllServed M s := by
  intro hlive front l back h hwait
  obtain ⟨rfl, rfl⟩ : front = [] ∧ back = [] := by
    rw [h, List.length_append, List.length_cons] at hone
    exact ⟨List.length_eq_zero_iff.mp (by omega), List.length_eq_zero_iff.mp (by omega)⟩
  obtain ⟨hpermits, hqueued⟩ := hs
  rw [h] at hpermits
  rw [h, forall_middle] at hqueued
  obtain ⟨phase, waiting⟩ := l
  cases phase with
  | accepting => exact serves_of_permit h hwait (by simp) (Or.inl rfl)
  | asking =>
    refine serves_of_permit h hwait (by simp) (Or.inr ?_)
    simp [Listener.holds] at hpermits
    omega
  | queued =>
    have hfree := hqueued.1 rfl
    simp [Listener.holds] at hpermits
    omega

/-- The first listener's loop serves a connection and asks for the next permit. -/
theorem serve_one (l : Listener) (free live : Nat) :
    Trace Step ⟨[⟨.asking, 0⟩, l], free + 1, live⟩ [.acquires 0, .arrives 0, .accepts 0]
      ⟨[⟨.asking, 0⟩, l], free, live + 1⟩ :=
  .stepL (@Step.acquires _ [] [l] 0 free rfl rfl) <|
    .stepL (@Step.arrives _ [] [l] ⟨.accepting, 0⟩ rfl) <|
    .single (@Step.accepts _ [] [l] 0 rfl)

theorem serve_many (l : Listener) (free n live : Nat) :
    ∃ actions, Trace Step ⟨[⟨.asking, 0⟩, l], free + n, live⟩ actions
      ⟨[⟨.asking, 0⟩, l], free, live + n⟩ := by
  induction n generalizing live with
  | zero => exact ⟨[], .refl⟩
  | succ n ih =>
    obtain ⟨actions, h⟩ := ih (live + 1)
    rw [Nat.add_right_comm live 1 n] at h
    exact ⟨_, (serve_one l (free + n) live).append h⟩

/-- The last permit is with a loop that nobody connects to, and the second listener's loop has
to wait for it. -/
structure Starved (s : State) : Prop where
  available : s.available = 0
  listeners : ∃ phase, phase ≠ .accepting ∧ s.listeners = [⟨.accepting, 0⟩, ⟨phase, 1⟩]

theorem Starved.not_accepts (hs : Starved s) (i : Nat) : ¬ Step s (.accepts i) t := by
  obtain ⟨-, phase, hphase, hlisteners⟩ := hs
  intro h
  cases h with
  | @accepts front back waiting h =>
    have hmem : ⟨.accepting, waiting + 1⟩ ∈ s.listeners := by simp [h]
    rw [hlisteners] at hmem
    simp at hmem
    exact hphase hmem.1.symm

theorem Starved.step (h : Step s a t) (ha : a.server) (hs : Starved s) : Starved t := by
  cases h with
  | opens | arrives | handsOver | releases => cases ha
  | acquires h hfree =>
    rw [hs.available] at hfree
    cases hfree
  | accepts h => exact absurd (Step.accepts h) (hs.not_accepts _)
  | @queues front back waiting h hfree =>
    obtain ⟨phase, hphase, hlisteners⟩ := hs.listeners
    refine ⟨hfree, .queued, by simp, ?_⟩
    rw [hlisteners] at h
    rcases front with _ | ⟨first, _ | ⟨second, front⟩⟩
    · simp at h
    · simp at h ⊢
      simp [h]
    · simp at h

theorem Starved.not_serves (hs : Starved s) (i : Nat) : ¬ Serves s i := by
  rintro ⟨actions, t, u, hserver, htrace, haccept⟩
  have ht : Starved t := by
    clear haccept
    induction htrace with
    | refl => exact hs
    | stepL h _ ih =>
      rw [List.forall_mem_cons] at hserver
      exact ih (hs.step h hserver.1) hserver.2
  exact ht.not_accepts i haccept

/-- With two listeners the last permit can end up where it is not needed. -/
theorem exists_starved (n : Nat) :
    ∃ s, Reachable (n + 1) s ∧ Starved s ∧ s.live = n ∧
      s.listeners = [⟨.accepting, 0⟩, ⟨.asking, 1⟩] := by
  obtain ⟨actions, h⟩ := serve_many ⟨.asking, 0⟩ 1 n 0
  rw [Nat.zero_add, Nat.add_comm 1 n] at h
  refine ⟨⟨[⟨.accepting, 0⟩, ⟨.asking, 1⟩], 0, n⟩, ⟨_, .stepL .opens <| .stepL .opens <|
    h.append <| .stepL (@Step.acquires _ [] [⟨.asking, 0⟩] 0 0 rfl rfl) <|
    .single (@Step.arrives _ [⟨.accepting, 0⟩] [] ⟨.asking, 0⟩ rfl)⟩, ?_, rfl, rfl⟩
  exact ⟨rfl, .asking, by simp, rfl⟩

/-- The live streams stay within the limit; but that every listener is served while there is
capacity is true of one listener only, or of a limit of zero. -/
theorem forwards_served_iff (M n : Nat) :
    (∀ s, Reachable M s → s.live ≤ M) ∧
    ((∀ s, Reachable M s → s.listeners.length ≤ n → AllServed M s) ↔ M = 0 ∨ n ≤ 1) := by
  refine ⟨fun s hs => ?_, fun h => ?_, fun h s hs hn => ?_⟩
  · have := hs.inv.permits
    omega
  · by_contra hne
    obtain ⟨m, rfl⟩ := Nat.exists_eq_succ_of_ne_zero (n := M) (by omega)
    obtain ⟨s, hs, hstarved, hlive, hlisteners⟩ := exists_starved m
    have hserved := h s hs (by simp only [hlisteners, List.length_cons, List.length_nil]; omega)
    exact hstarved.not_serves _ (hserved (by omega) [⟨.accepting, 0⟩] ⟨.asking, 1⟩ [] hlisteners
      Nat.one_pos)
  · rcases h with rfl | hn'
    · exact fun hlive => absurd hlive (Nat.not_lt_zero _)
    · exact hs.inv.allServed (Nat.le_trans hn hn')

/-- Two forwards, one stream allowed: nobody uses the first forward, and a connection to the
second one is never accepted, with no stream live. -/
theorem forward_starved :
    ∃ s, Reachable 1 s ∧ s.live = 0 ∧ s.listeners = [⟨.accepting, 0⟩, ⟨.asking, 1⟩] ∧
      ¬ Serves s 1 := by
  obtain ⟨s, hs, hstarved, hlive, hlisteners⟩ := exists_starved 0
  exact ⟨s, hs, hlive, hlisteners, hstarved.not_serves 1⟩

end Hush.Forwarding
