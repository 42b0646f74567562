import Hush.Lib.Processes
import Hush.NwSock.Flows

/-! Whichever comes first, a guard or a flow: the flow of a peer with a guard is protected. -/
namespace Hush.NwSock
open Hush.Lib

variable {ipv6 : Bool} {endpoint : FlowId → Option SocketAddr} {s t : State} {a : Action}

/-- The queue is in `on_flow` for the flow. -/
def Task.serves (flow : FlowId) : Task → Prop
  | .onFlow f | .recorded f _ | .linked f _ | .protecting f _ => f = flow
  | .idle | .taken _ | .unlinked _ _ => False

/-- The queue has an address of the flow in hand. -/
def Task.carries (flow : FlowId) (peer : SocketAddr) : Task → Prop
  | .recorded f p | .linked f p | .protecting f p | .unlinked f p => f = flow ∧ p = peer
  | .idle | .onFlow _ | .taken _ => False

/-- The queue is closing the flow that is recorded for the peer. -/
def Task.closes (flow : FlowId) (peer : SocketAddr) (task : Task) : Prop :=
  task = .taken flow ∨ task = .unlinked flow peer

attribute [grind] Task.serves Task.carries Task.closes

/-- The two maps agree with each other, with the shim and with the flows' endpoints, up to what
the queue is in the middle of. -/
structure Links (remote : FlowId → Option SocketAddr) (s : State) : Prop where
  inShim : ∀ peer flow, s.flows peer = some flow →
    (s.shim flow).isSome ∨ s.task.closes flow peer
  linked : ∀ peer flow, s.flows peer = some flow →
    s.peers flow = some peer ∨ s.task = .recorded flow peer ∨ s.task = .unlinked flow peer
  flowRemote : ∀ peer flow, s.flows peer = some flow → remote flow = some peer
  peerRemote : ∀ peer flow, s.peers flow = some peer → remote flow = some peer
  taskRemote : ∀ peer flow, s.task.carries flow peer → remote flow = some peer
  taskShim : ∀ flow, s.task.serves flow → (s.shim flow).isSome
  fresh : ∀ flow, (s.shim flow).isSome → flow ≤ s.nextId

section Links

variable {remote : FlowId → Option SocketAddr} {flow : FlowId} {peer : SocketAddr}

theorem Links.congr (hs : Links remote s)
    (hflows : t.flows = s.flows) (hpeers : t.peers = s.peers) (htask : t.task = s.task)
    (hid : t.nextId = s.nextId) (hshim : ∀ flow, (t.shim flow).isSome = (s.shim flow).isSome) :
    Links remote t := by
  obtain ⟨hin, hlinked, hflow, hpeer, htask', hserves, hfresh⟩ := hs
  constructor <;> simp only [hflows, hpeers, htask, hid, hshim] <;> assumption

/-- Outside `on_close` and with nothing half recorded the queue can go on to another task. -/
theorem Links.goOn (hs : Links remote s) {task : Task}
    (hcloses : ∀ flow peer, ¬ s.task.closes flow peer)
    (hrecorded : ∀ flow peer, s.task ≠ .recorded flow peer)
    (hremote : ∀ flow peer, task.carries flow peer → remote flow = some peer)
    (hserves : ∀ flow, task.serves flow → (s.shim flow).isSome) :
    Links remote { s with task := task } := by
  refine ⟨?_, ?_, hs.flowRemote, hs.peerRemote, fun peer flow => hremote flow peer, hserves,
    hs.fresh⟩
  · intro peer flow hflow
    exact .inl ((hs.inShim peer flow hflow).resolve_right (hcloses flow peer))
  · intro peer flow hflow
    rcases hs.linked peer flow hflow with h | h | h
    · exact .inl h
    · exact (hrecorded flow peer h).elim
    · exact (hcloses flow peer (.inr h)).elim

theorem Links.newFlow (hs : Links remote s) (hidle : s.task = .idle) :
    Links remote { s with
      nextId := s.nextId + 1, shim := Function.update s.shim (s.nextId + 1) (some false) } := by
  obtain ⟨hin, hlinked, hflow, hpeer, htask, hserves, hfresh⟩ := hs
  constructor <;> grind

theorem Links.insertFlow (hs : Links remote s) (h : s.task = .onFlow flow)
    (hremote : remote flow = some peer) :
    Links remote { s with
      flows := Function.update s.flows peer (some flow), task := .recorded flow peer } := by
  obtain ⟨hin, hlinked, hflow, hpeer, htask, hserves, hfresh⟩ := hs
  constructor <;> grind

theorem Links.insertPeer (hs : Links remote s) (h : s.task = .recorded flow peer) :
    Links remote { s with
      peers := Function.update s.peers flow (some peer), task := .linked flow peer } := by
  obtain ⟨hin, hlinked, hflow, hpeer, htask, hserves, hfresh⟩ := hs
  constructor <;> grind

theorem Links.protect (hs : Links remote s) (flow : FlowId) :
    Links remote { s with shim := protectFlow s.shim flow } :=
  hs.congr rfl rfl rfl rfl fun other => by grind

theorem Links.take (hs : Links remote s) (hidle : s.task = .idle) (flow : FlowId) :
    Links remote { s with shim := Function.update s.shim flow none, task := .taken flow } := by
  obtain ⟨hin, hlinked, hflow, hpeer, htask, hserves, hfresh⟩ := hs
  constructor <;> grind

theorem Links.removePeer (hs : Links remote s) (h : s.task = .taken flow) :
    Links remote { s with
      peers := Function.update s.peers flow none
      task := match s.peers flow with
        | some peer => .unlinked flow peer
        | none => .idle } := by
  obtain ⟨hin, hlinked, hflow, hpeer, htask, hserves, hfresh⟩ := hs
  constructor <;> grind

theorem Links.removeFlow (hs : Links remote s) (h : s.task = .unlinked flow peer) :
    Links remote { s with flows := forgetFlow s.flows flow peer, task := .idle } := by
  obtain ⟨hin, hlinked, hflow, hpeer, htask, hserves, hfresh⟩ := hs
  constructor <;> grind

end Links

theorem Links.step (h : Step ipv6 endpoint s a t)
    (hs : Links (fun f => (endpoint f).map (canonical ipv6)) s) :
    Links (fun f => (endpoint f).map (canonical ipv6)) t := by
  cases h with
  | adopt | adoptLooks | uncount | dropLooks | close =>
    exact hs.congr rfl rfl rfl rfl fun _ => rfl
  | adoptProtects => exact (hs.protect _).congr rfl rfl rfl rfl fun _ => rfl
  | newFlow hidle => exact hs.newFlow hidle
  | ready hidle hflow => exact hs.goOn (by grind) (by grind) (by grind) (by grind)
  | insertFlow h haddr => exact hs.insertFlow h (by rw [haddr]; rfl)
  | noAddress h => exact hs.goOn (by grind) (by grind) (by grind) (by grind)
  | insertPeer h => exact hs.insertPeer h
  | checkProtected h =>
    have hremote := hs.taskRemote
    have hserves := hs.taskShim
    exact hs.goOn (by grind) (by grind) (by grind) (by grind)
  | protect h => exact (hs.protect _).goOn (by grind) (by grind) (by grind) (by grind)
  | take hidle => exact hs.take hidle _
  | removePeer h => exact hs.removePeer h
  | removeFlow h => exact hs.removeFlow h

/-- The number of guards that are counted for a peer. -/
def State.holders (s : State) (peer : SocketAddr) : Nat := s.guards.countP (Guard.holds peer)

/-- `protected` counts the guards. -/
def Counted (s : State) : Prop :=
  ∀ peer, s.protectedPeers peer = if s.holders peer = 0 then none else some (s.holders peer)

/-- Dropping a guard leaves the others of the peer counted, or no entry. -/
theorem Counted.uncount (hs : Counted s) {peer : SocketAddr} {front back : List Guard}
    (h : s.guards = front ++ .live peer :: back) :
    s.uncount peer =
      if (front ++ back).countP (Guard.holds peer) = 0 then
        (Function.update s.protectedPeers peer none, .uncounted peer)
      else
        (Function.update s.protectedPeers peer (some ((front ++ back).countP (Guard.holds peer))),
          .gone) := by
  have hcount := hs peer
  have hholds : (Guard.live peer).holds peer = true := decide_eq_true rfl
  rw [State.holders, h, countP_middle, if_pos hholds, if_neg (Nat.succ_ne_zero _)] at hcount
  simp only [State.uncount, hcount, Nat.add_sub_cancel]
  split <;> split <;> first | rfl | omega

theorem Counted.step (h : Step ipv6 endpoint s a t) (hs : Counted s) : Counted t := by
  cases h with
  | adopt addr =>
    intro peer
    have hpeer := hs peer
    simp only [State.holders, State.count, List.countP_append, List.countP_singleton,
      Function.update_apply] at hpeer ⊢
    grind [Guard.holds]
  | uncount h =>
    intro peer
    have hpeer := hs peer
    simp only [State.holders, h, countP_middle, hs.uncount h] at hpeer ⊢
    split <;> simp only [Function.update_apply, Guard.holds] at hpeer ⊢ <;> grind
  | adoptLooks h | adoptProtects h | dropLooks h | close h =>
    intro peer
    have hpeer := hs peer
    simp only [State.holders, h, countP_middle] at hpeer ⊢
    grind [Guard.holds, State.found, State.toClose]
  | newFlow | ready | insertFlow | noAddress | insertPeer | checkProtected | protect | take
  | removePeer | removeFlow => exact hs

/-- The flow recorded for a peer that a guard is counted for is marked, or the queue is about to
mark it or to forget it, or an adoption has yet to look for it or to mark it. -/
def Marked (s : State) : Prop :=
  ∀ peer flow, s.flows peer = some flow → (∃ g ∈ s.guards, g.holds peer) →
    s.shim flow = some true ∨ s.task.carries flow peer ∨ s.task = .taken flow ∨
    .counted peer ∈ s.guards ∨ .found peer flow ∈ s.guards

/-- What marks a peer's flow when one guard is about to be replaced. -/
theorem Marked.of_replace {peer : SocketAddr} {flow : FlowId} {front back : List Guard}
    {g g' : Guard} (hs : Marked s) (h : s.guards = front ++ g :: back)
    (hflow : s.flows peer = some flow) (hguard : ∃ x ∈ front ++ g' :: back, x.holds peer)
    (hg : g'.holds peer → g.holds peer) :
    s.shim flow = some true ∨ s.task.carries flow peer ∨ s.task = .taken flow ∨
      (g = .counted peer ∨ .counted peer ∈ front ++ g' :: back) ∨
      g = .found peer flow ∨ .found peer flow ∈ front ++ g' :: back := by
  have hholds : ∃ x ∈ s.guards, x.holds peer := by
    rw [h, exists_middle]
    exact (exists_middle.mp hguard).imp_left hg
  have hkept : ∀ x, x ∈ s.guards → g = x ∨ x ∈ front ++ g' :: back := by
    intro x hx
    rw [h] at hx
    rcases mem_middle.mp hx with rfl | hx
    · exact .inl rfl
    · exact .inr (mem_middle.mpr (.inr hx))
  exact (hs peer flow hflow hholds).imp_right
    (.imp_right (.imp_right (.imp (hkept _) (hkept _))))

theorem Marked.step (h : Step ipv6 endpoint s a t)
    (hl : Links (fun f => (endpoint f).map (canonical ipv6)) s) (hc : Counted s)
    (hs : Marked s) : Marked t := by
  intro peer flow hflow hguard
  cases h with
  | adopt addr =>
    have hmark := hs peer flow hflow
    simp only [State.count, List.mem_append, List.mem_singleton] at hguard ⊢
    grind [Guard.holds]
  | adoptLooks h =>
    have hmark := hs.of_replace h hflow hguard (by grind [Guard.holds, State.found])
    grind [State.found]
  | adoptProtects h =>
    -- the flow is in the shim and is marked now, or the queue is closing it
    have hmark := hs.of_replace h hflow hguard (by grind [Guard.holds])
    have hin := hl.inShim peer flow hflow
    grind
  | uncount h =>
    have hmark := hs.of_replace h hflow hguard (by grind [Guard.holds, State.uncount])
    grind
  | dropLooks h =>
    have hmark := hs.of_replace h hflow hguard (by grind [Guard.holds, State.toClose])
    grind
  | close h =>
    have hmark := hs.of_replace h hflow hguard (by grind [Guard.holds])
    grind
  | newFlow hidle =>
    -- the new flow is none of those recorded
    have hmark := hs peer flow hflow hguard
    have hin := hl.inShim peer flow hflow
    have hfresh := hl.fresh flow
    grind
  | insertFlow h haddr =>
    have hmark := hs peer flow
    grind
  | checkProtected h =>
    -- a peer without an entry has no guard
    have hmark := hs peer flow hflow hguard
    have hcount := hc peer
    have hpos : 0 < s.holders peer := List.countP_pos_iff.mpr hguard
    grind
  | protect h =>
    have hmark := hs peer flow hflow hguard
    have hin := hl.taskShim flow
    grind
  | removePeer h =>
    -- the recorded flow is linked to its peer, so the queue goes on to forget it
    have hmark := hs peer flow hflow hguard
    have hlinked := hl.linked peer flow hflow
    grind
  | removeFlow h =>
    have hmark := hs peer flow
    grind
  | ready | noAddress | insertPeer | take =>
    have hmark := hs peer flow hflow hguard
    grind

/-- No adoption, drop, callback or close is in progress. -/
structure State.Quiet (s : State) : Prop where
  idle : s.task = .idle
  guards : ∀ g ∈ s.guards, (∃ peer, g = .live peer) ∨ g = .gone

/-- All that the threads and the queue keep together. -/
structure Inv (ipv6 : Bool) (endpoint : FlowId → Option SocketAddr) (s : State) : Prop where
  links : Links (fun f => (endpoint f).map (canonical ipv6)) s
  counted : Counted s
  marked : Marked s

theorem inv_start : Inv ipv6 endpoint .start := by
  refine ⟨⟨?_, ?_, ?_, ?_, ?_, ?_, ?_⟩, fun _ => rfl, ?_⟩ <;>
    simp [State.start, Marked, Task.carries, Task.serves]

theorem Inv.step (h : Step ipv6 endpoint s a t) (hs : Inv ipv6 endpoint s) :
    Inv ipv6 endpoint t :=
  ⟨hs.links.step h, hs.counted.step h, hs.marked.step h hs.links hs.counted⟩

theorem State.Quiet.holders_eq (hq : s.Quiet) (peer : SocketAddr) :
    s.holders peer = s.guards.count (.live peer) := by
  refine List.countP_congr fun g hg => ?_
  rcases hq.guards g hg with ⟨p, rfl⟩ | rfl <;> simp [Guard.holds]

/-- Whichever came first, the flow recorded for a peer with a guard is protected. -/
theorem adopted_flow_protected (ipv6 : Bool) (endpoint : FlowId → Option SocketAddr)
    (actions : List Action) (s : State) (h : Trace (Step ipv6 endpoint) .start actions s)
    (hq : s.Quiet) :
    (∀ peer flow, .live peer ∈ s.guards → s.flows peer = some flow → s.shim flow = some true) ∧
    (∀ peer, (s.protectedPeers peer).getD 0 = s.guards.count (.live peer)) ∧
    ∀ peer flow, s.flows peer = some flow → s.peers flow = some peer := by
  have hinv : Inv ipv6 endpoint s := h.invariant inv_start Inv.step
  refine ⟨fun peer flow hlive hflow => ?_, fun peer => ?_, fun peer flow hflow => ?_⟩
  · have hmark := hinv.marked peer flow hflow ⟨_, hlive, decide_eq_true rfl⟩
    rcases hmark with hmark | hmark | hmark | hmark | hmark
    · exact hmark
    · rw [hq.idle] at hmark
      exact hmark.elim
    · rw [hq.idle] at hmark
      cases hmark
    · simpa using hq.guards _ hmark
    · simpa using hq.guards _ hmark
  · rw [hinv.counted peer, hq.holders_eq peer]
    split <;> simp_all
  · have hlinked := hinv.links.linked peer flow hflow
    rw [hq.idle] at hlinked
    simpa using hlinked

/-- A client, and the endpoint of its flows. -/
def client : SocketAddr := .v4 0x0a000001 50000

/-- The client's flow is ready before its guard is there. -/
theorem adopted_flow_protected_client :
    ∃ s : State, s.Quiet ∧ .live client ∈ s.guards ∧ s.flows client = some 1 ∧
      s.shim 1 = some true ∧ s.peers 1 = some client := by
  have htrace : ∃ actions s, Trace (Step false fun _ => some client) .start actions s ∧
      s.Quiet ∧ .live client ∈ s.guards ∧ s.flows client = some 1 := by
    refine ⟨_, _, .stepL (.newFlow rfl) <| .stepL (@Step.ready _ _ _ 1 rfl rfl) <|
      .stepL (.insertFlow rfl rfl) <| .stepL (.insertPeer rfl) <| .stepL (.checkProtected rfl) <|
      .stepL (.adopt client) <| .stepL (@Step.adoptLooks _ _ _ client [] [] rfl) <|
      .single (@Step.adoptProtects _ _ _ client 1 [] [] rfl), ⟨rfl, ?_⟩, ?_, rfl⟩
    · simp
    · simp
  obtain ⟨actions, s, htrace, hq, hlive, hflow⟩ := htrace
  obtain ⟨hmarked, -, hlinked⟩ := adopted_flow_protected false _ actions s htrace hq
  exact ⟨s, hq, hlive, hflow, hmarked client 1 hlive hflow, hlinked client 1 hflow⟩

/-- While the last guard of a peer is being dropped, the peer has no other. -/
def Undisturbed (guards : List Guard) : Prop :=
  ∀ peer, ∀ g ∈ guards, g.drops peer → ∀ g' ∈ guards, g'.holds peer = false

theorem Undisturbed.replace {front back : List Guard} {g g' : Guard}
    (hs : Undisturbed (front ++ g :: back)) (hdrops : ∀ peer, g'.drops peer → g.drops peer)
    (hholds : ∀ peer, g'.holds peer → g.holds peer) : Undisturbed (front ++ g' :: back) := by
  intro peer x hx hdrop y hy
  obtain ⟨x', hx', hdrop'⟩ : ∃ x ∈ front ++ g :: back, x.drops peer := by
    rw [exists_middle]
    rcases mem_middle.mp hx with rfl | hx
    · exact .inl (hdrops peer hdrop)
    · exact .inr ⟨x, hx, hdrop⟩
  obtain ⟨hg, hothers⟩ := forall_middle.mp (hs peer x' hx' hdrop')
  rcases mem_middle.mp hy with rfl | hy
  · by_contra h
    simp [hholds peer (by simpa using h)] at hg
  · exact hothers y hy

/-- An adoption is not counted while a drop is between its removal of the peer's entry and its
close. -/
def NotDropping (s : State) : Action → Prop
  | .adopt peer => ∀ g ∈ s.guards, g.drops peer = false
  | _ => True

theorem Undisturbed.step (h : Step ipv6 endpoint s a t) (hnot : NotDropping s a)
    (hc : Counted s) (hs : Undisturbed s.guards) : Undisturbed t.guards := by
  cases h with
  | adopt addr =>
    intro peer g hg hdrop g' hg'
    simp only [State.count, List.mem_append, List.mem_singleton] at hg hg'
    rcases hg with hg | rfl
    · rcases hg' with hg' | rfl
      · exact hs peer g hg hdrop g' hg'
      · refine decide_eq_false ?_
        rintro rfl
        simp [hnot g hg] at hdrop
    · cases hdrop
  | @uncount p front back h =>
    rw [h] at hs
    simp only [hc.uncount h]
    split
    · next hzero =>
      intro peer g hg hdrop g' hg'
      -- the guard was the last one of its own peer, and another peer's drops are as before
      have hothers : ∀ x ∈ front ++ back, x.holds peer = false := by
        by_cases hp : p = peer
        · subst hp
          simpa using List.countP_eq_zero.mp hzero
        · have hg : g ∈ front ++ back := by
            rcases mem_middle.mp hg with rfl | hg
            · exact absurd (of_decide_eq_true hdrop) hp
            · exact hg
          exact (forall_middle.mp (hs peer g (mem_middle.mpr (.inr hg)) hdrop)).2
      rcases mem_middle.mp hg' with rfl | hg'
      · rfl
      · exact hothers g' hg'
    · exact hs.replace (by simp [Guard.drops]) (by simp [Guard.holds])
  | adoptLooks h =>
    rw [h] at hs
    exact hs.replace (by grind [Guard.drops, State.found]) (by grind [Guard.holds, State.found])
  | adoptProtects h =>
    rw [h] at hs
    exact hs.replace (by simp [Guard.drops]) (by simp [Guard.holds])
  | dropLooks h =>
    rw [h] at hs
    exact hs.replace (by grind [Guard.drops, State.toClose])
      (by grind [Guard.holds, State.toClose])
  | close h =>
    rw [h] at hs
    exact hs.replace (by simp [Guard.drops]) (by simp [Guard.holds])
  | newFlow | ready | insertFlow | noAddress | insertPeer | checkProtected | protect | take
  | removePeer | removeFlow => exact hs

/-- A drop closes a flow only when no other guard holds the peer, if no adoption comes between
its removal of the peer's entry and its close. -/
theorem drop_closes_unguarded (ipv6 : Bool) (endpoint : FlowId → Option SocketAddr)
    (actions : List Action) (s t : State) (peer : SocketAddr) (flow : FlowId)
    (h : Trace (fun v a w => Step ipv6 endpoint v a w ∧ NotDropping v a) .start actions s)
    (hclose : Step ipv6 endpoint s (.close peer flow) t) :
    ∀ g ∈ s.guards, g.holds peer = false := by
  have hinv := h.invariant (P := fun s => Counted s ∧ Undisturbed s.guards)
    ⟨fun _ => rfl, fun _ _ h => by cases h⟩
    fun hs hinv => ⟨hinv.1.step hs.1, hinv.2.step hs.1 hs.2 hinv.1⟩
  cases hclose with
  | close hguards =>
    exact hinv.2 peer (.closing peer flow) (by simp [hguards]) (decide_eq_true rfl)

/-- The client's only guard is dropped. -/
theorem drop_closes_unguarded_client :
    ∃ s t : State, Step false (fun _ => some client) s (.close client 1) t ∧
      ∀ g ∈ s.guards, g.holds client = false := by
  have htrace : ∃ actions s t,
      Trace (fun v a w => Step false (fun _ => some client) v a w ∧ NotDropping v a) .start
        actions s ∧ Step false (fun _ => some client) s (.close client 1) t := by
    refine ⟨_, _, _, .stepL ⟨.newFlow rfl, trivial⟩ <|
      .stepL ⟨@Step.ready _ _ _ 1 rfl rfl, trivial⟩ <| .stepL ⟨.insertFlow rfl rfl, trivial⟩ <|
      .stepL ⟨.insertPeer rfl, trivial⟩ <| .stepL ⟨.checkProtected rfl, trivial⟩ <|
      .stepL ⟨.adopt client, by simp [NotDropping, State.start]⟩ <|
      .stepL ⟨@Step.adoptLooks _ _ _ client [] [] rfl, trivial⟩ <|
      .stepL ⟨@Step.adoptProtects _ _ _ client 1 [] [] rfl, trivial⟩ <|
      .stepL ⟨@Step.uncount _ _ _ client [] [] rfl, trivial⟩ <|
      .single ⟨@Step.dropLooks _ _ _ client [] [] rfl, trivial⟩,
      @Step.close _ _ _ client 1 [] [] rfl⟩
  obtain ⟨actions, s, t, htrace, hclose⟩ := htrace
  exact ⟨s, t, hclose, drop_closes_unguarded false _ actions s t client 1 htrace hclose⟩

/-- A guard that is adopted while the last one is dropped loses its flow. -/
theorem drop_closes_guarded :
    ∃ actions s t, Trace (Step false fun _ => some client) .start actions s ∧
      Step false (fun _ => some client) s (.close client 1) t ∧ .live client ∈ s.guards := by
  refine ⟨_, _, _, .stepL (.newFlow rfl) <| .stepL (@Step.ready _ _ _ 1 rfl rfl) <|
    .stepL (.insertFlow rfl rfl) <| .stepL (.insertPeer rfl) <| .stepL (.checkProtected rfl) <|
    .stepL (.adopt client) <| .stepL (@Step.adoptLooks _ _ _ client [] [] rfl) <|
    .stepL (@Step.adoptProtects _ _ _ client 1 [] [] rfl) <|
    -- the last guard is dropped, and another one adopted before the drop looks for the flow
    .stepL (@Step.uncount _ _ _ client [] [] rfl) <| .stepL (.adopt client) <|
    .stepL (@Step.adoptLooks _ _ _ client [.uncounted client] [] rfl) <|
    .stepL (@Step.adoptProtects _ _ _ client 1 [.uncounted client] [] rfl) <|
    .single (@Step.dropLooks _ _ _ client [] [.live client] rfl),
    @Step.close _ _ _ client 1 [] [.live client] rfl, ?_⟩
  simp

end Hush.NwSock
