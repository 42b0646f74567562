import Hush.Lib.Loop
import Hush.Lib.Trace
import Hush.NwSock.Flows
import Mathlib.Algebra.Ring.Nat
import Mathlib.Data.List.Induction
import Mathlib.Data.List.Nodup

/-! The reaper of the shim's flows, interleaved with the threads that use them. -/
namespace Hush.NwSock.Reaper
open Hush.Lib

def uint64Max : UInt64 := 0xffffffffffffffff

/-- `NWUDP_UNPROTECTED_IDLE_NS`. -/
def unprotectedIdleNs : UInt64 := 3 * 1000 * 1000 * 1000

/-- What the reaper reads of a `flow_t`. -/
structure Flow where
  id : FlowId
  isProtected : Bool
  lastActivity : UInt64
  deriving DecidableEq, Repr

/-- The last flow moves to the place of the one that is taken. -/
def takeFlow (flows : List Flow) (id : FlowId) : Option (Flow × List Flow) :=
  match flows.findIdx? (·.id = id) with
  | none => none
  | some i => flows[i]?.map fun f => (f, (flows.set i (flows.getLastD f)).dropLast)

/-- The locals of `reap_flows` and `reserve_unprotected_flow` that their scan sets. -/
structure Scan where
  victim : FlowId
  oldest : UInt64
  unprotected : Nat
  deriving DecidableEq, Repr

def Scan.see (scan : Scan) (f : Flow) : Scan :=
  if f.isProtected then scan
  else if f.lastActivity < scan.oldest then ⟨f.id, f.lastActivity, scan.unprotected + 1⟩
  else { scan with unprotected := scan.unprotected + 1 }

def scanFlows (flows : List Flow) : Scan := flows.foldl Scan.see ⟨0, uint64Max, 0⟩

/-- The critical section of `reap_flows`: the flow it takes and the flows left. -/
def reap (maxUnprotected : Nat) (now : UInt64) (flows : List Flow) : Option (Flow × List Flow) :=
  let scan := scanFlows flows
  let overLimit := maxUnprotected < scan.unprotected
  let idle := scan.victim ≠ 0 ∧ unprotectedIdleNs ≤ now - scan.oldest
  if overLimit ∨ idle then takeFlow flows scan.victim else none

/-- The critical section of `reserve_unprotected_flow`. -/
def reserve (maxUnprotected : Nat) (flows : List Flow) : Option (Flow × List Flow) :=
  let scan := scanFlows flows
  if scan.unprotected < maxUnprotected then none
  else if scan.victim ≠ 0 then takeFlow flows scan.victim
  else none

inductive Phase
  | idle
  /-- At the head of the loop of `reap_flows`. -/
  | looping
  /-- The clock has been read, and the lock has not been taken. -/
  | checking (now : UInt64)
  deriving DecidableEq, Repr

structure State where
  flows : List Flow
  nextId : FlowId
  clock : UInt64
  reaper : Phase
  deriving DecidableEq, Repr

/-- Applies `change` to the flow that `find_flow` finds. -/
def State.onFlow (s : State) (id : FlowId) (change : Flow → Flow) : State :=
  { s with flows := s.flows.map fun f => if f.id = id then change f else f }

inductive Action
  | tick (clock : UInt64)
  /-- `nwudp_send`, `recv_loop` and `flow_ready` note the time of a flow's activity. -/
  | refresh (id : FlowId)
  | protect (id : FlowId)
  /-- `add_flow` has read the clock before it takes the lock. -/
  | add (lastActivity : UInt64)
  | close (id : FlowId)
  | reserve
  | startReaper
  | readClock
  | reap (taken : Option Flow)
  deriving DecidableEq, Repr

def Action.ofReaper : Action → Bool
  | .readClock | .reap _ => true
  | _ => false

/-- The reaper takes a flow. -/
def Action.takes : Action → Bool
  | .reap (some _) => true
  | _ => false

/-- Each critical section and each reading of the clock is one step. Receives run on the queue
that the reaper runs on, but nothing here depends on that. -/
inductive Step (maxUnprotected : Nat) : State → Action → State → Prop
  | tick {s : State} {clock : UInt64} (h : s.clock ≤ clock) :
      Step maxUnprotected s (.tick clock) { s with clock }
  | refresh {s : State} (id : FlowId) :
      Step maxUnprotected s (.refresh id) (s.onFlow id fun f => { f with lastActivity := s.clock })
  | protect {s : State} (id : FlowId) :
      Step maxUnprotected s (.protect id) (s.onFlow id fun f => { f with isProtected := true })
  | add {s : State} {lastActivity : UInt64} (h : lastActivity ≤ s.clock) :
      Step maxUnprotected s (.add lastActivity)
        { s with
          flows := s.flows ++ [⟨s.nextId + 1, false, lastActivity⟩], nextId := s.nextId + 1 }
  | close {s : State} {id : FlowId} {f : Flow} {flows : List Flow}
      (h : takeFlow s.flows id = some (f, flows)) :
      Step maxUnprotected s (.close id) { s with flows }
  | reserve {s : State} {f : Flow} {flows : List Flow}
      (h : reserve maxUnprotected s.flows = some (f, flows)) :
      Step maxUnprotected s .reserve { s with flows }
  | startReaper {s : State} (h : s.reaper = .idle) :
      Step maxUnprotected s .startReaper { s with reaper := .looping }
  | readClock {s : State} (h : s.reaper = .looping) :
      Step maxUnprotected s .readClock { s with reaper := .checking s.clock }
  | take {s : State} {now : UInt64} {f : Flow} {flows : List Flow}
      (h : s.reaper = .checking now) (htake : reap maxUnprotected now s.flows = some (f, flows)) :
      Step maxUnprotected s (.reap (some f)) { s with flows, reaper := .looping }
  | leave {s : State} {now : UInt64}
      (h : s.reaper = .checking now) (htake : reap maxUnprotected now s.flows = none) :
      Step maxUnprotected s (.reap none) { s with reaper := .idle }

/-- The flows have ids of their own, and no time lies ahead of the clock. -/
structure State.Valid (s : State) : Prop where
  nodup : (s.flows.map Flow.id).Nodup
  id_pos : ∀ f ∈ s.flows, 0 < f.id
  id_le : ∀ f ∈ s.flows, f.id ≤ s.nextId
  active_le : ∀ f ∈ s.flows, f.lastActivity ≤ s.clock
  now_le : ∀ now, s.reaper = .checking now → now ≤ s.clock

def unprotected (flows : List Flow) : Nat := flows.countP (!·.isProtected)

/-- The flow is a least recently active one among those without protection. -/
structure Least (flows : List Flow) (f : Flow) : Prop where
  mem : f ∈ flows
  unprotected : f.isProtected = false
  le : ∀ g ∈ flows, g.isProtected = false → f.lastActivity ≤ g.lastActivity

theorem Least.lastActivity_eq {flows : List Flow} {f g : Flow} (hf : Least flows f)
    (hg : Least flows g) : f.lastActivity = g.lastActivity :=
  UInt64.le_antisymm (hf.le g hg.mem hg.unprotected) (hg.le f hf.mem hf.unprotected)

section TakeFlow

variable {flows rest : List Flow} {f : Flow} {id : FlowId}

theorem takeFlow_middle {front : List Flow} (back : List Flow) (hf : f.id = id)
    (h : ∀ g ∈ front, g.id ≠ id) :
    ∃ rest, takeFlow (front ++ f :: back) id = some (f, rest) ∧
      (front ++ f :: back).Perm (f :: rest) := by
  have hfront : front.findIdx? (·.id = id) = none := by simpa using h
  have hidx : (front ++ f :: back).findIdx? (·.id = id) = some front.length := by
    simp [List.findIdx?_append, List.findIdx?_cons, hfront, hf]
  have htake : takeFlow (front ++ f :: back) id =
      some (f, ((front ++ f :: back).set front.length
        ((front ++ f :: back).getLastD f)).dropLast) := by
    simp [takeFlow, hidx]
  refine ⟨_, htake, ?_⟩
  rw [List.set_append_right _ _ (Nat.le_refl _), Nat.sub_self, List.set_cons_zero]
  rcases List.eq_nil_or_concat' back with rfl | ⟨mid, last, rfl⟩
  · simp
  · have hlast : (front ++ f :: (mid ++ [last])).getLastD f = last := by
      rw [← List.cons_append, ← List.append_assoc, List.getLastD_concat]
    have hdrop : (front ++ last :: (mid ++ [last])).dropLast = front ++ last :: mid := by
      rw [← List.cons_append, ← List.append_assoc, List.dropLast_concat]
    rw [hlast, hdrop]
    refine List.perm_middle.trans (.cons f (.append_left front ?_))
    exact List.perm_append_singleton last mid

theorem exists_takeFlow {g : Flow} (hg : g ∈ flows) (hid : g.id = id) :
    ∃ f rest, takeFlow flows id = some (f, rest) ∧ f.id = id ∧ flows.Perm (f :: rest) := by
  obtain ⟨f, front, back, rfl, hf, hfront⟩ := exists_first (P := fun f => f.id = id) hg hid
  obtain ⟨rest, htake, hperm⟩ := takeFlow_middle back hf hfront
  exact ⟨f, rest, htake, hf, hperm⟩

theorem takeFlow_eq_none (h : ∀ f ∈ flows, f.id ≠ id) : takeFlow flows id = none := by
  have hidx : flows.findIdx? (·.id = id) = none := by simpa using h
  rw [takeFlow, hidx]

theorem takeFlow_perm (h : takeFlow flows id = some (f, rest)) : flows.Perm (f :: rest) := by
  by_cases hmem : ∃ g ∈ flows, g.id = id
  · obtain ⟨g, hg, hid⟩ := hmem
    obtain ⟨f', rest', htake, -, hperm⟩ := exists_takeFlow hg hid
    obtain ⟨rfl, rfl⟩ := Prod.mk.inj (Option.some.inj (htake.symm.trans h))
    exact hperm
  · rw [takeFlow_eq_none fun g hg hid => hmem ⟨g, hg, hid⟩] at h
    cases h

end TakeFlow

section Scan

variable {scan : Scan} {flows rest : List Flow} {f : Flow}

/-- What a scan has found: no flow was ever active before the end of the clock's range, or a
least recently active one. -/
def Scan.Finds (scan : Scan) (flows : List Flow) : Prop :=
  (scan.victim = 0 ∧ scan.oldest = uint64Max ∧
    ∀ f ∈ flows, f.isProtected = false → f.lastActivity = uint64Max) ∨
  ∃ f, Least flows f ∧ f.id = scan.victim ∧ f.lastActivity = scan.oldest ∧
    f.lastActivity < uint64Max

theorem le_uint64Max (n : UInt64) : n ≤ uint64Max := by
  have := n.toNat_lt
  rw [UInt64.le_iff_toNat_le]
  exact Nat.le_pred_of_lt this

theorem scanFlows_append (flows : List Flow) (f : Flow) :
    scanFlows (flows ++ [f]) = (scanFlows flows).see f := by
  rw [scanFlows, List.foldl_append]
  rfl

theorem scanFlows_unprotected (flows : List Flow) :
    (scanFlows flows).unprotected = unprotected flows := by
  induction flows using List.reverseRecOn with
  | nil => rfl
  | append_singleton flows f ih =>
    rw [scanFlows_append, Scan.see, unprotected, List.countP_append, ← unprotected, ← ih]
    cases hf : f.isProtected <;> simp [hf]
    split <;> rfl

theorem Scan.Finds.oldest_le (h : Scan.Finds scan flows) (hf : f ∈ flows)
    (hprot : f.isProtected = false) : scan.oldest ≤ f.lastActivity := by
  rcases h with ⟨-, hold, hall⟩ | ⟨g, hleast, -, hold, -⟩
  · rw [hold, hall f hf hprot]
    exact UInt64.le_refl _
  · exact hold ▸ hleast.le f hf hprot

theorem forall_unprotected_append {P : Flow → Prop}
    (h : ∀ g ∈ flows, g.isProtected = false → P g) (hf : f.isProtected = false → P f) :
    ∀ g ∈ flows ++ [f], g.isProtected = false → P g := by
  intro g hg
  rcases List.mem_append.mp hg with hg | hg
  · exact h g hg
  · exact List.mem_singleton.mp hg ▸ hf

/-- A flow that is protected or not older changes at most the count. -/
theorem Scan.Finds.skip (h : Scan.Finds scan flows)
    (hf : f.isProtected = false → scan.oldest ≤ f.lastActivity) (count : Nat) :
    Scan.Finds { scan with unprotected := count } (flows ++ [f]) := by
  rcases h with ⟨hvictim, hold, hall⟩ | ⟨g, hleast, hid, hold, hlt⟩
  · refine Or.inl ⟨hvictim, hold, forall_unprotected_append hall fun hprot => ?_⟩
    exact UInt64.le_antisymm (le_uint64Max _) (hold ▸ hf hprot)
  · refine Or.inr ⟨g, ⟨List.mem_append_left _ hleast.mem, hleast.unprotected, ?_⟩, hid, hold, hlt⟩
    exact forall_unprotected_append hleast.le fun hprot => hold ▸ hf hprot

theorem Scan.Finds.replace (h : Scan.Finds scan flows) (hprot : f.isProtected = false)
    (hf : f.lastActivity < scan.oldest) (count : Nat) :
    Scan.Finds ⟨f.id, f.lastActivity, count⟩ (flows ++ [f]) := by
  have hleast : Least (flows ++ [f]) f := by
    refine ⟨by simp, hprot, forall_unprotected_append ?_ fun _ => UInt64.le_refl _⟩
    exact fun g hg hgprot => UInt64.le_of_lt (UInt64.lt_of_lt_of_le hf (h.oldest_le hg hgprot))
  exact Or.inr ⟨f, hleast, rfl, rfl, UInt64.lt_of_lt_of_le hf (le_uint64Max _)⟩

theorem scanFlows_finds (flows : List Flow) : (scanFlows flows).Finds flows := by
  induction flows using List.reverseRecOn with
  | nil => exact Or.inl ⟨rfl, rfl, by simp⟩
  | append_singleton flows f ih =>
    rw [scanFlows_append, Scan.see]
    split
    · next hprot => exact ih.skip (by simp [hprot]) _
    · next hprot =>
      split
      · next hlt => exact ih.replace (by simpa using hprot) hlt _
      · next hlt => exact ih.skip (fun _ => UInt64.not_lt.mp hlt) _

end Scan

section Reap

variable {maxUnprotected : Nat} {now : UInt64} {flows rest : List Flow} {f : Flow}

theorem eq_of_id_eq (hnodup : (flows.map Flow.id).Nodup) {g : Flow} (hf : f ∈ flows)
    (hg : g ∈ flows) (h : f.id = g.id) : f = g :=
  List.inj_on_of_nodup_map hnodup hf hg h

/-- `reap_flows` takes the flow that its scan finds, if any. -/
theorem takeFlow_victim (hnodup : (flows.map Flow.id).Nodup) (hf : Least flows f) :
    ∃ rest, takeFlow flows f.id = some (f, rest) ∧ flows.Perm (f :: rest) := by
  obtain ⟨g, rest, htake, hid, hperm⟩ := exists_takeFlow hf.mem rfl
  have hg : g ∈ flows := hperm.mem_iff.mpr List.mem_cons_self
  obtain rfl := eq_of_id_eq hnodup hg hf.mem hid
  exact ⟨rest, htake, hperm⟩

theorem reap_cases (maxUnprotected : Nat) (now : UInt64) (hnodup : (flows.map Flow.id).Nodup)
    (hpos : ∀ f ∈ flows, 0 < f.id) :
    (reap maxUnprotected now flows = none ∧
      ((∀ f ∈ flows, f.isProtected = false → f.lastActivity = uint64Max) ∨
        unprotected flows ≤ maxUnprotected ∧
        ∀ f, Least flows f → now - f.lastActivity < unprotectedIdleNs)) ∨
    ∃ f rest, reap maxUnprotected now flows = some (f, rest) ∧ flows.Perm (f :: rest) ∧
      Least flows f ∧ f.lastActivity < uint64Max ∧
      (maxUnprotected < unprotected flows ∨ unprotectedIdleNs ≤ now - f.lastActivity) := by
  have hcount := scanFlows_unprotected flows
  rcases scanFlows_finds flows with ⟨hvictim, -, hall⟩ | ⟨f, hleast, hid, hold, hlt⟩
  · refine Or.inl ⟨?_, Or.inl hall⟩
    have hnone : takeFlow flows 0 = none := takeFlow_eq_none fun f hf => Nat.ne_of_gt (hpos f hf)
    simp [reap, hvictim, hnone]
  · obtain ⟨rest, htake, hperm⟩ := takeFlow_victim hnodup hleast
    have hvictim : f.id ≠ 0 := Nat.ne_of_gt (hpos f hleast.mem)
    by_cases h : maxUnprotected < unprotected flows ∨ unprotectedIdleNs ≤ now - f.lastActivity
    · refine Or.inr ⟨f, rest, ?_, hperm, hleast, hlt, h⟩
      simp [reap, hcount, ← hid, ← hold, hvictim, h, htake]
    · refine Or.inl ⟨by simp [reap, hcount, ← hid, ← hold, hvictim, h], Or.inr ?_⟩
      obtain ⟨hcount, hidle⟩ := not_or.mp h
      refine ⟨Nat.not_lt.mp hcount, fun g hg => ?_⟩
      rw [hg.lastActivity_eq hleast]
      exact UInt64.not_le.mp hidle

end Reap

/-- What `reap_flows` may do at a check that takes this flow, or leaves. -/
structure Right (maxUnprotected : Nat) (s : State) (taken : Option Flow) : Prop where
  takes : ∀ f, taken = some f → Least s.flows f ∧
    (maxUnprotected < unprotected s.flows ∨
      f.lastActivity.toNat + unprotectedIdleNs.toNat ≤ s.clock.toNat)
  leaves : taken = none → unprotected s.flows ≤ maxUnprotected

/-- The reading of the clock is good enough for the check: without too many flows, no least
recently active flow has been active since, unless even that is three seconds ago. The other
cases are those at the end of the clock's range. -/
def Timely (maxUnprotected : Nat) (s : State) (now : UInt64) : Prop :=
  if maxUnprotected < unprotected s.flows then
    ∃ f ∈ s.flows, f.isProtected = false ∧ f.lastActivity ≠ uint64Max
  else ∀ f, Least s.flows f →
    f.lastActivity ≤ now ∨
    f.lastActivity.toNat + unprotectedIdleNs.toNat ≤ s.clock.toNat ∨
    f.lastActivity = uint64Max ∨
    now.toNat + 2 ^ 64 < f.lastActivity.toNat + unprotectedIdleNs.toNat

section Check

variable {maxUnprotected : Nat} {s t : State} {a : Action} {now : UInt64} {taken : Option Flow}

theorem sub_lt_iff (now last : UInt64) :
    now - last < unprotectedIdleNs ↔
      if last ≤ now then now.toNat < last.toNat + unprotectedIdleNs.toNat
      else now.toNat + 2 ^ 64 < last.toNat + unprotectedIdleNs.toNat := by
  have hlast := last.toNat_lt
  have hnow := now.toNat_lt
  rw [UInt64.lt_iff_toNat_lt, UInt64.toNat_sub]
  split
  · next h =>
    rw [UInt64.le_iff_toNat_le] at h
    omega
  · next h =>
    rw [UInt64.le_iff_toNat_le] at h
    omega

theorem leaves_iff_timely
    (h : (∀ f ∈ s.flows, f.isProtected = false → f.lastActivity = uint64Max) ∨
      (unprotected s.flows ≤ maxUnprotected ∧
        ∀ f, Least s.flows f → now - f.lastActivity < unprotectedIdleNs)) :
    unprotected s.flows ≤ maxUnprotected ↔ Timely maxUnprotected s now := by
  rw [Timely]
  split
  · next hover =>
    -- Only flows from the end of the clock's range can keep the reaper from taking one.
    rcases h with hall | ⟨hcount, -⟩
    · refine iff_of_false (Nat.not_le.mpr hover) ?_
      rintro ⟨f, hf, hprot, hne⟩
      exact hne (hall f hf hprot)
    · exact absurd hcount (Nat.not_le.mpr hover)
  · next hover =>
    refine iff_of_true (Nat.not_lt.mp hover) fun f hf => ?_
    rcases h with hall | ⟨-, hidle⟩
    · exact Or.inr (Or.inr (Or.inl (hall f hf.mem hf.unprotected)))
    · have hsub := (sub_lt_iff now f.lastActivity).mp (hidle f hf)
      by_cases hseen : f.lastActivity ≤ now
      · exact Or.inl hseen
      · rw [if_neg hseen] at hsub
        exact Or.inr (Or.inr (Or.inr hsub))

theorem takes_iff_timely {f : Flow} (hle : now.toNat ≤ s.clock.toNat) (hleast : Least s.flows f)
    (hlt : f.lastActivity < uint64Max)
    (hcause : maxUnprotected < unprotected s.flows ∨ unprotectedIdleNs ≤ now - f.lastActivity) :
    (maxUnprotected < unprotected s.flows ∨
      f.lastActivity.toNat + unprotectedIdleNs.toNat ≤ s.clock.toNat) ↔
      Timely maxUnprotected s now := by
  rw [Timely]
  split
  · next hover =>
    refine iff_of_true (Or.inl hover) ⟨f, hleast.mem, hleast.unprotected, ?_⟩
    exact UInt64.ne_of_lt hlt
  · next hover =>
    have hidle : ¬ now - f.lastActivity < unprotectedIdleNs :=
      UInt64.not_lt.mpr (hcause.resolve_left hover)
    rw [sub_lt_iff] at hidle
    constructor
    · intro hright g hg
      rw [hg.lastActivity_eq hleast]
      exact Or.inr (Or.inl (hright.resolve_left hover))
    · intro htimely
      by_cases hseen : f.lastActivity ≤ now
      · rw [if_pos hseen] at hidle
        exact Or.inr (Nat.le_trans (Nat.not_lt.mp hidle) hle)
      · rw [if_neg hseen] at hidle
        rcases htimely f hleast with hnow | hold | hmax | hwrap
        · exact absurd hnow hseen
        · exact Or.inr hold
        · exact absurd hmax (UInt64.ne_of_lt hlt)
        · exact absurd hwrap hidle

/-- A check is right exactly if its clock reading is good enough. -/
theorem right_iff_timely (hs : s.Valid) (hnow : s.reaper = .checking now)
    (htaken : (reap maxUnprotected now s.flows).map Prod.fst = taken) :
    Right maxUnprotected s taken ↔ Timely maxUnprotected s now := by
  have hle := UInt64.le_iff_toNat_le.mp (hs.now_le now hnow)
  rcases reap_cases maxUnprotected now hs.nodup hs.id_pos with
    ⟨hreap, hnone⟩ | ⟨f, rest, hreap, -, hleast, hlt, hcause⟩
  · obtain rfl : none = taken := by rw [← htaken, hreap]; rfl
    rw [← leaves_iff_timely hnone]
    exact ⟨fun h => h.leaves rfl, fun h => ⟨by simp, fun _ => h⟩⟩
  · obtain rfl : some f = taken := by rw [← htaken, hreap]; rfl
    rw [← takes_iff_timely hle hleast hlt hcause]
    exact ⟨fun h => (h.takes f rfl).2, fun h => ⟨by rintro _ ⟨⟩; exact ⟨hleast, h⟩, by simp⟩⟩

theorem reserve_perm {flows rest : List Flow} {f : Flow}
    (h : reserve maxUnprotected flows = some (f, rest)) : flows.Perm (f :: rest) := by
  simp only [reserve] at h
  split at h
  · cases h
  · split at h
    · exact takeFlow_perm h
    · cases h

theorem reap_perm {flows rest : List Flow} {f : Flow}
    (h : reap maxUnprotected now flows = some (f, rest)) : flows.Perm (f :: rest) := by
  simp only [reap] at h
  split at h
  · exact takeFlow_perm h
  · cases h

theorem State.Valid.onFlow (hs : s.Valid) (id : FlowId) {change : Flow → Flow}
    (hid : ∀ f, (change f).id = f.id)
    (hactive : ∀ f ∈ s.flows, (change f).lastActivity ≤ s.clock) : (s.onFlow id change).Valid := by
  have hsame : ∀ f : Flow, (if f.id = id then change f else f).id = f.id := by
    intro f
    split
    · exact hid f
    · rfl
  refine ⟨?_, ?_, ?_, ?_, hs.now_le⟩
  · have hids : (s.onFlow id change).flows.map Flow.id = s.flows.map Flow.id := by
      simp [State.onFlow, Function.comp_def, hsame]
    rw [hids]
    exact hs.nodup
  · simpa [State.onFlow, hsame] using hs.id_pos
  · simpa [State.onFlow, hsame] using hs.id_le
  · simp only [State.onFlow, List.forall_mem_map]
    intro f hf
    split
    · exact hactive f hf
    · exact hs.active_le f hf

theorem State.Valid.remove (hs : s.Valid) {f : Flow} {rest : List Flow}
    (h : s.flows.Perm (f :: rest)) : State.Valid { s with flows := rest } := by
  have hmem : ∀ g ∈ rest, g ∈ s.flows := fun g hg => h.mem_iff.mpr (List.mem_cons_of_mem f hg)
  refine ⟨?_, fun g hg => hs.id_pos g (hmem g hg), fun g hg => hs.id_le g (hmem g hg),
    fun g hg => hs.active_le g (hmem g hg), hs.now_le⟩
  have hnodup := (h.map Flow.id).nodup_iff.mp hs.nodup
  exact hnodup.of_cons

theorem State.Valid.add (hs : s.Valid) {last : UInt64} (h : last ≤ s.clock) :
    State.Valid { s with
      flows := s.flows ++ [⟨s.nextId + 1, false, last⟩], nextId := s.nextId + 1 } := by
  refine ⟨?_, ?_, ?_, ?_, hs.now_le⟩
  · rw [List.map_append, List.nodup_append]
    refine ⟨hs.nodup, by simp, ?_⟩
    rintro id hid _ hnew rfl
    obtain ⟨f, hf, rfl⟩ := List.mem_map.mp hid
    have hnext : f.id = s.nextId + 1 := by simpa using hnew
    have hle := hs.id_le f hf
    rw [hnext] at hle
    exact Nat.not_succ_le_self s.nextId hle
  · exact List.forall_mem_append.mpr ⟨hs.id_pos, by simp⟩
  · exact List.forall_mem_append.mpr ⟨fun f hf => Nat.le_succ_of_le (hs.id_le f hf), by simp⟩
  · exact List.forall_mem_append.mpr ⟨hs.active_le, by simpa using h⟩

theorem State.Valid.step (h : Step maxUnprotected s a t) (hs : s.Valid) : t.Valid := by
  cases h with
  | tick h =>
    exact ⟨hs.nodup, hs.id_pos, hs.id_le, fun f hf => UInt64.le_trans (hs.active_le f hf) h,
      fun now hnow => UInt64.le_trans (hs.now_le now hnow) h⟩
  | refresh id => exact hs.onFlow id (fun _ => rfl) fun _ _ => UInt64.le_refl _
  | protect id => exact hs.onFlow id (fun _ => rfl) hs.active_le
  | add h => exact hs.add h
  | close h => exact hs.remove (takeFlow_perm h)
  | reserve h => exact hs.remove (reserve_perm h)
  | startReaper h => exact ⟨hs.nodup, hs.id_pos, hs.id_le, hs.active_le, by simp⟩
  | readClock h =>
    refine ⟨hs.nodup, hs.id_pos, hs.id_le, hs.active_le, ?_⟩
    rintro _ ⟨⟩
    exact UInt64.le_refl _
  | take h htake =>
    have hrest := hs.remove (reap_perm htake)
    exact ⟨hrest.nodup, hrest.id_pos, hrest.id_le, hrest.active_le, by simp⟩
  | leave h htake => exact ⟨hs.nodup, hs.id_pos, hs.id_le, hs.active_le, by simp⟩

/-- A check belongs to the flow it takes. -/
theorem step_reap (h : Step maxUnprotected s (.reap taken) t) :
    ∃ now, s.reaper = .checking now ∧ (reap maxUnprotected now s.flows).map Prod.fst = taken := by
  cases h with
  | take h htake => exact ⟨_, h, by rw [htake]; rfl⟩
  | leave h htake => exact ⟨_, h, by rw [htake]; rfl⟩

theorem exists_step (h : s.reaper ≠ .idle) : ∃ a t, a.ofReaper ∧ Step maxUnprotected s a t := by
  cases hphase : s.reaper with
  | idle => exact absurd hphase h
  | looping => exact ⟨_, _, rfl, .readClock hphase⟩
  | checking now =>
    cases htake : reap maxUnprotected now s.flows with
    | none => exact ⟨_, _, rfl, .leave hphase htake⟩
    | some taken => exact ⟨_, _, rfl, .take hphase htake⟩

/-- Without new flows, each flow that the reaper takes leaves one less. -/
theorem step_length (h : Step maxUnprotected s a t) (hadd : ∀ last, a ≠ .add last) :
    t.flows.length + (if a.takes then 1 else 0) ≤ s.flows.length := by
  cases h with
  | add h => exact absurd rfl (hadd _)
  | close h =>
    rw [(takeFlow_perm h).length_eq]
    exact Nat.le_succ _
  | reserve h =>
    rw [(reserve_perm h).length_eq]
    exact Nat.le_succ _
  | take h htake =>
    rw [(reap_perm htake).length_eq]
    exact Nat.le_refl _
  | _ => simp [Action.takes, State.onFlow]

theorem takes_le {xs : List Action} (h : Trace (Step maxUnprotected) s xs t)
    (hadd : ∀ last, .add last ∉ xs) : t.flows.length + xs.countP Action.takes ≤ s.flows.length := by
  induction h with
  | refl => simp
  | @stepL s u t a xs hstep hrun ih =>
    have hfirst := step_length hstep fun last ha => hadd last (by simp [ha])
    have hrest := ih fun last hmem => hadd last (List.mem_cons_of_mem a hmem)
    rw [List.countP_cons]
    omega

end Check

/-- Every run of the reaper among the other threads: its checks are right, without new flows it
takes no more flows than there are, and it can always go on. -/
structure Reaps (maxUnprotected : Nat) (s : State) (xs : List Action) (t : State) : Prop where
  right : ∀ v taken w, Trace.Takes (Step maxUnprotected) s xs t v (.reap taken) w →
    Right maxUnprotected v taken
  ends : (∀ last, .add last ∉ xs) → xs.countP Action.takes ≤ s.flows.length
  goesOn : t.reaper ≠ .idle → ∃ a u, a.ofReaper ∧ Step maxUnprotected t a u

theorem reaps_iff {maxUnprotected : Nat} {s t : State} {xs : List Action} (hs : s.Valid)
    (h : Trace (Step maxUnprotected) s xs t) :
    Reaps maxUnprotected s xs t ↔
      ∀ v taken w now, Trace.Takes (Step maxUnprotected) s xs t v (.reap taken) w →
        v.reaper = .checking now → Timely maxUnprotected v now := by
  have hvalid : ∀ {v a w}, Trace.Takes (Step maxUnprotected) s xs t v a w → v.Valid := by
    rintro v a w ⟨before, -, -, hbefore, -⟩
    exact hbefore.invariant hs State.Valid.step
  constructor
  · intro hreaps v taken w now htakes hnow
    obtain ⟨-, -, -, -, hstep, -⟩ := id htakes
    obtain ⟨now', hnow', htaken⟩ := step_reap hstep
    obtain rfl : now = now' := Phase.checking.inj (hnow.symm.trans hnow')
    exact (right_iff_timely (hvalid htakes) hnow htaken).mp (hreaps.right v taken w htakes)
  · intro htimely
    refine ⟨?_, fun hadd => ?_, exists_step⟩
    · intro v taken w htakes
      obtain ⟨-, -, -, -, hstep, -⟩ := id htakes
      obtain ⟨now, hnow, htaken⟩ := step_reap hstep
      exact (right_iff_timely (hvalid htakes) hnow htaken).mpr (htimely v taken w now htakes hnow)
    · have := takes_le h hadd
      omega

/-- A flow on which something is sent every second, while the reaper reads the clock. -/
def active : State := ⟨[⟨1, false, 5000000000⟩], 1, 6000000000, .idle⟩

theorem active_valid : active.Valid :=
  ⟨by decide, by decide, by decide, by decide, by intro now h; cases h⟩

/-- Nothing is sent between the reading of the clock and the check. -/
theorem reaps_active :
    Reaps 128 active [.startReaper, .readClock, .reap none] active ∧ active.Valid := by
  have h : Trace (Step 128) active [.startReaper, .readClock, .reap none] active :=
    .stepL (.startReaper rfl) (.stepL (.readClock rfl) (.single (.leave rfl (by decide))))
  refine ⟨(reaps_iff active_valid h).mpr ?_, active_valid⟩
  rintro v taken w now ⟨before, after, heq, hbefore, -⟩ hnow
  rcases before with _ | ⟨a, _ | ⟨b, _ | ⟨c, before⟩⟩⟩
  · cases heq
  · cases heq
  · obtain ⟨rfl, rfl, -⟩ : a = .startReaper ∧ b = .readClock ∧ _ := by simpa [eq_comm] using heq
    rcases hbefore with _ | ⟨⟨⟩, _ | ⟨⟨⟩, ⟨⟩⟩⟩
    obtain rfl := Phase.checking.inj hnow
    refine (if_neg (by decide)).mpr fun f hf => Or.inl ?_
    obtain rfl := List.mem_singleton.mp hf.mem
    decide
  · simp at heq

def refreshed : Flow := ⟨1, false, 6000000001⟩

/-- The clock was read a nanosecond before the send. -/
def overtaken : State := ⟨[refreshed], 1, 6000000001, .checking 6000000000⟩

/-- A send between the reading of the clock and the check: the flow that has just been active is
taken for idle. -/
theorem reap_takes_active :
    active.Valid ∧ ∃ xs t, Trace (Step 128) active xs t ∧ ¬ Reaps 128 active xs t := by
  have hbefore : Trace (Step 128) active
      [.startReaper, .readClock, .tick (6000000001), .refresh 1] overtaken :=
    .stepL (.startReaper rfl) (.stepL (.readClock rfl)
      (.stepL (.tick (by decide)) (.single (.refresh 1))))
  have htake : Step 128 overtaken (.reap (some refreshed))
      { overtaken with flows := [], reaper := .looping } := .take rfl (by decide)
  refine ⟨active_valid, _, _, hbefore.append (.single htake), fun hreaps => ?_⟩
  have hright := hreaps.right overtaken (some refreshed) _ ⟨_, [], rfl, hbefore, htake, .refl⟩
  rcases (hright.takes refreshed rfl).2 with hover | hold
  · exact absurd hover (by decide)
  · exact absurd hold (by decide)

end Hush.NwSock.Reaper
