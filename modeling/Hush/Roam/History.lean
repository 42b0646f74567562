import Hush.Roam.PathWatch
import Mathlib.Data.List.Induction

/-! The path watcher's answer, as a condition on the history of its calls. -/
namespace Hush.Roam

/-- The time of a tick and the connection's counters at it. -/
structure Tick where
  now : Nat
  acks : Nat
  sent : Nat
  deriving DecidableEq, Repr

inductive Call
  | observe (t : Tick) (silence : Nat)
  | hopped (now silence : Nat)
  deriving DecidableEq, Repr

def Call.tick? : Call → Option Tick
  | .observe t _ => some t
  | .hopped _ _ => none

/-- A hop's time and silence. -/
def Call.hop? : Call → Option (Nat × Nat)
  | .observe _ _ => none
  | .hopped now silence => some (now, silence)

def PathWatch.call (w : PathWatch) : Call → PathWatch
  | .observe t silence => (w.observe t.now t.acks t.sent silence).1
  | .hopped now silence => w.hopped now silence

/-- The watcher after these calls. -/
def PathWatch.after (calls : List Call) : PathWatch := calls.foldl PathWatch.call .default

def ticks (calls : List Call) : List Tick := calls.filterMap Call.tick?

def hops (calls : List Call) : List (Nat × Nat) := calls.filterMap Call.hop?

/-- The ack counter at the last tick, and 0 before the first. -/
def lastAcks (calls : List Call) : Nat := (ticks calls).getLast?.elim 0 Tick.acks

/-- The sent counter at the last tick that saw a new ACK, and the calls since then. -/
inductive LastAck (calls : List Call) : Nat → List Call → Prop
  | never (h : ∀ t ∈ ticks calls, t.acks = 0) : LastAck calls 0 calls
  | tick {before since : List Call} {t : Tick} {silence : Nat}
      (hcalls : calls = before ++ .observe t silence :: since)
      (hnew : t.acks ≠ lastAcks before) (hsince : ∀ u ∈ ticks since, u.acks = t.acks) :
      LastAck calls t.sent since

/-- The backoff after hops with these silences. -/
def backoffAfter (silences : List Nat) : Nat :=
  silences.foldl (fun backoff silence => min (max (backoff * 2) silence) maxHopBackoff) 0

theorem backoffAfter_replicate (silence n : Nat) :
    backoffAfter (List.replicate (n + 1) silence) = min (silence * 2 ^ n) maxHopBackoff := by
  induction n with
  | zero => simp [backoffAfter]
  | succ n ih =>
    have hlast : backoffAfter (List.replicate (n + 1 + 1) silence) =
        min (max (backoffAfter (List.replicate (n + 1) silence) * 2) silence) maxHopBackoff := by
      rw [List.replicate_succ', backoffAfter, List.foldl_append]
      rfl
    have hpos : silence ≤ silence * 2 ^ n := Nat.le_mul_of_pos_right _ (Nat.two_pow_pos n)
    rw [hlast, ih, Nat.pow_succ, ← Nat.mul_assoc]
    omega

/-- Hops with one silence double the backoff up to thirty seconds. -/
theorem backoffAfter_const {silence : Nat} {silences : List Nat} (h : ∀ s ∈ silences, s = silence) :
    backoffAfter silences =
      if silences = [] then 0 else min (silence * 2 ^ (silences.length - 1)) (30 * second) := by
  rcases silences with _ | ⟨s, rest⟩
  · rfl
  · rw [if_neg (List.cons_ne_nil s rest)]
    have hall : s :: rest = List.replicate (rest.length + 1) silence :=
      List.eq_replicate_iff.mpr ⟨rfl, h⟩
    rw [hall, backoffAfter_replicate, List.length_replicate, Nat.add_sub_cancel, maxHopBackoff]

section After

variable {calls since : List Call} {c : Call} {w : PathWatch} {acks sent : Nat}

theorem after_append (calls : List Call) (c : Call) :
    PathWatch.after (calls ++ [c]) = (PathWatch.after calls).call c := by
  simp [PathWatch.after]

theorem observe_fst_acks (w : PathWatch) (t : Tick) (silence : Nat) :
    (w.observe t.now t.acks t.sent silence).1.acks = t.acks := by
  unfold PathWatch.observe
  split
  · rfl
  · next h =>
    have heq : t.acks = w.acks := not_not.mp h
    split <;> exact heq.symm

theorem observe_fst_lastHop (w : PathWatch) (t : Tick) (silence : Nat) :
    (w.observe t.now t.acks t.sent silence).1.lastHop = w.lastHop := by
  unfold PathWatch.observe
  split
  · rfl
  · split <;> rfl

theorem after_acks (calls : List Call) : (PathWatch.after calls).acks = lastAcks calls := by
  induction calls using List.reverseRecOn with
  | nil => rfl
  | append_singleton calls c ih =>
    rw [after_append]
    cases c with
    | observe t silence =>
      simp [PathWatch.call, observe_fst_acks, lastAcks, ticks, Call.tick?]
    | hopped now silence =>
      rw [PathWatch.call, PathWatch.hopped, ih]
      simp [lastAcks, ticks, Call.tick?]

theorem after_lastHop (calls : List Call) :
    (PathWatch.after calls).lastHop = (hops calls).getLast?.map Prod.fst := by
  induction calls using List.reverseRecOn with
  | nil => rfl
  | append_singleton calls c ih =>
    rw [after_append]
    cases c with
    | observe t silence =>
      rw [PathWatch.call, observe_fst_lastHop, ih]
      simp [hops, Call.hop?]
    | hopped now silence => simp [PathWatch.call, PathWatch.hopped, hops, Call.hop?]

/-- What the watcher knows of the calls since the last new ACK. -/
structure Epoch (acks sent : Nat) (since : List Call) (w : PathWatch) : Prop where
  acks_eq : w.acks = acks
  sent_eq : w.sentAtLastAck = sent
  unanswered : w.unansweredSince = ((ticks since).find? (·.sent ≠ sent)).map Tick.now
  backoff : w.backoff = backoffAfter ((hops since).map Prod.snd)

theorem Epoch.call (h : Epoch acks sent since w) (hc : ∀ t, c.tick? = some t → t.acks = acks) :
    Epoch acks sent (since ++ [c]) (w.call c) := by
  cases c with
  | observe t silence =>
    have hacks : ¬ t.acks ≠ w.acks := by
      rw [hc t rfl, h.acks_eq]
      exact fun hne => hne rfl
    have hhops : hops (since ++ [.observe t silence]) = hops since := by simp [hops, Call.hop?]
    have hticks : ticks (since ++ [.observe t silence]) = ticks since ++ [t] := by
      simp [ticks, Call.tick?]
    rw [PathWatch.call, PathWatch.observe, if_neg hacks]
    by_cases hsent : t.sent = w.sentAtLastAck
    · rw [if_pos hsent]
      refine ⟨h.acks_eq, h.sent_eq, ?_, ?_⟩
      · rw [h.unanswered, hticks]
        simp [List.find?_append, hsent, h.sent_eq]
      · rw [h.backoff, hhops]
    · rw [if_neg hsent]
      refine ⟨h.acks_eq, h.sent_eq, ?_, ?_⟩
      · rw [hticks, List.find?_append]
        simp only [h.unanswered]
        rw [h.sent_eq] at hsent
        cases (ticks since).find? (·.sent ≠ sent) <;> simp [hsent]
      · rw [h.backoff, hhops]
  | hopped now silence =>
    have hhops : hops (since ++ [.hopped now silence]) = hops since ++ [(now, silence)] := by
      simp [hops, Call.hop?]
    have hticks : ticks (since ++ [.hopped now silence]) = ticks since := by
      simp [ticks, Call.tick?]
    refine ⟨h.acks_eq, h.sent_eq, ?_, ?_⟩
    · rw [PathWatch.call, PathWatch.hopped, hticks, h.unanswered]
    · rw [PathWatch.call, PathWatch.hopped, hhops, h.backoff]
      simp [backoffAfter]

theorem Epoch.run (h : Epoch acks sent since w) (more : List Call)
    (hmore : ∀ t ∈ ticks more, t.acks = acks) :
    Epoch acks sent (since ++ more) (more.foldl PathWatch.call w) := by
  induction more generalizing since w with
  | nil => simpa using h
  | cons c more ih =>
    have hc : ∀ t, c.tick? = some t → t.acks = acks := fun t ht =>
      hmore t (List.mem_filterMap.mpr ⟨c, List.mem_cons_self, ht⟩)
    have hrest : ∀ t ∈ ticks more, t.acks = acks := by
      intro t ht
      obtain ⟨d, hd, htick⟩ := List.mem_filterMap.mp ht
      exact hmore t (List.mem_filterMap.mpr ⟨d, List.mem_cons_of_mem c hd, htick⟩)
    simpa using ih (h.call hc) hrest

/-- A new ACK starts an epoch. -/
theorem epoch_of_new {t : Tick} {silence : Nat} (h : t.acks ≠ w.acks) :
    Epoch t.acks t.sent [] (w.call (.observe t silence)) := by
  rw [PathWatch.call, PathWatch.observe, if_pos h]
  exact ⟨rfl, rfl, rfl, rfl⟩

theorem LastAck.epoch (h : LastAck calls sent since) :
    Epoch (lastAcks calls) sent since (PathWatch.after calls) := by
  have hepoch : ∃ acks, Epoch acks sent since (PathWatch.after calls) := by
    cases h with
    | never h =>
      have hstart : Epoch 0 0 [] .default := ⟨rfl, rfl, rfl, rfl⟩
      exact ⟨0, hstart.run calls h⟩
    | @tick before since t silence hcalls hnew hsince =>
      refine ⟨t.acks, ?_⟩
      rw [hcalls, PathWatch.after, List.foldl_append, List.foldl_cons]
      rw [← after_acks] at hnew
      exact (epoch_of_new hnew).run since hsince
  obtain ⟨acks, hepoch⟩ := hepoch
  have hacks : acks = lastAcks calls := by rw [← hepoch.acks_eq, after_acks]
  exact hacks ▸ hepoch

theorem lastAcks_append {before : List Call}
    (h : ∀ t ∈ ticks since, t.acks = lastAcks before) :
    lastAcks (before ++ since) = lastAcks before := by
  rw [lastAcks, ticks, List.filterMap_append, List.getLast?_append]
  cases hlast : (since.filterMap Call.tick?).getLast? with
  | none => rfl
  | some t => exact h t (List.mem_of_getLast? hlast)

/-- A call without a new ACK is one more since the last. -/
theorem LastAck.append (h : LastAck calls sent since)
    (hc : ∀ t, c.tick? = some t → t.acks = lastAcks calls) :
    LastAck (calls ++ [c]) sent (since ++ [c]) := by
  have hticks : ∀ {l : List Call} {a : Nat}, (∀ t ∈ ticks l, t.acks = a) → lastAcks calls = a →
      ∀ t ∈ ticks (l ++ [c]), t.acks = a := by
    intro l a hl ha t ht
    rw [ticks, List.filterMap_append] at ht
    rcases List.mem_append.mp ht with ht | ht
    · exact hl t ht
    · obtain ⟨d, hd, htick⟩ := List.mem_filterMap.mp ht
      rw [List.mem_singleton.mp hd] at htick
      rw [hc t htick, ha]
  cases h with
  | never h =>
    have hzero : lastAcks calls = 0 := @lastAcks_append calls [] h
    exact .never (hticks h hzero)
  | @tick before since t silence hcalls hnew hsince =>
    have hlast : lastAcks (before ++ [.observe t silence]) = t.acks := by
      simp [lastAcks, ticks, Call.tick?]
    have hacks : lastAcks calls = t.acks := by
      rw [hcalls, List.append_cons, lastAcks_append (by rwa [hlast]), hlast]
    exact .tick (by rw [hcalls, List.append_assoc, List.cons_append]) hnew (hticks hsince hacks)

theorem exists_lastAck (calls : List Call) : ∃ sent since, LastAck calls sent since := by
  induction calls using List.reverseRecOn with
  | nil => exact ⟨0, [], .never (by simp [ticks])⟩
  | append_singleton calls c ih =>
    obtain ⟨sent, since, h⟩ := ih
    by_cases hold : ∀ t, c.tick? = some t → t.acks = lastAcks calls
    · exact ⟨sent, since ++ [c], h.append hold⟩
    · cases c with
      | observe t silence =>
        have hnew : t.acks ≠ lastAcks calls := fun heq => hold (by
          intro u hu
          rw [← Option.some.inj hu, heq])
        exact ⟨t.sent, [], .tick rfl hnew (by simp [ticks])⟩
      | hopped now silence => exact absurd (by intro t ht; cases ht) hold

end After

/-- The watcher asks for a hop exactly when what was sent since the last new ACK has gone
unanswered for the silence, and the last hop is as far back as the backoff. Every history has a
last new ACK. -/
theorem observe_true_iff (calls : List Call) (t : Tick) (silence : Nat) :
    (∃ sent since, LastAck calls sent since) ∧
    ∀ sent since, LastAck calls sent since →
      (((PathWatch.after calls).observe t.now t.acks t.sent silence).2 = true ↔
        t.acks = lastAcks calls ∧ t.sent ≠ sent ∧
        (∃ f, (ticks since ++ [t]).find? (·.sent ≠ sent) = some f ∧ silence ≤ t.now - f.now) ∧
        ∀ hop, (hops calls).getLast? = some hop →
          backoffAfter ((hops since).map Prod.snd) ≤ t.now - hop.1) ∧
      ∀ s, (∀ hop ∈ hops since, hop.2 = s) →
        backoffAfter ((hops since).map Prod.snd) =
          if hops since = [] then 0
          else min (s * 2 ^ ((hops since).length - 1)) (30 * second) := by
  refine ⟨exists_lastAck calls, fun sent since hlast => ⟨?_, fun s hs => ?_⟩⟩
  · have h := hlast.epoch
    by_cases hacks : t.acks = lastAcks calls
    · by_cases hsent : t.sent = sent
      · simp [PathWatch.observe, h.acks_eq, h.sent_eq, hacks, hsent]
      · have hfirst : ∃ f, (ticks since ++ [t]).find? (·.sent ≠ sent) = some f ∧
            (PathWatch.after calls).unansweredSince.getD t.now = f.now := by
          rw [h.unanswered, List.find?_append]
          cases (ticks since).find? (·.sent ≠ sent) with
          | none => exact ⟨t, by simp [hsent], rfl⟩
          | some f => exact ⟨f, rfl, rfl⟩
        obtain ⟨f, hf, hsince⟩ := hfirst
        simp only [PathWatch.observe, h.acks_eq, h.sent_eq, h.backoff, after_lastHop, hacks, hsent,
          hsince, hf, ne_eq, not_true_eq_false, if_false, Bool.and_eq_true, decide_eq_true_eq,
          not_false_eq_true, true_and, Option.some.injEq, exists_eq_left']
        cases (hops calls).getLast? <;> simp
    · simp [PathWatch.observe, h.acks_eq, hacks]
  · have hs' : ∀ x ∈ (hops since).map Prod.snd, x = s := by
      intro x hx
      obtain ⟨hop, hmem, rfl⟩ := List.mem_map.mp hx
      exact hs hop hmem
    simpa using backoffAfter_const hs'

/-- The second hop of a silent path comes three seconds after the first. -/
theorem observe_true_after_hop :
    LastAck [.observe ⟨0, 1, 4⟩ (3 * second), .observe ⟨second, 1, 6⟩ (3 * second),
      .hopped (5 * second) (3 * second)] 4
      [.observe ⟨second, 1, 6⟩ (3 * second), .hopped (5 * second) (3 * second)] ∧
    ((PathWatch.after [.observe ⟨0, 1, 4⟩ (3 * second), .observe ⟨second, 1, 6⟩ (3 * second),
      .hopped (5 * second) (3 * second)]).observe (8 * second) 1 6 (3 * second)).2 = true := by
  have hlast : LastAck [.observe ⟨0, 1, 4⟩ (3 * second), .observe ⟨second, 1, 6⟩ (3 * second),
      .hopped (5 * second) (3 * second)] 4
      [.observe ⟨second, 1, 6⟩ (3 * second), .hopped (5 * second) (3 * second)] :=
    @LastAck.tick _ [] _ _ _ rfl (by decide) (by decide)
  refine ⟨hlast, ?_⟩
  have h := (observe_true_iff _ ⟨8 * second, 1, 6⟩ (3 * second)).2 4 _ hlast
  have hbackoff := h.2 (3 * second) (by decide)
  refine h.1.mpr ⟨rfl, by decide, ⟨⟨second, 1, 6⟩, by decide, by decide⟩, ?_⟩
  intro hop hhop
  rw [← Option.some.inj hhop, hbackoff]
  decide

end Hush.Roam
