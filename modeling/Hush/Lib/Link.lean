import Mathlib.Data.List.Infix
import Mathlib.Tactic.Common
import Mathlib.Tactic.Ring

/-!
# Links and copy tasks

A link carries items one way. A copy task reads one link into its buffer and writes the buffer to
the next link, up to the end of the first or a failure of either.
-/
namespace Hush.Lib

variable {α : Type*}

/-- `received` is what the reader has taken and `queue` what waits for it. The writer has `ended`
the link behind the queue; on a `broken` link either side may fail, and the writer also on one whose
reader has `stopped`. -/
structure Link (α : Type*) where
  received : List α
  queue : List α
  ended : Bool
  broken : Bool
  stopped : Bool
  deriving DecidableEq, Repr

namespace Link

def empty : Link α := ⟨[], [], false, false, false⟩

def sent (l : Link α) : List α := l.received ++ l.queue

def take (n : Nat) (l : Link α) : Link α :=
  { l with received := l.received ++ l.queue.take n, queue := l.queue.drop n }

def put (items : List α) (l : Link α) : Link α := { l with queue := l.queue ++ items }

/-- The writer goes. Only a link that still works carries its end. -/
def close (l : Link α) : Link α := { l with ended := l.ended || !(l.broken || l.stopped) }

def stop (l : Link α) : Link α := { l with stopped := true }

def cut (l : Link α) : Link α := { l with broken := true }

theorem received_prefix (l : Link α) : l.received <+: l.sent := List.prefix_append _ _

@[simp] theorem sent_take (n : Nat) (l : Link α) : (l.take n).sent = l.sent := by
  simp [sent, take]

@[simp] theorem sent_put (items : List α) (l : Link α) : (l.put items).sent = l.sent ++ items := by
  simp [sent, put]

/-- What the writer of a link, or an accident, does to it. -/
structure Fed (l l' : Link α) : Prop where
  received : l'.received = l.received
  queue : ∃ more, l'.queue = l.queue ++ more ∧ (l.ended = true → more = [])
  ended : l.ended = true → l'.ended = true
  broken : l.broken = true → l'.broken = true

/-- What the reader of a link, or an accident, does to it. -/
structure Taken (l l' : Link α) : Prop where
  sent : l'.sent = l.sent
  ended : l'.ended = l.ended
  broken : l.broken = true → l'.broken = true
  stopped : l.stopped = true → l'.stopped = true

variable {l : Link α} {items : List α}

theorem fed_put (h : l.ended = false) : l.Fed (l.put items) :=
  ⟨rfl, ⟨items, rfl, fun hended => absurd (h.symm.trans hended) Bool.false_ne_true⟩,
    fun hended => hended, fun hbroken => hbroken⟩

theorem Fed.of_queue {l l' : Link α} (hreceived : l'.received = l.received)
    (hqueue : l'.queue = l.queue) (hended : l.ended = true → l'.ended = true)
    (hbroken : l.broken = true → l'.broken = true) : l.Fed l' :=
  ⟨hreceived, ⟨[], by rw [hqueue, List.append_nil], fun _ => rfl⟩, hended, hbroken⟩

theorem Fed.refl (l : Link α) : l.Fed l := .of_queue rfl rfl id id

theorem fed_close : l.Fed l.close := .of_queue rfl rfl (fun h => by simp [close, h]) id

theorem fed_cut : l.Fed l.cut := .of_queue rfl rfl id fun _ => rfl

theorem Taken.refl (l : Link α) : l.Taken l := ⟨rfl, rfl, id, id⟩

theorem taken_take (n : Nat) : l.Taken (l.take n) := ⟨sent_take n l, rfl, id, id⟩

theorem taken_stop : l.Taken l.stop := ⟨rfl, rfl, id, fun _ => rfl⟩

theorem taken_cut : l.Taken l.cut := ⟨rfl, rfl, fun _ => rfl, id⟩

end Link

/-- A copy task: not yet started, with so much in its buffer and perhaps past the end of what it
reads, at its end, or failed with a buffer that it drops. -/
inductive Copier (α : Type*)
  | waiting
  | copying (held : List α) (atEnd : Bool)
  | finished
  | failed (dropped : List α)
  deriving DecidableEq, Repr

namespace Copier

/-- What is read and not written. -/
def held : Copier α → List α
  | copying held _ => held
  | failed dropped => dropped
  | _ => []

/-- What is still to be written. -/
def buffered : Copier α → List α
  | copying held _ => held
  | _ => []

/-- The task has returned. -/
def Done : Copier α → Prop
  | finished | failed _ => True
  | _ => False

def stage : Copier α → Nat
  | copying _ false => 2
  | copying _ true => 1
  | _ => 0

end Copier

structure Hop (α : Type*) where
  source : Link α
  copier : Copier α
  sink : Link α

namespace Hop

/-- One step of a copy with so large a buffer, to a link that holds so much. -/
inductive Step (size room : Nat) : Hop α → Hop α → Prop
  | reads {source sink : Link α} {held : List α} {n : Nat} (hpos : 0 < n)
      (hn : n ≤ source.queue.length) (hsize : held.length + n ≤ size) :
      Step size room ⟨source, .copying held false, sink⟩
        ⟨source.take n, .copying (held ++ source.queue.take n) false, sink⟩
  | readsEnd {source sink : Link α} {held : List α} (hqueue : source.queue = [])
      (hended : source.ended = true) :
      Step size room ⟨source, .copying held false, sink⟩ ⟨source, .copying held true, sink⟩
  | readFails {source sink : Link α} {held : List α} (hbroken : source.broken = true) :
      Step size room ⟨source, .copying held false, sink⟩ ⟨source.stop, .failed held, sink.close⟩
  | writes {source sink : Link α} {held : List α} {atEnd : Bool} {n : Nat} (hpos : 0 < n)
      (hn : n ≤ held.length) (hroom : sink.queue.length + n ≤ room) :
      Step size room ⟨source, .copying held atEnd, sink⟩
        ⟨source, .copying (held.drop n) atEnd, sink.put (held.take n)⟩
  | writeFails {source sink : Link α} {held : List α} {atEnd : Bool} (hheld : held ≠ [])
      (hsink : sink.broken = true ∨ sink.stopped = true) :
      Step size room ⟨source, .copying held atEnd, sink⟩
        ⟨source.stop, .failed held, sink.close⟩
  | finishes {source sink : Link α} :
      Step size room ⟨source, .copying [] true, sink⟩ ⟨source, .finished, sink.close⟩

/-- The copy started when `skip` was read from its source and `base` was in its sink. -/
structure Inv (skip base : List α) (h : Hop α) : Prop where
  moved : ∃ moved, h.source.received = skip ++ moved ∧
    h.sink.sent ++ h.copier.held = base ++ moved
  grown : base <+: h.sink.sent
  waiting : h.copier = .waiting → h.source.received = skip ∧ h.sink.sent = base
  atEnd : (∃ held, h.copier = .copying held true) ∨ h.copier = .finished →
    h.source.queue = [] ∧ h.source.ended = true
  ended : h.sink.ended = true → h.copier = .finished ∨ ∃ dropped, h.copier = .failed dropped
  finished : h.copier = .finished →
    h.sink.ended = true ∨ h.sink.broken = true ∨ h.sink.stopped = true
  failed : ∀ dropped, h.copier = .failed dropped →
    h.source.broken = true ∨ h.sink.broken = true ∨ h.sink.stopped = true

variable {size room : Nat} {h h' : Hop α} {skip base : List α}

theorem Inv.start {source sink : Link α} (hended : sink.ended = false) :
    Inv source.received sink.sent ⟨source, .copying [] false, sink⟩ :=
  ⟨⟨[], by simp, by simp [Copier.held]⟩, List.prefix_refl _, by simp, by simp, by simp [hended],
    by simp, by simp⟩

theorem Inv.idle {source sink : Link α} (hended : sink.ended = false) :
    Inv source.received sink.sent ⟨source, .waiting, sink⟩ :=
  ⟨⟨[], by simp, by simp [Copier.held]⟩, List.prefix_refl _, fun _ => ⟨rfl, rfl⟩, by simp,
    by simp [hended], by simp, by simp⟩

theorem Inv.open_of_waiting (hinv : h.Inv skip base) (hwait : h.copier = .waiting) :
    h.sink.ended = false := by
  refine Bool.eq_false_iff.mpr fun hended => ?_
  rcases hinv.ended hended with hfin | ⟨dropped, hfail⟩
  · rw [hwait] at hfin
    cases hfin
  · rw [hwait] at hfail
    cases hfail

theorem Inv.started (hinv : h.Inv skip base) (hwait : h.copier = .waiting) :
    Inv skip base ⟨h.source, .copying [] false, h.sink⟩ := by
  obtain ⟨rfl, rfl⟩ := hinv.waiting hwait
  exact .start (hinv.open_of_waiting hwait)

/-- A copy that is given up before it starts. -/
theorem Inv.abandoned {source sink : Link α} (hinv : h.Inv skip base) (hwait : h.copier = .waiting)
    (hreceived : source.received = h.source.received) (hsent : sink.sent = h.sink.sent)
    (hcause : source.broken = true ∨ sink.broken = true ∨ sink.stopped = true) :
    Inv skip base ⟨source, .failed [], sink⟩ := by
  obtain ⟨rfl, rfl⟩ := hinv.waiting hwait
  exact ⟨⟨[], by simp [hreceived], by simp [hsent, Copier.held]⟩, by rw [hsent], by simp, by simp,
    by simp, by simp, fun _ _ => hcause⟩

/-- What others do at both ends of a copy leaves the invariant. -/
theorem Inv.around {source sink : Link α} (hinv : h.Inv skip base) (hsource : h.source.Fed source)
    (hsink : h.sink.Taken sink) : Inv skip base ⟨source, h.copier, sink⟩ where
  moved := by
    obtain ⟨moved, hreceived, hsent⟩ := hinv.moved
    exact ⟨moved, hsource.received.trans hreceived, by rw [hsink.sent, hsent]⟩
  grown := hsink.sent ▸ hinv.grown
  waiting hwait := by
    obtain ⟨hreceived, hsent⟩ := hinv.waiting hwait
    exact ⟨hsource.received.trans hreceived, hsink.sent.trans hsent⟩
  atEnd hat := by
    obtain ⟨hqueue, hended⟩ := hinv.atEnd hat
    obtain ⟨more, hmore, hnone⟩ := hsource.queue
    exact ⟨by rw [hmore, hqueue, hnone hended, List.append_nil], hsource.ended hended⟩
  ended hended := hinv.ended (hsink.ended ▸ hended)
  finished hfin := by
    rcases hinv.finished hfin with hended | hbroken | hstopped
    · exact Or.inl (hsink.ended.trans hended)
    · exact Or.inr (Or.inl (hsink.broken hbroken))
    · exact Or.inr (Or.inr (hsink.stopped hstopped))
  failed dropped hfail := by
    rcases hinv.failed dropped hfail with hbroken | hbroken | hstopped
    · exact Or.inl (hsource.broken hbroken)
    · exact Or.inr (Or.inl (hsink.broken hbroken))
    · exact Or.inr (Or.inr (hsink.stopped hstopped))

/-- A copy that fails drops its buffer, and ends or abandons its sink. -/
theorem Inv.fail {source sink : Link α} {held : List α} {atEnd : Bool}
    (hinv : Inv skip base ⟨source, .copying held atEnd, sink⟩)
    (hcause : source.broken = true ∨ sink.broken = true ∨ sink.stopped = true) :
    Inv skip base ⟨source.stop, .failed held, sink.close⟩ :=
  ⟨hinv.moved, hinv.grown, by simp, by simp, by simp, by simp, fun _ _ => hcause⟩

theorem Step.inv (hstep : Step size room h h') (hinv : h.Inv skip base) : h'.Inv skip base := by
  obtain ⟨moved, hreceived, hsent⟩ := hinv.moved
  have hopen {held : List α} {atEnd : Bool} (hcopier : h.copier = .copying held atEnd) :
      h.sink.ended ≠ true := by
    intro hended
    rcases hinv.ended hended with hfin | ⟨dropped, hfail⟩
    · rw [hcopier] at hfin
      cases hfin
    · rw [hcopier] at hfail
      cases hfail
  cases hstep with
  | @reads source sink held n hpos hn hsize =>
    refine ⟨⟨moved ++ source.queue.take n, ?_, ?_⟩, hinv.grown, by simp, by simp,
      fun hended => absurd hended (hopen rfl), by simp, by simp⟩
    · change source.received ++ _ = _
      rw [show source.received = skip ++ moved from hreceived, List.append_assoc]
    · change sink.sent ++ (held ++ _) = _
      rw [← List.append_assoc, show sink.sent ++ held = base ++ moved from hsent,
        List.append_assoc]
  | @readsEnd source sink held hqueue hended =>
    exact ⟨⟨moved, hreceived, hsent⟩, hinv.grown, by simp, fun _ => ⟨hqueue, hended⟩,
      fun hended => absurd hended (hopen rfl), by simp, by simp⟩
  | readFails hbroken => exact hinv.fail (Or.inl hbroken)
  | @writes source sink held atEnd n hpos hn hroom =>
    refine ⟨⟨moved, hreceived, ?_⟩, ?_, by simp, ?_, fun hended => absurd hended (hopen rfl),
      by simp, by simp⟩
    · change (sink.put (held.take n)).sent ++ held.drop n = _
      rw [Link.sent_put, List.append_assoc, List.take_append_drop]
      exact hsent
    · change base <+: (sink.put (held.take n)).sent
      rw [Link.sent_put]
      exact hinv.grown.trans (List.prefix_append _ _)
    · rintro (⟨held', hcopier⟩ | hcopier)
      · obtain ⟨-, rfl⟩ := Copier.copying.inj hcopier
        exact hinv.atEnd (Or.inl ⟨held, rfl⟩)
      · cases hcopier
  | writeFails hheld hsink => exact hinv.fail (Or.inr hsink)
  | @finishes source sink =>
    refine ⟨⟨moved, hreceived, hsent⟩, hinv.grown, by simp,
      fun _ => hinv.atEnd (Or.inl ⟨[], rfl⟩), by simp, fun _ => ?_, by simp⟩
    cases hbroken : sink.broken <;> cases hstopped : sink.stopped <;>
      simp [Link.close, hbroken, hstopped]

theorem Step.taken (hstep : Step size room h h') : h.source.Taken h'.source := by
  cases hstep with
  | reads => exact Link.taken_take _
  | readFails | writeFails => exact Link.taken_stop
  | readsEnd | writes | finishes => exact Link.Taken.refl _

theorem Step.fed (hstep : Step size room h h') (hinv : h.Inv skip base) : h.sink.Fed h'.sink := by
  cases hstep with
  | reads | readsEnd => exact Link.Fed.refl _
  | readFails | writeFails | finishes => exact Link.fed_close
  | writes =>
    refine Link.fed_put (Bool.eq_false_iff.mpr fun hended => ?_)
    rcases hinv.ended hended with hfin | ⟨dropped, hfail⟩
    · cases hfin
    · cases hfail

/-- What a copy has passed on is what its source has brought, up to where it stands. -/
theorem Inv.passed (hinv : h.Inv skip base) :
    ∃ passed, h.sink.sent = base ++ passed ∧ skip ++ passed <+: h.source.received := by
  obtain ⟨moved, hreceived, hsent⟩ := hinv.moved
  obtain ⟨passed, hpassed⟩ := hinv.grown
  rw [← hpassed, List.append_assoc] at hsent
  have hmoved := List.append_cancel_left hsent
  refine ⟨passed, hpassed.symm, h.copier.held, ?_⟩
  rw [List.append_assoc, hmoved, hreceived]

/-- A copy that ends its sink without a failure has passed on all that its source brought. -/
theorem Inv.whole (hinv : h.Inv skip base) (hended : h.sink.ended = true)
    (hsource : h.source.broken = false) (hbroken : h.sink.broken = false)
    (hstopped : h.sink.stopped = false) :
    h.source.ended = true ∧
      ∃ moved, h.source.sent = skip ++ moved ∧ h.sink.sent = base ++ moved := by
  rcases hinv.ended hended with hfin | ⟨dropped, hfail⟩
  · obtain ⟨moved, hreceived, hsent⟩ := hinv.moved
    obtain ⟨hqueue, hend⟩ := hinv.atEnd (Or.inr hfin)
    rw [hfin] at hsent
    change h.sink.sent ++ [] = _ at hsent
    rw [List.append_nil] at hsent
    exact ⟨hend, moved, by rw [Link.sent, hqueue, List.append_nil, hreceived], hsent⟩
  · rcases hinv.failed dropped hfail with hcause | hcause | hcause <;> simp_all

/-- A copy that can do nothing, with room in its sink and no failure, has passed on everything. -/
theorem Inv.drained (hinv : h.Inv skip base) (hquiet : ∀ h', ¬ Step size room h h')
    (hstarted : h.copier ≠ .waiting) (hsize : 0 < size) (hroom : h.sink.queue.length < room)
    (hsource : h.source.broken = false) (hbroken : h.sink.broken = false)
    (hstopped : h.sink.stopped = false) :
    h.source.queue = [] ∧ h.copier.held = [] ∧
      (h.source.ended = true → h.sink.ended = true) := by
  obtain ⟨source, copier, sink⟩ := h
  cases copier with
  | waiting => exact absurd rfl hstarted
  | copying held atEnd =>
    -- with something in the buffer there is a write, and past the end the copy finishes
    have hheld : held = [] := by
      by_contra hne
      have hpos := List.length_pos_of_ne_nil hne
      exact hquiet _ (.writes Nat.one_pos hpos hroom)
    subst hheld
    cases atEnd with
    | true => exact absurd .finishes (hquiet _)
    | false =>
      have hqueue : source.queue = [] := by
        by_contra hne
        have hpos := List.length_pos_of_ne_nil hne
        exact hquiet _ (.reads Nat.one_pos hpos (by simpa using Nat.one_le_of_lt hsize))
      exact ⟨hqueue, rfl, fun hended => absurd (.readsEnd hqueue hended) (hquiet _)⟩
  | finished =>
    obtain ⟨hqueue, -⟩ := hinv.atEnd (Or.inr rfl)
    refine ⟨hqueue, rfl, fun _ => ?_⟩
    rcases hinv.finished rfl with hended | hcause | hcause
    · exact hended
    · exact absurd (hbroken.symm.trans hcause) Bool.false_ne_true
    · exact absurd (hstopped.symm.trans hcause) Bool.false_ne_true
  | failed dropped =>
    rcases hinv.failed dropped rfl with hcause | hcause | hcause <;> simp_all

/-- A step sets no mark of a failure, unless one is there. -/
theorem Step.calm (hstep : Step size room h h') :
    h'.source.broken = h.source.broken ∧ h'.sink.broken = h.sink.broken ∧
      h'.sink.stopped = h.sink.stopped ∧
      (h.source.broken = false → h.sink.broken = false → h.sink.stopped = false →
        h'.source.stopped = h.source.stopped) := by
  cases hstep with
  | reads | readsEnd | writes | finishes => exact ⟨rfl, rfl, rfl, fun _ _ _ => rfl⟩
  | readFails hbroken =>
    exact ⟨rfl, rfl, rfl, fun hcalm => absurd (hcalm.symm.trans hbroken) Bool.false_ne_true⟩
  | writeFails _ hsink =>
    refine ⟨rfl, rfl, rfl, fun _ hbroken hstopped => ?_⟩
    rcases hsink with hcause | hcause
    · exact absurd (hbroken.symm.trans hcause) Bool.false_ne_true
    · exact absurd (hstopped.symm.trans hcause) Bool.false_ne_true

theorem Step.copying (hstep : Step size room h h') :
    ∃ held atEnd, h.copier = .copying held atEnd := by
  cases hstep <;> exact ⟨_, _, rfl⟩

theorem Step.copier_ne (hstep : Step size room h h') : h'.copier ≠ h.copier := by
  cases hstep with
  | @reads source sink held n hpos hn _ =>
    intro heq
    have hlen := congrArg List.length (Copier.copying.inj heq).1
    simp only [List.length_append, List.length_take] at hlen
    omega
  | @writes source sink held atEnd n hpos hn _ =>
    intro heq
    have hlen := congrArg List.length (Copier.copying.inj heq).1
    simp only [List.length_drop] at hlen
    omega
  | readsEnd | readFails | writeFails | finishes => simp

theorem Step.received_sink (hstep : Step size room h h') : h'.sink.received = h.sink.received := by
  cases hstep <;> rfl

theorem Step.not_waiting (hstep : Step size room h h') : h'.copier ≠ .waiting := by
  cases hstep <;> simp

/-- What is waiting between two copies, and inside one, stays within its bounds. -/
theorem Step.bounded (hstep : Step size room h h') (hroom : h.sink.queue.length ≤ room)
    (hsize : h.copier.held.length ≤ size) :
    h'.sink.queue.length ≤ room ∧ h'.copier.held.length ≤ size ∧
      h'.source.queue.length ≤ h.source.queue.length := by
  cases hstep with
  | @reads source sink held n _ hn hfits =>
    refine ⟨hroom, ?_, ?_⟩
    · simp only [Copier.held, List.length_append, List.length_take]
      omega
    · simp [Link.take]
  | readsEnd | readFails | writeFails => exact ⟨hroom, hsize, Nat.le_refl _⟩
  | @writes source sink held atEnd n _ hn hfits =>
    refine ⟨?_, ?_, Nat.le_refl _⟩
    · simp only [Link.put, List.length_append, List.length_take]
      omega
    · simp only [Copier.held, List.length_drop] at hsize ⊢
      omega
  | finishes => exact ⟨hroom, Nat.zero_le _, Nat.le_refl _⟩

/-- An item weighs less the further it has come. -/
def weight (w : Nat) (h : Hop α) : Nat :=
  (w + 2) * h.source.queue.length + (w + 1) * h.copier.buffered.length +
    w * h.sink.queue.length + h.copier.stage

theorem Step.weight_lt (hstep : Step size room h h') (w : Nat) : h'.weight w < h.weight w := by
  cases hstep with
  | @reads source sink held n hpos hn _ =>
    obtain ⟨k, hk⟩ := Nat.exists_eq_add_of_le hn
    simp only [weight, Copier.buffered, Copier.stage, Link.take, List.length_append,
      List.length_take, List.length_drop, hk, Nat.add_sub_cancel_left,
      Nat.min_eq_left (Nat.le_add_right n k)]
    ring_nf
    omega
  | readsEnd => exact Nat.lt_succ_self _
  | @readFails source sink held _ =>
    simp only [weight, Copier.buffered, Copier.stage, Link.stop, Link.close, List.length_nil]
    have := Nat.zero_le ((w + 1) * held.length)
    omega
  | @writes source sink held atEnd n hpos hn _ =>
    obtain ⟨k, hk⟩ := Nat.exists_eq_add_of_le hn
    have hstage : (Copier.copying (held.drop n) atEnd).stage =
        (Copier.copying held atEnd).stage := by
      cases atEnd <;> rfl
    simp only [weight, hstage, Copier.buffered, Link.put, List.length_append, List.length_take,
      List.length_drop, hk, Nat.add_sub_cancel_left, Nat.min_eq_left (Nat.le_add_right n k)]
    ring_nf
    omega
  | @writeFails source sink held atEnd hheld _ =>
    have hpos := List.length_pos_of_ne_nil hheld
    have hone : 0 < (w + 1) * held.length := Nat.mul_pos (Nat.succ_pos w) hpos
    simp only [weight, Copier.buffered, Copier.stage, Link.stop, Link.close, List.length_nil]
    omega
  | finishes => exact Nat.lt_succ_self _

end Hop

end Hush.Lib
