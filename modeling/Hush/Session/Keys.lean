import Hush.Session.EscapeFilter
import Mathlib.Data.List.Induction

/-! The disconnect escape as a pattern over the keys that the filter has seen. -/
namespace Hush.Session
open Hush.Lib

/-- A key that `next_escape_key` yields, and its bytes. -/
abbrev Key := EscapeKey × Bytes

def Key.bytes (keys : List Key) : Bytes := (keys.map Prod.snd).flatten

/-- The key that an iteration of `push` reads. -/
def Pushing.key (s : Pushing) : List Key :=
  if s.rest = [] then []
  else match nextEscapeKey s.rest with
    | none => []
    | some (len, key) => [(key, s.rest.take len)]

/-- `push` of an enabled filter reads these keys and returns this. -/
def EscapeFilter.Reads (f : EscapeFilter) (input output : Bytes) (keys : List Key) (r : Pushed) :
    Prop :=
  f.enabled = true ∧
  Loop.Emits pushStep Pushing.key ⟨{ f with carried := [] }, output, f.carried ++ input⟩ keys r

theorem pushes_iff_reads {f : EscapeFilter} {input output : Bytes} {r : Pushed}
    (henabled : f.enabled = true) :
    f.Pushes input output r ↔ ∃ keys, f.Reads input output keys r := by
  rw [EscapeFilter.Pushes, if_pos henabled, Loop.returns_iff_emits Pushing.key]
  simp [EscapeFilter.Reads, henabled]

/-- The chunks are pushed one after the other until a push fires. -/
inductive Run : EscapeFilter → Bytes → List Bytes → List Key → Pushed → Prop
  | stop {f : EscapeFilter} {output : Bytes} : Run f output [] [] ⟨false, f, output⟩
  | fire {f : EscapeFilter} {output chunk : Bytes} {chunks : List Bytes} {keys : List Key}
      {r : Pushed} (h : f.Reads chunk output keys r) (hfired : r.fired = true) :
      Run f output (chunk :: chunks) keys r
  | goOn {f : EscapeFilter} {output chunk : Bytes} {chunks : List Bytes} {keys more : List Key}
      {r r' : Pushed} (h : f.Reads chunk output keys r) (hfired : r.fired = false)
      (hrest : Run r.filter r.output chunks more r') :
      Run f output (chunk :: chunks) (keys ++ more) r'

/-- The last key press before is an Enter, or there is none. -/
def LineStart (keys : List Key) : Prop :=
  ∀ k, (keys.filter (·.1 ≠ .ignore)).getLast? = some k → k.1 = .enter

/-- The last key press is a `~` at line start, after `front`. -/
def Pending (keys front : List Key) : Prop :=
  ∃ t mid, keys = front ++ t :: mid ∧ t.1 = .tilde ∧ LineStart front ∧ ∀ k ∈ mid, k.1 = .ignore

/-- The key before `rest` is the `.` of an escape whose `~` comes after `front`. -/
def Escape (keys front rest : List Key) : Prop :=
  ∃ pre d, keys = pre ++ d :: rest ∧ Pending pre front ∧ d.1 = .dot

section Patterns

variable {keys front front' rest : List Key} {k : Key}

theorem Key.bytes_append (keys more : List Key) :
    Key.bytes (keys ++ more) = Key.bytes keys ++ Key.bytes more := by
  simp [Key.bytes]

theorem Key.bytes_singleton (k : Key) : Key.bytes [k] = k.2 := by
  simp [Key.bytes]

theorem lineStart_append :
    LineStart (keys ++ [k]) ↔ if k.1 = .ignore then LineStart keys else k.1 = .enter := by
  by_cases hk : k.1 = .ignore
  · simp [LineStart, List.filter_append, hk]
  · simp [LineStart, List.filter_append, hk]

theorem pending_append :
    Pending (keys ++ [k]) front ↔
      (k.1 = .ignore ∧ Pending keys front) ∨ (k.1 = .tilde ∧ LineStart keys ∧ front = keys) := by
  constructor
  · rintro ⟨t, mid, heq, ht, hstart, hmid⟩
    rcases List.eq_nil_or_concat' mid with rfl | ⟨mid, m, rfl⟩
    · obtain ⟨rfl, rfl⟩ := List.append_singleton_inj.mp heq
      exact Or.inr ⟨ht, hstart, rfl⟩
    · rw [← List.cons_append, ← List.append_assoc] at heq
      obtain ⟨rfl, rfl⟩ := List.append_singleton_inj.mp heq
      exact Or.inl ⟨hmid k (by simp), t, mid, rfl, ht, hstart, fun m hm => hmid m (by simp [hm])⟩
  · rintro (⟨hk, t, mid, rfl, ht, hstart, hmid⟩ | ⟨hk, hstart, rfl⟩)
    · refine ⟨t, mid ++ [k], by simp, ht, hstart, List.forall_mem_append.mpr ⟨hmid, ?_⟩⟩
      simpa using hk
    · exact ⟨k, [], rfl, hk, hstart, by simp⟩

theorem Pending.unique (h : Pending keys front) (h' : Pending keys front') : front = front' := by
  induction keys using List.reverseRecOn with
  | nil =>
    obtain ⟨t, mid, heq, -⟩ := h
    simp at heq
  | append_singleton keys k ih =>
    rw [pending_append] at h h'
    rcases h with ⟨hk, h⟩ | ⟨hk, -, rfl⟩
    · rcases h' with ⟨-, h'⟩ | ⟨hk', -⟩
      · exact ih h h'
      · rw [hk] at hk'
        cases hk'
    · rcases h' with ⟨hk', -⟩ | ⟨-, -, rfl⟩
      · rw [hk] at hk'
        cases hk'
      · rfl

theorem Pending.not_lineStart (h : Pending keys front) : ¬ LineStart keys := by
  induction keys using List.reverseRecOn with
  | nil =>
    obtain ⟨t, mid, heq, -⟩ := h
    simp at heq
  | append_singleton keys k ih =>
    rw [lineStart_append]
    rcases pending_append.mp h with ⟨hk, h⟩ | ⟨hk, -⟩
    · rw [if_pos hk]
      exact ih h
    · simp [hk]

theorem escape_append :
    Escape (keys ++ [k]) front rest ↔
      (∃ more, rest = more ++ [k] ∧ Escape keys front more) ∨
      (rest = [] ∧ k.1 = .dot ∧ Pending keys front) := by
  constructor
  · rintro ⟨pre, d, heq, hpending, hd⟩
    rcases List.eq_nil_or_concat' rest with rfl | ⟨rest, m, rfl⟩
    · obtain ⟨rfl, rfl⟩ := List.append_singleton_inj.mp heq
      exact Or.inr ⟨rfl, hd, hpending⟩
    · rw [← List.cons_append, ← List.append_assoc] at heq
      obtain ⟨rfl, rfl⟩ := List.append_singleton_inj.mp heq
      exact Or.inl ⟨rest, rfl, pre, d, rfl, hpending, hd⟩
  · rintro (⟨more, rfl, pre, d, rfl, hpending, hd⟩ | ⟨rfl, hd, hpending⟩)
    · exact ⟨pre, d, by simp, hpending, hd⟩
    · exact ⟨keys, k, rfl, hpending, hd⟩

end Patterns

/-- What `at_line_start`, `held` and the output say about the keys so far. -/
inductive Follows (keys : List Key) (atLineStart : Bool) (held output : Bytes) : Prop
  | passing (hheld : held = []) (hnone : ∀ front, ¬ Pending keys front)
      (hline : atLineStart = true ↔ LineStart keys) (hout : output = Key.bytes keys)
  | holding {front : List Key} (hheld : held ≠ []) (hpending : Pending keys front)
      (hkept : output ++ held = Key.bytes keys) (hout : output = Key.bytes front)

section Machine

variable {keys : List Key} {f : EscapeFilter} {output : Bytes} {k : Key}

/-- A key that is passed on after these, with nothing held. -/
theorem Follows.pass (hheld : f.held = []) (hnone : k.1 = .ignore → ∀ front, ¬ Pending keys front)
    (hline : f.atLineStart = true ↔ LineStart keys) (hout : output = Key.bytes keys)
    (hk : k.2 ≠ []) :
    Follows (keys ++ [k]) (f.pass k.1 k.2 output).filter.atLineStart
      (f.pass k.1 k.2 output).filter.held (f.pass k.1 k.2 output).output := by
  have hbytes : output ++ k.2 = Key.bytes (keys ++ [k]) := by
    rw [Key.bytes_append, Key.bytes_singleton, hout]
  unfold EscapeFilter.pass
  split
  · next h =>
    refine .holding (by simp [hk]) (pending_append.mpr (Or.inr ⟨h.1, hline.mp h.2, rfl⟩)) ?_ hout
    rw [hheld, List.nil_append, hbytes]
  · next h =>
    split
    · next hignore =>
      refine .passing hheld (fun front hpending => ?_) ?_ hbytes
      · rcases pending_append.mp hpending with ⟨-, hpending⟩ | ⟨htilde, -⟩
        · exact hnone hignore front hpending
        · rw [hignore] at htilde
          cases htilde
      · rw [lineStart_append, if_pos hignore]
        exact hline
    · next hignore =>
      refine .passing hheld (fun front hpending => ?_) ?_ hbytes
      · rcases pending_append.mp hpending with ⟨hk, -⟩ | ⟨htilde, hstart, -⟩
        · exact hignore hk
        · exact h ⟨htilde, hline.mpr hstart⟩
      · rw [lineStart_append, if_neg hignore]
        simp

/-- A key either fires, as the `.` after a pending `~`, or is followed. -/
theorem Follows.handle (h : Follows keys f.atLineStart f.held output) (hk : k.2 ≠ []) :
    ((f.handle k.1 k.2 output).fired = true ∧ k.1 = .dot ∧
      ∃ front, Pending keys front ∧ (f.handle k.1 k.2 output).output = Key.bytes front) ∨
    ((f.handle k.1 k.2 output).fired = false ∧ (k.1 = .dot → ∀ front, ¬ Pending keys front) ∧
      Follows (keys ++ [k]) (f.handle k.1 k.2 output).filter.atLineStart
        (f.handle k.1 k.2 output).filter.held (f.handle k.1 k.2 output).output) := by
  cases h with
  | passing hheld hnone hline hout =>
    have hpass : f.handle k.1 k.2 output = f.pass k.1 k.2 output := by
      simp [EscapeFilter.handle, hheld]
    rw [hpass]
    refine Or.inr ⟨EscapeFilter.pass_fired .., fun _ => hnone, ?_⟩
    exact Follows.pass hheld (fun _ => hnone) hline hout hk
  | @holding front hheld hpending hkept hout =>
    obtain ⟨key, bytes⟩ := k
    cases key with
    | dot =>
      have heq : f.handle .dot bytes output = ⟨true, f, output⟩ := by
        simp [EscapeFilter.handle, hheld]
      rw [heq]
      exact Or.inl ⟨rfl, rfl, front, hpending, hout⟩
    | ignore =>
      have heq : f.handle .ignore bytes output =
          ⟨false, { f with held := f.held ++ bytes }, output⟩ := by
        simp [EscapeFilter.handle, hheld]
      rw [heq]
      refine Or.inr ⟨rfl, by simp, .holding (by simp [hheld]) ?_ ?_ hout⟩
      · exact pending_append.mpr (Or.inl ⟨rfl, hpending⟩)
      · rw [← List.append_assoc, hkept, Key.bytes_append, Key.bytes_singleton]
    | enter | tilde | other =>
      simp only [EscapeFilter.handle, if_pos hheld]
      refine Or.inr ⟨EscapeFilter.pass_fired .., by simp, ?_⟩
      -- the held keys are out, and their `~` is the last key press
      refine Follows.pass rfl (by simp) ?_ hkept hk
      simpa using hpending.not_lineStart

end Machine

/-- How a run ends that has read these keys: at the `.` of its first escape, or without any. -/
inductive Ends (keys : List Key) (r : Pushed) : Prop
  | fired {pre front : List Key} {d : Key} (hfired : r.fired = true) (hkeys : keys = pre ++ [d])
      (hnone : ∀ front rest, ¬ Escape pre front rest) (hpending : Pending pre front)
      (hdot : d.1 = .dot) (hout : r.output = Key.bytes front)
  | quiet (hfired : r.fired = false) (hnone : ∀ front rest, ¬ Escape keys front rest)
      (h : Follows keys r.filter.atLineStart r.filter.held r.output)

theorem not_escape_append {keys : List Key} {k : Key}
    (hnone : ∀ front rest, ¬ Escape keys front rest)
    (hdot : k.1 = .dot → ∀ front, ¬ Pending keys front) (front rest : List Key) :
    ¬ Escape (keys ++ [k]) front rest := by
  intro h
  rcases escape_append.mp h with ⟨more, -, h⟩ | ⟨-, hk, hpending⟩
  · exact hnone front more h
  · exact hdot hk front hpending

/-- What an iteration of `push` reads and does. -/
theorem pushStep_cases (s : Pushing) :
    (s.key = [] ∧ ∃ carried,
      pushStep s = .done ⟨false, { s.filter with carried }, s.output⟩) ∨
    ∃ k rest, s.key = [k] ∧ k.2 ≠ [] ∧
      pushStep s =
        if (s.filter.handle k.1 k.2 s.output).fired then .done (s.filter.handle k.1 k.2 s.output)
        else .next ⟨(s.filter.handle k.1 k.2 s.output).filter,
          (s.filter.handle k.1 k.2 s.output).output, rest⟩ := by
  by_cases hrest : s.rest = []
  · refine Or.inl ⟨by simp [Pushing.key, hrest], s.filter.carried, ?_⟩
    rw [pushStep, if_pos hrest]
  · cases hkey : nextEscapeKey s.rest with
    | none =>
      refine Or.inl ⟨by simp [Pushing.key, hkey], s.filter.carried ++ s.rest, ?_⟩
      rw [pushStep, if_neg hrest, hkey]
    | some p =>
      obtain ⟨len, key⟩ := p
      obtain ⟨hpos, hle⟩ := nextEscapeKey_bounds hkey hrest
      refine Or.inr ⟨(key, s.rest.take len), s.rest.drop len, ?_, ?_, ?_⟩
      · simp [Pushing.key, hrest, hkey]
      · simp only [ne_eq, List.take_eq_nil_iff, hrest, or_false]
        omega
      · rw [pushStep, if_neg hrest, hkey]

theorem Ends.of_emits {s : Pushing} {keys more : List Key} {r : Pushed}
    (h : Loop.Emits pushStep Pushing.key s more r)
    (hnone : ∀ front rest, ¬ Escape keys front rest)
    (hs : Follows keys s.filter.atLineStart s.filter.held s.output) : Ends (keys ++ more) r := by
  induction h generalizing keys with
  | @done s r h =>
    rcases pushStep_cases s with ⟨hkey, carried, hstep⟩ | ⟨k, rest, hkey, hk, hstep⟩
    · obtain rfl := Outcome.done.inj (h.symm.trans hstep)
      rw [hkey, List.append_nil]
      exact .quiet rfl hnone hs
    · rw [hkey]
      rcases hs.handle hk with ⟨hfired, hdot, front, hpending, hout⟩ | ⟨hfired, -⟩
      · rw [if_pos hfired] at hstep
        obtain rfl := Outcome.done.inj (h.symm.trans hstep)
        exact .fired hfired rfl hnone hpending hdot hout
      · rw [hfired, h] at hstep
        cases hstep
  | @next s t more r h _ ih =>
    rcases pushStep_cases s with ⟨-, carried, hstep⟩ | ⟨k, rest, hkey, hk, hstep⟩
    · rw [h] at hstep
      cases hstep
    · rcases hs.handle hk with ⟨hfired, -⟩ | ⟨hfired, hdot, hfollows⟩
      · rw [hfired, h] at hstep
        cases hstep
      · rw [hfired] at hstep
        obtain rfl := Outcome.next.inj (h.symm.trans hstep)
        rw [hkey, ← List.append_assoc]
        exact ih (not_escape_append hnone hdot) hfollows

theorem Ends.of_run {f : EscapeFilter} {output : Bytes} {chunks : List Bytes}
    {keys more : List Key} {r : Pushed} (h : Run f output chunks more r)
    (hnone : ∀ front rest, ¬ Escape keys front rest)
    (hf : Follows keys f.atLineStart f.held output) : Ends (keys ++ more) r := by
  induction h generalizing keys with
  | stop =>
    rw [List.append_nil]
    exact .quiet rfl hnone hf
  | fire h _ => exact .of_emits h.2 hnone hf
  | goOn h hfired _ ih =>
    rw [← List.append_assoc]
    cases Ends.of_emits h.2 hnone hf with
    | fired hfired' =>
      rw [hfired] at hfired'
      cases hfired'
    | quiet _ hnone hf => exact ih hnone hf

/-- Every sequence of chunks can be pushed. -/
theorem exists_run (chunks : List Bytes) {f : EscapeFilter} (henabled : f.enabled = true)
    (hheld : f.HoldsTilde) (output : Bytes) : ∃ keys r, Run f output chunks keys r := by
  induction chunks generalizing f output with
  | nil => exact ⟨_, _, .stop⟩
  | cons chunk chunks ih =>
    obtain ⟨r, hr⟩ := f.exists_pushes chunk output
    obtain ⟨keys, hkeys⟩ := (pushes_iff_reads henabled).mp hr
    cases hfired : r.fired with
    | true => exact ⟨_, _, .fire hkeys hfired⟩
    | false =>
      obtain ⟨henabled', hheld', -⟩ := hr.conserves henabled hheld
      obtain ⟨more, r', hrest⟩ := ih henabled' hheld' r.output
      exact ⟨_, _, .goOn hkeys hfired hrest⟩

/-- The filter fires exactly on `<Enter>~.`: at the first `.` that ends such keys, with the bytes
of the keys before the `~` in the output. -/
theorem disconnect_iff (chunks : List Bytes) :
    (∃ keys r, Run (.new true) [] chunks keys r) ∧
    ∀ keys r, Run (.new true) [] chunks keys r →
      (r.fired = true ↔ ∃ front rest, Escape keys front rest) ∧
      ∀ front rest, Escape keys front rest → rest = [] ∧ r.output = Key.bytes front := by
  refine ⟨exists_run chunks rfl (Or.inl rfl) [], fun keys r h => ?_⟩
  have hnone : ∀ front rest, ¬ Escape [] front rest := by
    rintro front rest ⟨pre, d, heq, -⟩
    simp at heq
  have hstart : Follows [] true [] [] := by
    refine .passing rfl ?_ (by simp [LineStart]) rfl
    rintro front ⟨t, mid, heq, -⟩
    simp at heq
  cases Ends.of_run h hnone hstart with
  | @fired pre front d hfired hkeys hnone hpending hdot hout =>
    rw [List.nil_append] at hkeys
    refine ⟨iff_of_true hfired ⟨front, [], pre, d, hkeys, hpending, hdot⟩, ?_⟩
    intro front' rest hescape
    rw [hkeys] at hescape
    rcases escape_append.mp hescape with ⟨more, -, hescape⟩ | ⟨rfl, -, hpending'⟩
    · exact absurd hescape (hnone front' more)
    · exact ⟨rfl, hpending.unique hpending' ▸ hout⟩
  | quiet hfired hnone _ =>
    rw [List.nil_append] at hnone
    refine ⟨iff_of_false (by simp [hfired]) ?_, fun front rest h => absurd h (hnone front rest)⟩
    rintro ⟨front, rest, h⟩
    exact hnone front rest h

/-- Enter, `~` and `.` in reads of their own. -/
theorem disconnect_typed :
    ∃ r, Run (.new true) [] [[0x0d], [0x7e], [0x2e]]
      [(.enter, [0x0d]), (.tilde, [0x7e]), (.dot, [0x2e])] r ∧
      r.fired = true ∧ r.output = [0x0d] := by
  have henter : (EscapeFilter.new true).Reads [0x0d] [] [(.enter, [0x0d])]
      ⟨false, .new true, [0x0d]⟩ := ⟨rfl, .next rfl (.done rfl)⟩
  have htilde : (EscapeFilter.new true).Reads [0x7e] [0x0d] [(.tilde, [0x7e])]
      ⟨false, ⟨true, true, [0x7e], []⟩, [0x0d]⟩ := ⟨rfl, .next rfl (.done rfl)⟩
  have hdot : EscapeFilter.Reads ⟨true, true, [0x7e], []⟩ [0x2e] [0x0d] [(.dot, [0x2e])]
      ⟨true, ⟨true, true, [0x7e], []⟩, [0x0d]⟩ := ⟨rfl, .done rfl⟩
  have hrun := Run.goOn henter rfl (.goOn htilde rfl (@Run.fire _ _ _ [] _ _ hdot rfl))
  have hescape : Escape [(.enter, [0x0d]), (.tilde, [0x7e]), (.dot, [0x2e])]
      [(.enter, [0x0d])] [] :=
    ⟨_, _, rfl, ⟨_, [], rfl, rfl, by simp [LineStart], by simp⟩, rfl⟩
  obtain ⟨hfires, hfirst⟩ := (disconnect_iff _).2 _ _ hrun
  exact ⟨_, hrun, hfires.mpr ⟨_, _, hescape⟩, (hfirst _ _ hescape).2⟩

end Hush.Session
