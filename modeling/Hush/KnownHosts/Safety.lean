import Hush.KnownHosts.Document
import Hush.KnownHosts.Interleaving

/-! Whoever saves holds the lock and has re-read the file under it, so a pin is permanent. -/
namespace Hush.KnownHosts
open Hush.Lib

variable {Proc : Type*} {toml : Toml} {path : String}
  {s t : State Proc} {a : Action Proc} {p q : Proc} {c : Call} {stage : Stage}
  {xs : List (Action Proc)}

/-- The stages from `acquire` to the last system call of the save. -/
def UnderLock (trust : HostTrust) : Stage → Prop
  | .locked | .saving _ => True
  | .opened _ | .checking => trust = .tofu
  | .entered | .waiting | .done _ => False

/-- The trust level decides which stages a call can be in. -/
def Fits (trust : HostTrust) : Stage → Prop
  | .waiting | .locked | .saving _ => trust = .tofu
  | .opened _ | .checking => trust ≠ .insecure
  | .entered | .done _ => True

/-- What a client knows about the file. Without the lock this is only ever that pins it
has seen are there; under the lock the file cannot move, and equalities hold. -/
def StageOk (toml : Toml) (path : String) (dir : Dir String) (entries : Entries) (c : Call) :
    Stage → Prop
  | .opened snapshot =>
    Extends toml path snapshot dir.file ∧ (c.trust = .tofu → snapshot = dir.file)
  | .checking =>
    (∀ host fp, entries[host]? = some fp → Pinned toml path dir.file host fp) ∧
      (c.trust = .tofu → readEntries toml path dir.file = .ok entries)
  | .saving .installed => Pinned toml path dir.file c.host c.fingerprint
  | .saving r =>
    (∃ m, readEntries toml path dir.file = .ok m ∧ m[c.host]? = none ∧
      entries = m.insert c.host c.fingerprint) ∧
    r.Filled (toml.toStringPretty entries) dir
  | .done (.ok ()) => c.trust ≠ .insecure → Pinned toml path dir.file c.host c.fingerprint
  | .entered | .waiting | .locked | .done (.error _) => True

def ProcOk (toml : Toml) (path : String) (s : State Proc) (p : Proc) : Prop :=
  ∀ c stage, s.pc p = .active c stage →
    Fits c.trust stage ∧ (UnderLock c.trust stage → s.lock = some p) ∧
      StageOk toml path s.dir (s.entries p) c stage

def Invariant (toml : Toml) (path : String) (s : State Proc) : Prop :=
  ∀ p, ProcOk toml path s p

theorem invariant_initial (h : Initial s) : Invariant toml path s := by
  intro p c stage hp
  rcases h.2 p with hi | hi <;> simp [hi] at hp

theorem stageOk_of_extends {dir dir' : Dir String} {entries : Entries}
    (hu : ¬ UnderLock c.trust stage) (hx : Extends toml path dir.file dir'.file)
    (h : StageOk toml path dir entries c stage) : StageOk toml path dir' entries c stage := by
  cases stage with
  | opened snapshot => exact ⟨h.1.trans hx, fun ht => (hu ht).elim⟩
  | checking => exact ⟨fun host fp hf => hx host fp (h.1 host fp hf), fun ht => (hu ht).elim⟩
  | done result =>
    cases result with
    | ok _ => exact fun ht => hx _ _ (h ht)
    | error _ => trivial
  | entered | waiting => trivial
  | locked | saving _ => exact (hu trivial).elim

/-- What a step leaves to the clients that do not take it. -/
structure Unaffected (toml : Toml) (path : String) (s t : State Proc) (q : Proc) : Prop where
  pc : t.pc q = s.pc q
  entries : t.entries q = s.entries q
  shared : (t.dir = s.dir ∧ t.lock = s.lock) ∨
    (s.lock ≠ some q ∧ Extends toml path s.dir.file t.dir.file)

theorem Unaffected.procOk (h : Unaffected toml path s t q) (hq : ProcOk toml path s q) :
    ProcOk toml path t q := by
  intro c stage hp
  obtain ⟨hf, hl, hs⟩ := hq c stage (h.pc ▸ hp)
  rw [h.entries]
  rcases h.shared with ⟨hd, hk⟩ | ⟨hk, hx⟩
  · rw [hd, hk]
    exact ⟨hf, hl, hs⟩
  · have hu : ¬ UnderLock c.trust stage := fun hu => hk (hl hu)
    exact ⟨hf, fun h' => (hu h').elim, stageOk_of_extends hu hx hs⟩

/-- The save replaces the file by its own entries plus the new pin, or not at all. -/
theorem save_extends (ht : toml.Lawful) {r r' : Replace} {dir dir' : Dir String}
    {entries : Entries} (hs : StageOk toml path dir entries c (.saving r))
    (hr : ReplaceStep (toml.toStringPretty entries) r dir r' dir') :
    Extends toml path dir.file dir'.file := by
  cases hr with
  | collide | create | write | sync => exact Extends.refl
  | rename =>
    obtain ⟨⟨m, hm, hn, he⟩, hfill⟩ := hs
    rw [Dir.rename_file, show dir.tmp _ = _ from hfill, he]
    exact extends_saved ht hm hn

theorem save_stageOk (ht : toml.Lawful) {r r' : Replace} {dir dir' : Dir String}
    {entries : Entries} (hs : StageOk toml path dir entries c (.saving r))
    (hr : ReplaceStep (toml.toStringPretty entries) r dir r' dir') :
    StageOk toml path dir' entries c (.saving r') := by
  have hfill' := Replace.filled_step hr
  cases hr with
  | collide | create | write | sync => exact ⟨hs.1, hfill'⟩
  | rename =>
    obtain ⟨⟨m, hm, hn, he⟩, hfill⟩ := hs
    have hfile : (dir.rename _).file = _ := hfill
    simp only [StageOk, hfile, he]
    exact pinned_saved ht

/-- The check compares with the entries in memory; on a Tofu call these are the file's. -/
theorem checked_pinned (hs : StageOk toml path s.dir (s.entries p) c .checking)
    {insert : Bool} (hv : checkExisting (s.entries p) c.host c.fingerprint insert = .known) :
    Pinned toml path s.dir.file c.host c.fingerprint := by
  apply hs.1
  unfold checkExisting at hv
  split at hv
  · next old hold =>
    split at hv
    · next he => rw [hold, he]
    · cases hv
  · split at hv <;> cases hv

theorem checkExisting_insert {entries m : Entries} {host fingerprint : String} {insert : Bool}
    (hv : checkExisting entries host fingerprint insert = .insert m) :
    insert = true ∧ entries[host]? = none ∧ m = entries.insert host fingerprint := by
  unfold checkExisting at hv
  split at hv
  · split at hv <;> cases hv
  · next hn =>
    split at hv
    · next hi =>
      cases hv
      exact ⟨hi, hn, rfl⟩
    · cases hv

theorem procOk_of_active (hp : t.pc p = .active c stage) (hf : Fits c.trust stage)
    (hl : UnderLock c.trust stage → t.lock = some p)
    (hs : StageOk toml path t.dir (t.entries p) c stage) : ProcOk toml path t p := by
  intro c' stage' hp'
  rw [hp, PC.active.injEq] at hp'
  obtain ⟨rfl, rfl⟩ := hp'
  exact ⟨hf, hl, hs⟩

section
variable [DecidableEq Proc]

namespace State

@[simp] theorem setPC_pc_self (pc : PC) : (s.setPC p pc).pc p = pc := by simp [setPC]

theorem setPC_pc_of_ne (pc : PC) (h : q ≠ p) : (s.setPC p pc).pc q = s.pc q := by
  simp [setPC, h]

@[simp] theorem setPC_dir (pc : PC) : (s.setPC p pc).dir = s.dir := rfl

@[simp] theorem setPC_lock (pc : PC) : (s.setPC p pc).lock = s.lock := rfl

@[simp] theorem setPC_entries (pc : PC) : (s.setPC p pc).entries = s.entries := rfl

@[simp] theorem setEntries_entries_self (m : Entries) : (s.setEntries p m).entries p = m := by
  simp [setEntries]

theorem setEntries_entries_of_ne (m : Entries) (h : q ≠ p) :
    (s.setEntries p m).entries q = s.entries q := by
  simp [setEntries, h]

@[simp] theorem setEntries_dir (m : Entries) : (s.setEntries p m).dir = s.dir := rfl

@[simp] theorem setEntries_lock (m : Entries) : (s.setEntries p m).lock = s.lock := rfl

@[simp] theorem setEntries_pc (m : Entries) : (s.setEntries p m).pc = s.pc := rfl

/-- Only the holder's release changes the lock. -/
theorem unlock_lock_cases (s : State Proc) (p : Proc) :
    s.lock = some p ∨ (s.unlock p).lock = s.lock := by
  by_cases h : s.lock = some p
  · exact Or.inl h
  · exact Or.inr (if_neg h)

@[simp] theorem unlock_dir : (s.unlock p).dir = s.dir := rfl

@[simp] theorem unlock_pc : (s.unlock p).pc = s.pc := rfl

@[simp] theorem unlock_entries : (s.unlock p).entries = s.entries := rfl

end State

theorem step_extends (ht : toml.Lawful) (h : Step toml path s a t)
    (hi : Invariant toml path s) : Extends toml path s.dir.file t.dir.file := by
  cases h with
  | save hp hr => exact save_extends ht (hi _ _ _ hp).2.2 hr
  | saveError err removed hp =>
    cases removed <;> simpa using Extends.refl
  | _ => exact Extends.refl

/-- Only the lock holder touches the directory, and only it gives the lock away. -/
theorem step_unaffected (ht : toml.Lawful) (h : Step toml path s a t)
    (hi : Invariant toml path s) (hq : q ≠ a.actor) : Unaffected toml path s t q := by
  have hx := step_extends ht h hi
  have hne : ∀ {p : Proc}, q ≠ p → s.lock = some p → s.lock ≠ some q := by
    intro p hqp hl he
    rw [hl, Option.some.injEq] at he
    exact hqp he.symm
  cases h with
  | load hp hm => exact ⟨rfl, State.setEntries_entries_of_ne _ hq, Or.inl ⟨rfl, rfl⟩⟩
  | acquire hp hl =>
    exact ⟨State.setPC_pc_of_ne _ hq, rfl, Or.inr ⟨by simp [hl], hx⟩⟩
  | read hp hm | insert hp hv | restart m hp =>
    exact ⟨State.setPC_pc_of_ne _ hq, State.setEntries_entries_of_ne _ hq, Or.inl ⟨rfl, rfl⟩⟩
  | save hp hr | saveError err removed hp =>
    have hl := (hi _ _ _ hp).2.1 trivial
    exact ⟨State.setPC_pc_of_ne _ hq, rfl, Or.inr ⟨hne hq hl, hx⟩⟩
  | ret hp | crash p =>
    refine ⟨State.setPC_pc_of_ne _ hq, rfl, ?_⟩
    rcases State.unlock_lock_cases s _ with hl | hl
    · exact Or.inr ⟨hne hq hl, hx⟩
    · exact Or.inl ⟨rfl, hl⟩
  | _ => exact ⟨State.setPC_pc_of_ne _ hq, rfl, Or.inl ⟨rfl, rfl⟩⟩

theorem procOk_setPC {c : Call} {stage : Stage} (hf : Fits c.trust stage)
    (hl : UnderLock c.trust stage → s.lock = some p)
    (hs : StageOk toml path s.dir (s.entries p) c stage) :
    ProcOk toml path (s.setPC p (.active c stage)) p :=
  procOk_of_active (by simp) hf hl hs

/-- The client that steps keeps what it knows about the file. -/
theorem step_actor (ht : toml.Lawful) (h : Step toml path s a t)
    (hi : Invariant toml path s) : ProcOk toml path t a.actor := by
  have hx := step_extends ht h hi
  cases h with
  | load hp hm =>
    intro c stage hc
    simp [Action.actor, hp] at hc
  | call c hp => exact procOk_setPC trivial nofun trivial
  | insecure hp hc => exact procOk_setPC trivial nofun fun hn => (hn hc).elim
  | openUnlocked hp hc =>
    refine procOk_setPC ?_ ?_ ⟨Extends.refl, fun _ => rfl⟩
    · simp [Fits, hc]
    · simp [UnderLock, hc]
  | ensureDir hp hc => exact procOk_setPC hc nofun trivial
  | acquire hp hl => exact procOk_setPC (hi _ _ _ hp).1 (fun _ => rfl) trivial
  | openLocked hp =>
    obtain ⟨hf, hl, _⟩ := hi _ _ _ hp
    have hf' : _ = HostTrust.tofu := hf
    refine procOk_setPC ?_ (fun _ => hl trivial) ⟨Extends.refl, fun _ => rfl⟩
    simp [Fits, hf']
  | read hp hm =>
    obtain ⟨hf, hl, hs⟩ := hi _ _ _ hp
    refine procOk_setPC hf hl ⟨?_, ?_⟩
    · intro host fp he
      exact hs.1 host fp (pinned_of_read hm (by simpa using he))
    · intro hc
      rw [State.setEntries_dir, ← hs.2 hc, State.setEntries_entries_self]
      exact hm
  | parseError hp hm | refused hp hv | exhausted hp | ioError err hp hs hc
  | saveError err removed hp => exact procOk_setPC trivial nofun trivial
  | known hp hv =>
    exact procOk_setPC trivial nofun fun _ => checked_pinned (hi _ _ _ hp).2.2 hv
  | insert hp hv =>
    obtain ⟨hf, hl, hs⟩ := hi _ _ _ hp
    obtain ⟨htofu, hn, rfl⟩ := checkExisting_insert hv
    have hc := beq_iff_eq.mp htofu
    refine procOk_setPC hc (fun _ => hl hc) ⟨⟨_, hs.2 hc, hn, ?_⟩, trivial⟩
    simp
  | save hp hr =>
    obtain ⟨hf, hl, hs⟩ := hi _ _ _ hp
    exact procOk_setPC hf (fun _ => hl trivial) (save_stageOk ht hs hr)
  | saved hp => exact procOk_setPC trivial nofun fun _ => (hi _ _ _ hp).2.2
  | ret hp | crash p | restart m hp =>
    intro c stage hc
    simp [Action.actor] at hc

theorem invariant_step (ht : toml.Lawful) (h : Step toml path s a t)
    (hi : Invariant toml path s) : Invariant toml path t := by
  intro q
  by_cases hq : q = a.actor
  · subst hq
    exact step_actor ht h hi
  · exact (step_unaffected ht h hi hq).procOk (hi q)

theorem invariant_trace (ht : toml.Lawful) (hs : Initial s)
    (h : Trace (Step toml path) s xs t) : Invariant toml path t :=
  h.invariant (invariant_initial hs) (invariant_step ht)

/-- Along a run from a state it can reach, the file only gains pins. -/
theorem extends_trace (ht : toml.Lawful) (hi : Invariant toml path s)
    (h : Trace (Step toml path) s xs t) : Extends toml path s.dir.file t.dir.file :=
  h.related hi (invariant_step ht) (R := fun s t => Extends toml path s.dir.file t.dir.file)
    (fun _ => Extends.refl) Extends.trans (step_extends ht)

/-- A successful return is for a pair that is on disk when the call returns. -/
theorem ret_ok_pinned (hi : Invariant toml path s)
    (h : Step toml path s (.ret p c (.ok ())) t) (hc : c.trust ≠ .insecure) :
    Pinned toml path s.dir.file c.host c.fingerprint := by
  cases h with
  | ret hp => exact (hi _ _ _ hp).2.2 hc

/-- Only the rename of a Tofu call changes the file, and it adds that call's pin. -/
theorem file_changed (ht : toml.Lawful) (hi : Invariant toml path s)
    (h : Step toml path s a t) (hne : t.dir.file ≠ s.dir.file) :
    ∃ c stage, s.pc a.actor = .active c stage ∧ c.trust = .tofu ∧
      Pinned toml path t.dir.file c.host c.fingerprint := by
  cases h with
  | @save p c r r' d hp hr =>
    obtain ⟨hf, _, hs⟩ := hi _ _ _ hp
    refine ⟨c, _, hp, hf, ?_⟩
    have hs' := save_stageOk ht hs hr
    cases hr with
    | collide | create | write | sync => exact (hne rfl).elim
    | rename => exact hs'
  | saveError err removed hp => cases removed <;> simp at hne
  | _ => exact (hne rfl).elim

theorem ret_ok_pinned_later (ht : toml.Lawful) (hi : Invariant toml path s)
    (h : Trace (Step toml path) s xs t) (hr : .ret p c (.ok ()) ∈ xs) (hc : c.trust ≠ .insecure) :
    Pinned toml path t.dir.file c.host c.fingerprint := by
  obtain ⟨v, w, before, after, _, hbefore, hstep, hafter⟩ := h.takes_of_mem hr
  have hv := hbefore.invariant hi (invariant_step ht)
  have hw := invariant_step ht hstep hv
  apply extends_trace ht hw hafter
  apply step_extends ht hstep hv
  exact ret_ok_pinned hv hstep hc

/-- The store is a permanent, agreed pin map, for any number of clients, in any
interleaving and with crashes anywhere: pins stay; the file is changed by Tofu calls alone,
whose insertion is never lost; successful calls agree with the file and so with each other;
KnownOnly succeeds on pinned pairs only; and distinct host and port pairs have distinct
keys. -/
theorem pins_permanent_and_agreed (ht : toml.Lawful) {u : State Proc}
    {ys : List (Action Proc)} (hs : Initial s) (hu : Trace (Step toml path) s xs u)
    (h : Trace (Step toml path) u ys t) :
    (∀ host fp, Pinned toml path u.dir.file host fp → Pinned toml path t.dir.file host fp) ∧
    (∀ v a w, Trace.Takes (Step toml path) u ys t v a w → w.dir.file ≠ v.dir.file →
      ∃ c stage, v.pc a.actor = .active c stage ∧ c.trust = .tofu ∧
        Pinned toml path t.dir.file c.host c.fingerprint) ∧
    (∀ p c, .ret p c (.ok ()) ∈ ys → c.trust ≠ .insecure →
      Pinned toml path t.dir.file c.host c.fingerprint ∧
      ∀ p' c', .ret p' c' (.ok ()) ∈ ys → c'.trust ≠ .insecure → c'.host = c.host →
        c'.fingerprint = c.fingerprint) ∧
    (∀ v p c w, Trace.Takes (Step toml path) u ys t v (.ret p c (.ok ())) w →
      c.trust = .knownOnly → Pinned toml path v.dir.file c.host c.fingerprint) ∧
    (∀ host host' port port', hostKey host port = hostKey host' port' →
      host = host' ∧ port = port') := by
  have hi := invariant_trace ht hs hu
  refine ⟨extends_trace ht hi h, ?_, ?_, ?_, fun _ _ _ _ => hostKey_injective⟩
  · rintro v a w ⟨before, after, _, hbefore, hstep, hafter⟩ hne
    have hv := hbefore.invariant hi (invariant_step ht)
    obtain ⟨c, stage, hp, hc, hpin⟩ := file_changed ht hv hstep hne
    exact ⟨c, stage, hp, hc, extends_trace ht (invariant_step ht hstep hv) hafter _ _ hpin⟩
  · intro p c hr hc
    have hpin := ret_ok_pinned_later ht hi h hr hc
    refine ⟨hpin, ?_⟩
    intro p' c' hr' hc' hhost
    have hpin' := ret_ok_pinned_later ht hi h hr' hc'
    rw [hhost] at hpin'
    exact hpin'.unique hpin
  · rintro v p c w ⟨before, after, _, hbefore, hstep, _⟩ hc
    exact ret_ok_pinned (hbefore.invariant hi (invariant_step ht)) hstep (by simp [hc])

/-- An empty directory and two idle clients. -/
def fresh : State Bool where
  dir := ⟨none, fun _ => none⟩
  lock := none
  pc := fun _ => .idle
  entries := fun _ => ∅

def firstUse : Call := ⟨"example.com:22022", "SHA256:abc123", .tofu⟩

theorem firstUse_run : ∃ t, Trace (Step Document.toml "known_hosts") fresh
    [.call false firstUse,
      .internal false, .internal false, .internal false, .internal false, .internal false,
      .internal false, .internal false, .internal false, .internal false,
      .ret false firstUse (.ok ())] t := by
  have hins : checkExisting ∅ firstUse.host firstUse.fingerprint true =
      .insert ((∅ : Entries).insert firstUse.host firstUse.fingerprint) := by
    simp [checkExisting]
  exact ⟨_, .stepL (.call firstUse rfl) <| .stepL (.ensureDir rfl rfl) <|
    .stepL (.acquire rfl rfl) <| .stepL (.openLocked rfl) <| .stepL (.read rfl rfl) <|
    .stepL (.insert rfl hins) <| .stepL (.save rfl (.create "00" "" rfl)) <|
    .stepL (.save rfl .sync) <| .stepL (.save rfl .rename) <| .stepL (.saved rfl) <|
    .stepL (.ret rfl) .refl⟩

theorem pins_permanent_and_agreed_first_use :
    ∃ t xs, Trace (Step Document.toml "known_hosts") fresh xs t ∧
      Pinned Document.toml "known_hosts" t.dir.file "example.com:22022" "SHA256:abc123" := by
  obtain ⟨t, h⟩ := firstUse_run
  have hi : Initial fresh := ⟨rfl, fun _ => Or.inl rfl⟩
  have hlaws := pins_permanent_and_agreed Document.toml_lawful hi .refl h
  exact ⟨t, _, h, (hlaws.2.2.1 false firstUse (by simp) (by decide)).1⟩

end

end Hush.KnownHosts
