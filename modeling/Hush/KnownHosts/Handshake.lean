import Hush.KnownHosts.Document
import Hush.Lib.Trace

/-!
# Pinning during a handshake

`verify_server_cert` runs first and pins under Tofu; `verify_tls13_signature` proves that
the peer holds the certificate's key, and runs afterwards. Attempts that share a verifier
take its mutex for the whole of the first callback, so that callback is one step here.
-/

namespace Hush.KnownHosts.Handshake
open Hush.Lib

/-- How a peer carries on once its certificate has been accepted: its CertificateVerify is
valid and the handshake completes, or it is valid and the handshake still fails (the Finished
message is wrong or lost, or another attempt has won and this one is aborted), or
`verify_tls13_signature` rejects it, or the attempt ends before it is checked. -/
inductive Conduct
  | completes
  | failsLater
  | badSignature
  | drops
  deriving DecidableEq, Repr

/-- `verify_tls13_signature` gets to see a valid signature. -/
def Conduct.provesKey : Conduct → Bool
  | .completes | .failsLater => true
  | .badSignature | .drops => false

structure Peer where
  cert : List UInt8
  conduct : Conduct

/-- `auth::cert_fingerprint`, over the base64 text of a SHA-256 digest. -/
def certFingerprint (digest : List UInt8 → String) (cert : List UInt8) : String :=
  s!"SHA256:{digest cert}"

/-- The attempts of a client, whom they reach, and the Tofu verifiers they share. -/
structure Attempts (V A : Type*) where
  path : String
  digest : List UInt8 → String
  hostKey : V → String
  verifier : A → V
  peer : A → Peer

inductive Phase
  | connecting
  | shown
  | proved
  | established
  | failed
  deriving DecidableEq, Repr

structure State (V A : Type*) where
  file : Option String
  entries : V → Entries
  phase : A → Phase

inductive Action (A : Type*)
  | showCert (a : A) (io : Io)
  | certVerify (a : A)
  | finished (a : A)
  | lost (a : A)

def Action.attempt {A : Type*} : Action A → A
  | .showCert a _ | .certVerify a | .finished a | .lost a => a

variable {V A : Type*}

def Attempts.host (w : Attempts V A) (a : A) : String := w.hostKey (w.verifier a)

def Attempts.fingerprint (w : Attempts V A) (a : A) : String :=
  certFingerprint w.digest (w.peer a).cert

/-- `TofuServerVerifier::verify_server_cert`. -/
def verifyServerCert (toml : Toml) (w : Attempts V A) (io : Io) (s : State V A) (a : A) :
    Except String Unit × Entries × Option String :=
  checkOrInsert toml w.path io (s.entries (w.verifier a)) s.file (w.host a) (w.fingerprint a)
    .tofu

def afterCert : Except String Unit → Phase
  | .ok () => .shown
  | .error _ => .failed

variable [DecidableEq V] [DecidableEq A]

def State.setPhase (s : State V A) (a : A) (phase : Phase) : State V A :=
  { s with phase := Function.update s.phase a phase }

inductive Step (toml : Toml) (w : Attempts V A) : State V A → Action A → State V A → Prop
  | showCert {s : State V A} {a : A} {io : Io} {result : Except String Unit} {m : Entries}
      {file : Option String} (hp : s.phase a = .connecting)
      (h : verifyServerCert toml w io s a = (result, m, file)) :
      Step toml w s (.showCert a io)
        { file, entries := Function.update s.entries (w.verifier a) m,
          phase := Function.update s.phase a (afterCert result) }
  | accept {s : State V A} {a : A} (hp : s.phase a = .shown)
      (hc : (w.peer a).conduct.provesKey = true) :
      Step toml w s (.certVerify a) (s.setPhase a .proved)
  | reject {s : State V A} {a : A} (hp : s.phase a = .shown)
      (hc : (w.peer a).conduct = .badSignature) :
      Step toml w s (.certVerify a) (s.setPhase a .failed)
  | lost {s : State V A} {a : A} (hp : s.phase a = .shown)
      (hc : (w.peer a).conduct = .drops) :
      Step toml w s (.lost a) (s.setPhase a .failed)
  | finish {s : State V A} {a : A} (hp : s.phase a = .proved)
      (hc : (w.peer a).conduct = .completes) :
      Step toml w s (.finished a) (s.setPhase a .established)
  /-- Neither callback has complained, and there is no connection all the same. -/
  | lostLater {s : State V A} {a : A} (hp : s.phase a = .proved)
      (hc : (w.peer a).conduct = .failsLater) :
      Step toml w s (.lost a) (s.setPhase a .failed)
  /-- The attempt ends before any certificate arrives. -/
  | unreachable {s : State V A} {a : A} (hp : s.phase a = .connecting) :
      Step toml w s (.lost a) (s.setPhase a .failed)

def Initial (s : State V A) : Prop := ∀ a, s.phase a = .connecting

/-- An insertion is made only for a peer that goes on to complete its handshake, and the
directory sync after the rename does not fail. -/
def Honest (toml : Toml) (w : Attempts V A) (s : State V A) : Action A → Prop
  | .showCert a io =>
    Inserts toml w.path io s.file (w.host a) →
      (w.peer a).conduct = .completes ∧ io.afterRename = none
  | .certVerify _ | .finished _ | .lost _ => True

/-- No step of an attempt that has failed changed the file. -/
def FailuresPinNothing (toml : Toml) (w : Attempts V A) (s : State V A) (xs : List (Action A))
    (t : State V A) : Prop :=
  ∀ v x u, Trace.Takes (Step toml w) s xs t v x u → t.phase x.attempt = .failed →
    u.file = v.file

/-- Every pin that is new since the start belongs to a peer whose CertificateVerify is
valid. Between the two callbacks of its attempt that is still to be checked. -/
def PinsProved (toml : Toml) (w : Attempts V A) (s t : State V A) : Prop :=
  ∀ host fp, Pinned toml w.path t.file host fp → Pinned toml w.path s.file host fp ∨
    ∃ a, w.host a = host ∧ w.fingerprint a = fp ∧ (w.peer a).conduct.provesKey = true ∧
      (t.phase a = .shown ∨ t.phase a = .proved ∨ t.phase a = .established)

variable {toml : Toml} {w : Attempts V A} {s t u v : State V A} {x : Action A} {a : A}
  {xs : List (Action A)}

/-- An attempt only moves on, and from `shown` on it does so the way its peer conducts itself. -/
theorem phase_step (h : Step toml w s x t) (a : A) :
    t.phase a = s.phase a ∨
    (s.phase a = .connecting ∧ (t.phase a = .shown ∨ t.phase a = .failed)) ∨
    (s.phase a = .shown ∧ (w.peer a).conduct.provesKey = true ∧ t.phase a = .proved) ∨
    (s.phase a = .proved ∧ (w.peer a).conduct = .completes ∧ t.phase a = .established) ∨
    ((s.phase a = .shown ∨ s.phase a = .proved) ∧ (w.peer a).conduct ≠ .completes ∧
      t.phase a = .failed) := by
  by_cases ha : a = x.attempt
  · subst ha
    cases h with
    | @showCert a io result m file hp h =>
      refine Or.inr (Or.inl ⟨hp, ?_⟩)
      cases result <;> simp [afterCert, Action.attempt]
    | accept hp hc =>
      exact Or.inr (Or.inr (Or.inl ⟨hp, hc, by simp [State.setPhase, Action.attempt]⟩))
    | finish hp hc =>
      exact Or.inr (Or.inr (Or.inr (Or.inl ⟨hp, hc, by simp [State.setPhase, Action.attempt]⟩)))
    | reject hp hc | lost hp hc =>
      refine Or.inr (Or.inr (Or.inr (Or.inr
        ⟨Or.inl hp, ?_, by simp [State.setPhase, Action.attempt]⟩)))
      simp [hc, Action.attempt]
    | lostLater hp hc =>
      refine Or.inr (Or.inr (Or.inr (Or.inr
        ⟨Or.inr hp, ?_, by simp [State.setPhase, Action.attempt]⟩)))
      simp [hc, Action.attempt]
    | unreachable hp =>
      exact Or.inr (Or.inl ⟨hp, Or.inr (by simp [State.setPhase, Action.attempt])⟩)
  · left
    cases h <;> simp_all [State.setPhase, Action.attempt]

theorem failed_trace (h : Trace (Step toml w) s xs t) (hs : s.phase a = .failed) :
    t.phase a = .failed := by
  refine h.invariant (P := fun s => s.phase a = .failed) hs ?_
  intro s x t h hs
  rcases phase_step h a with he | ⟨hc, _⟩ | ⟨hc, _⟩ | ⟨hc, _⟩ | ⟨hc, _⟩
  · exact he.trans hs
  all_goals simp [hs] at hc

/-- A peer that completes its handshake is past its certificate. -/
def Completing (w : Attempts V A) (s : State V A) (a : A) : Prop :=
  (w.peer a).conduct = .completes ∧
    (s.phase a = .shown ∨ s.phase a = .proved ∨ s.phase a = .established)

theorem completing_step (h : Step toml w s x t) (hs : Completing w s a) : Completing w t a := by
  refine ⟨hs.1, ?_⟩
  rcases phase_step h a with he | ⟨hc, _⟩ | ⟨_, _, he⟩ | ⟨_, _, he⟩ | ⟨_, hne, _⟩
  · simpa only [he] using hs.2
  · simp [Completing, hc] at hs
  · exact Or.inr (Or.inl he)
  · exact Or.inr (Or.inr he)
  · exact (hne hs.1).elim

theorem completing_trace (h : Trace (Step toml w) s xs t) (hs : Completing w s a) :
    Completing w t a :=
  h.invariant (P := fun s => Completing w s a) hs completing_step

/-- The handshake of the attempt is under way: its certificate has been shown. -/
def Phase.underWay (p : Phase) : Prop := p = .shown ∨ p = .proved

/-- An attempt that has shown its certificate ends as its peer conducts itself. -/
theorem completes_of_not_failed (h : Trace (Step toml w) s xs t) (hs : s.phase a = .shown)
    (hf : t.phase a ≠ .failed) (hn : ¬ (t.phase a).underWay) :
    (w.peer a).conduct = .completes := by
  by_contra hc
  have hend : (t.phase a).underWay ∨ t.phase a = .failed := by
    refine h.invariant (P := fun s => (s.phase a).underWay ∨ s.phase a = .failed)
      (Or.inl (Or.inl hs)) ?_
    intro s x t h hs
    rcases phase_step h a with he | ⟨_, he⟩ | ⟨_, _, he⟩ | ⟨_, he, _⟩ | ⟨_, _, he⟩
    · simpa only [he] using hs
    · exact he.imp_left Or.inl
    · exact Or.inl (Or.inr he)
    · exact (hc he).elim
    · exact Or.inr he
  exact hend.elim hn hf

/-- Only a certificate that is not pinned yet changes the file, by exactly its pin. The
attempt goes on if the save has succeeded to its end. -/
theorem file_step (h : Step toml w s x t) :
    (t.file = s.file ∧ ∀ a io, x = .showCert a io → ¬ Inserts toml w.path io s.file (w.host a)) ∨
    ∃ a io, x = .showCert a io ∧ Inserts toml w.path io s.file (w.host a) ∧
      (∃ m, readEntries toml w.path s.file = .ok m ∧ m[w.host a]? = none ∧
        t.file = some (toml.toStringPretty (m.insert (w.host a) (w.fingerprint a)))) ∧
      ((io.afterRename = none ∧ t.phase a = .shown) ∨
        (io.afterRename ≠ none ∧ t.phase a = .failed)) := by
  cases h with
  | @showCert a io result m file hp h =>
    rcases checkOrInsert_tofu h with ⟨hi, hm, hr⟩ | ⟨hno, hf⟩
    · refine Or.inr ⟨a, io, rfl, hi, hm, ?_⟩
      cases result <;> simp_all [afterCert]
    · refine Or.inl ⟨hf, ?_⟩
      rintro a' io' ⟨⟩
      exact hno
  | accept | reject | lost | finish | lostLater | unreachable =>
    exact Or.inl ⟨rfl, fun _ _ he => by cases he⟩

/-- The saved file holds a pin that was not there before. -/
theorem saved_ne (ht : toml.Lawful) {path host fp : String} {file : Option String} {m : Entries}
    (hm : readEntries toml path file = .ok m) (hn : m[host]? = none) :
    some (toml.toStringPretty (m.insert host fp)) ≠ file := by
  intro he
  have hpin : Pinned toml path (some (toml.toStringPretty (m.insert host fp))) host fp :=
    pinned_saved ht
  rw [he] at hpin
  obtain ⟨m', hm', hsome⟩ := hpin
  rw [hm, Except.ok.injEq] at hm'
  simp [← hm', hn] at hsome

theorem pinned_saved_cases (ht : toml.Lawful) {path host fp host' fp' : String} {m : Entries}
    (h : Pinned toml path (some (toml.toStringPretty (m.insert host fp))) host' fp') :
    (host = host' ∧ fp = fp') ∨ m[host']? = some fp' := by
  obtain ⟨m', hm', hf⟩ := h
  rw [readEntries_saved ht, Except.ok.injEq] at hm'
  subst hm'
  by_cases he : host = host'
  · subst he
    rw [lookup_insert_self, Option.some.injEq] at hf
    exact Or.inl ⟨rfl, hf⟩
  · right
    simpa [Std.ExtTreeMap.getElem?_insert, Std.LawfulEqCmp.compare_eq_iff_eq, he] using hf

/-- The step that shows an honest peer's certificate is the only one to add a pin. -/
theorem completing_of_pinned_step (ht : toml.Lawful) (h : Step toml w s x t)
    (hx : Honest toml w s x) {host fp : String} (hp : Pinned toml w.path t.file host fp) :
    Pinned toml w.path s.file host fp ∨
      ∃ a, w.host a = host ∧ w.fingerprint a = fp ∧ Completing w t a := by
  rcases file_step h with ⟨he, _⟩ | ⟨a, io, rfl, hi, ⟨m, hm, _, hf⟩, hphase⟩
  · exact Or.inl (he ▸ hp)
  · obtain ⟨hc, hio⟩ := hx hi
    rcases pinned_saved_cases ht (hf ▸ hp) with ⟨hh, hfp⟩ | hold
    · have hshown : t.phase a = .shown := by simpa [hio] using hphase
      exact Or.inr ⟨a, hh, hfp, hc, Or.inl hshown⟩
    · exact Or.inl (pinned_of_read hm hold)

theorem completing_of_pinned_trace (ht : toml.Lawful)
    (h : Trace (fun v x u => Step toml w v x u ∧ Honest toml w v x) s xs t) {host fp : String}
    (hp : Pinned toml w.path t.file host fp) :
    Pinned toml w.path s.file host fp ∨
      ∃ a, w.host a = host ∧ w.fingerprint a = fp ∧ Completing w t a := by
  induction h with
  | refl => exact Or.inl hp
  | stepL hs h ih =>
    rcases ih hp with hp | hright
    · rcases completing_of_pinned_step ht hs.1 hs.2 hp with hp | ⟨a, hh, hfp, hc⟩
      · exact Or.inl hp
      · exact Or.inr ⟨a, hh, hfp, completing_trace (h.mono And.left) hc⟩
    · exact Or.inr hright

theorem pinsProved_trace (ht : toml.Lawful)
    (h : Trace (fun v x u => Step toml w v x u ∧ Honest toml w v x) s xs t) :
    PinsProved toml w s t := by
  intro host fp hp
  refine (completing_of_pinned_trace ht h hp).imp_right ?_
  rintro ⟨a, hh, hfp, hc, hphase⟩
  exact ⟨a, hh, hfp, by rw [hc]; rfl, hphase⟩

/-- An honest peer's attempt does not fail, and any other leaves the file alone. -/
theorem failed_file_unchanged (hstep : Step toml w v x u) (hx : Honest toml w v x)
    (h : Trace (Step toml w) u xs t) (hf : t.phase x.attempt = .failed) : u.file = v.file := by
  rcases file_step hstep with ⟨he, _⟩ | ⟨a, io, rfl, hi, _, hphase⟩
  · exact he
  · obtain ⟨hc, hio⟩ := hx hi
    have hshown : u.phase a = .shown := by simpa [hio] using hphase
    have hend := (completing_trace h ⟨hc, Or.inl hshown⟩).2
    have hfailed : t.phase a = .failed := hf
    simp [hfailed] at hend

/-- Once all attempts are over, a certificate whose pin was not in vain was an honest one's. -/
theorem honest_of_unchanged (ht : toml.Lawful) (hstep : Step toml w v x u)
    (h : Trace (Step toml w) u xs t) (hover : ∀ a, ¬ (t.phase a).underWay)
    (hf : t.phase x.attempt = .failed → u.file = v.file) : Honest toml w v x := by
  cases x with
  | certVerify a | finished a | lost a => trivial
  | showCert a io =>
    intro hi
    rcases file_step hstep with ⟨_, hno⟩ | ⟨_, _, ⟨⟩, _, ⟨m, hm, hn, hfile⟩, hphase⟩
    · exact (hno a io rfl hi).elim
    · have halive : t.phase a ≠ .failed := by
        intro hfail
        rw [hf hfail] at hfile
        exact saved_ne ht hm hn hfile.symm
      rcases hphase with ⟨hio, hshown⟩ | ⟨_, hfail⟩
      · exact ⟨completes_of_not_failed h hshown halive (hover a), hio⟩
      · exact (halive (failed_trace h hfail)).elim

/-- In a run in which every certificate that is about to be pinned comes from a peer that
completes its handshake, no failed attempt leaves a trace in known_hosts and every new pin is
a proven key's. Nothing less will do once the run's attempts are over. -/
theorem failures_pin_nothing_iff (ht : toml.Lawful) (h : Trace (Step toml w) s xs t) :
    ((∀ v x u, Trace.Takes (Step toml w) s xs t v x u → Honest toml w v x) →
      FailuresPinNothing toml w s xs t ∧ PinsProved toml w s t) ∧
    ((∀ a, ¬ (t.phase a).underWay) → FailuresPinNothing toml w s xs t →
      ∀ v x u, Trace.Takes (Step toml w) s xs t v x u → Honest toml w v x) := by
  constructor
  · intro hall
    refine ⟨?_, pinsProved_trace ht (h.restrict hall)⟩
    rintro v x u ⟨before, after, he, hbefore, hstep, hafter⟩ hf
    exact failed_file_unchanged hstep (hall v x u ⟨before, after, he, hbefore, hstep, hafter⟩)
      hafter hf
  · rintro hover hpin v x u ⟨before, after, he, hbefore, hstep, hafter⟩
    exact honest_of_unchanged ht hstep hafter hover
      (hpin v x u ⟨before, after, he, hbefore, hstep, hafter⟩)

/-- One attempt at a host that shows a certificate. -/
def oneAttempt (conduct : Conduct) : Attempts Unit Unit where
  path := "known_hosts"
  digest := fun _ => "5PYNCqbX89O2pklLHIYbmfZJxvnsUauvIBsg8pcyfJU"
  hostKey := fun _ => hostKey "example.com" 22022
  verifier := fun _ => ()
  peer := fun _ => ⟨[0x30, 0x00], conduct⟩

def noHosts : State Unit Unit := ⟨none, fun _ => ∅, fun _ => .connecting⟩

theorem oneAttempt_shown (conduct : Conduct) :
    ∃ u, Step Document.toml (oneAttempt conduct) noHosts (.showCert () {}) u ∧
      u.phase () = .shown ∧ Pinned Document.toml "known_hosts" u.file
        ((oneAttempt conduct).host ()) ((oneAttempt conduct).fingerprint ()) := by
  have hv : verifyServerCert Document.toml (oneAttempt conduct) {} noHosts () =
      (.ok (), (∅ : Entries).insert ((oneAttempt conduct).host ())
        ((oneAttempt conduct).fingerprint ()), some (Document.toml.toStringPretty
          ((∅ : Entries).insert ((oneAttempt conduct).host ())
            ((oneAttempt conduct).fingerprint ())))) := by
    simp [verifyServerCert, checkOrInsert, reread, readEntries, noHosts, checkAndSave,
      checkExisting, save]
  exact ⟨_, .showCert rfl hv, by simp [afterCert], pinned_saved Document.toml_lawful⟩

theorem noHosts_nothing_pinned (host fp : String) :
    ¬ Pinned Document.toml "known_hosts" noHosts.file host fp := by
  rintro ⟨m, hm, hf⟩
  cases hm
  simp at hf

/-- Whatever keeps the handshake from completing once the certificate has been shown, the pin
stays. -/
theorem oneAttempt_failed {conduct : Conduct} (hc : conduct ≠ .completes) :
    ∃ xs t, Trace (Step Document.toml (oneAttempt conduct)) noHosts xs t ∧
      Pinned Document.toml "known_hosts" t.file ((oneAttempt conduct).host ())
        ((oneAttempt conduct).fingerprint ()) ∧
      ¬ FailuresPinNothing Document.toml (oneAttempt conduct) noHosts xs t := by
  obtain ⟨u, hstep, hshown, hpin⟩ := oneAttempt_shown conduct
  have hend : ∃ xs t, Trace (Step Document.toml (oneAttempt conduct)) u xs t ∧
      t.phase () = .failed ∧ t.file = u.file := by
    cases conduct with
    | completes => exact absurd rfl hc
    | badSignature =>
      exact ⟨_, _, .single (.reject (a := ()) hshown rfl), by simp [State.setPhase], rfl⟩
    | drops => exact ⟨_, _, .single (.lost (a := ()) hshown rfl), by simp [State.setPhase], rfl⟩
    | failsLater =>
      have hproved : (u.setPhase () .proved).phase () = .proved := by simp [State.setPhase]
      exact ⟨_, _, .stepL (.accept (a := ()) hshown rfl) (.single (.lostLater hproved rfl)),
        by simp [State.setPhase], rfl⟩
  obtain ⟨xs, t, hrun, hfailed, hfile⟩ := hend
  refine ⟨_, t, .stepL hstep hrun, hfile ▸ hpin, ?_⟩
  intro hnothing
  have he := hnothing noHosts (.showCert () {}) u ⟨[], xs, rfl, .refl, hstep, hrun⟩ hfailed
  rw [he] at hpin
  exact noHosts_nothing_pinned _ _ hpin

/-- The attempt fails on a bad signature, and known_hosts keeps the pin of a key that nobody
has proved to hold. -/
theorem bad_signature_pins :
    ∃ s xs t, Initial s ∧
      Trace (Step Document.toml (oneAttempt .badSignature)) s xs t ∧
      ¬ FailuresPinNothing Document.toml (oneAttempt .badSignature) s xs t ∧
      ¬ PinsProved Document.toml (oneAttempt .badSignature) s t := by
  have hbad : Conduct.badSignature ≠ .completes := by decide
  obtain ⟨xs, t, hrun, hpin, hfails⟩ := oneAttempt_failed hbad
  refine ⟨noHosts, xs, t, fun _ => rfl, hrun, hfails, fun hproved => ?_⟩
  rcases hproved _ _ hpin with hold | ⟨a, _, _, hc, _⟩
  · exact noHosts_nothing_pinned _ _ hold
  · cases hc

theorem failures_pin_nothing_iff_first_use :
    ∃ xs t, Trace (Step Document.toml (oneAttempt .completes)) noHosts xs t ∧
      t.phase () = .established ∧
      Pinned Document.toml "known_hosts" t.file ((oneAttempt .completes).host ())
        ((oneAttempt .completes).fingerprint ()) ∧
      FailuresPinNothing Document.toml (oneAttempt .completes) noHosts xs t ∧
      PinsProved Document.toml (oneAttempt .completes) noHosts t := by
  obtain ⟨u, hstep, hshown, hpin⟩ := oneAttempt_shown .completes
  have haccept : Step Document.toml (oneAttempt .completes) u (.certVerify ())
      (u.setPhase () .proved) := .accept hshown rfl
  have hproved : (u.setPhase () .proved).phase () = .proved := by simp [State.setPhase]
  have hrun := Trace.stepL hstep (.stepL haccept (.single (.finish hproved rfl)))
  have hend : ((u.setPhase () .proved).setPhase () .established).phase () = .established := by
    simp [State.setPhase]
  have hlaws := failures_pin_nothing_iff Document.toml_lawful hrun
  refine ⟨_, _, hrun, hend, hpin, hlaws.1 (hlaws.2 (fun a => ?_) ?_)⟩
  · simp [hend, Phase.underWay]
  · intro v x u' _ hfail
    simp [hend] at hfail

end Hush.KnownHosts.Handshake
