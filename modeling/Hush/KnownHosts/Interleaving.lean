import Hush.KnownHosts.Store
import Hush.Lib.AtomicReplace
import Hush.Lib.Trace

/-!
# check_or_insert under interleaving

Any number of clients share one known_hosts file. Each transition is one system call of
one client, or an in-memory stretch between two of them. A client can crash anywhere; the
kernel then drops its flock, and its temporary file stays behind.
-/

namespace Hush.KnownHosts
open Hush.Lib

/-- The arguments of one `check_or_insert`. -/
structure Call where
  host : String
  fingerprint : String
  trust : HostTrust
  deriving DecidableEq, Repr

/-- Where a call stands. `opened` keeps the contents behind the open descriptor, which a
later rename does not touch. `done` is the function's return, before the lock is dropped. -/
inductive Stage
  | entered
  | waiting
  | locked
  | opened (snapshot : Option String)
  | checking
  | saving (r : Replace)
  | done (result : Except String Unit)

inductive PC
  | idle
  | active (call : Call) (stage : Stage)
  | crashed

/-- The shared directory and lock, and each client's control and `self.entries`. -/
structure State (Proc : Type*) where
  dir : Dir String
  lock : Option Proc
  pc : Proc → PC
  entries : Proc → Entries

inductive Action (Proc : Type*)
  | load (p : Proc)
  | call (p : Proc) (c : Call)
  | internal (p : Proc)
  | ret (p : Proc) (c : Call) (result : Except String Unit)
  | crash (p : Proc)
  | restart (p : Proc)

def Action.actor {Proc : Type*} : Action Proc → Proc
  | .load p | .call p _ | .internal p | .ret p _ _ | .crash p | .restart p => p

variable {Proc : Type*} [DecidableEq Proc]

namespace State

def setPC (s : State Proc) (p : Proc) (pc : PC) : State Proc :=
  { s with pc := Function.update s.pc p pc }

def setEntries (s : State Proc) (p : Proc) (m : Entries) : State Proc :=
  { s with entries := Function.update s.entries p m }

/-- Dropping an `ExclusiveFileLock`, or dying with one. -/
def unlock (s : State Proc) (p : Proc) : State Proc :=
  { s with lock := if s.lock = some p then none else s.lock }

end State

/-- The stages whose next system call can fail. -/
def Stage.fallible : Stage → Bool
  | .entered | .waiting | .locked | .opened _ => true
  | .checking | .saving _ | .done _ => false

inductive Step (toml : Toml) (path : String) : State Proc → Action Proc → State Proc → Prop
  | load {s : State Proc} {p : Proc} {m : Entries} (hp : s.pc p = .idle)
      (hm : readEntries toml path s.dir.file = .ok m) :
      Step toml path s (.load p) (s.setEntries p m)
  | call {s : State Proc} {p : Proc} (c : Call) (hp : s.pc p = .idle) :
      Step toml path s (.call p c) (s.setPC p (.active c .entered))
  | insecure {s : State Proc} {p : Proc} {c : Call} (hp : s.pc p = .active c .entered)
      (ht : c.trust = .insecure) :
      Step toml path s (.internal p) (s.setPC p (.active c (.done (.ok ()))))
  /-- KnownOnly opens the file without the lock. -/
  | openUnlocked {s : State Proc} {p : Proc} {c : Call} (hp : s.pc p = .active c .entered)
      (ht : c.trust = .knownOnly) :
      Step toml path s (.internal p) (s.setPC p (.active c (.opened s.dir.file)))
  | ensureDir {s : State Proc} {p : Proc} {c : Call} (hp : s.pc p = .active c .entered)
      (ht : c.trust = .tofu) :
      Step toml path s (.internal p) (s.setPC p (.active c .waiting))
  | acquire {s : State Proc} {p : Proc} {c : Call} (hp : s.pc p = .active c .waiting)
      (hl : s.lock = none) :
      Step toml path s (.internal p) ({ s with lock := some p }.setPC p (.active c .locked))
  | openLocked {s : State Proc} {p : Proc} {c : Call} (hp : s.pc p = .active c .locked) :
      Step toml path s (.internal p) (s.setPC p (.active c (.opened s.dir.file)))
  | read {s : State Proc} {p : Proc} {c : Call} {snapshot : Option String} {m : Entries}
      (hp : s.pc p = .active c (.opened snapshot)) (hm : readEntries toml path snapshot = .ok m) :
      Step toml path s (.internal p) ((s.setEntries p m).setPC p (.active c .checking))
  | parseError {s : State Proc} {p : Proc} {c : Call} {snapshot : Option String} {err : String}
      (hp : s.pc p = .active c (.opened snapshot))
      (hm : readEntries toml path snapshot = .error err) :
      Step toml path s (.internal p) (s.setPC p (.active c (.done (.error err))))
  | known {s : State Proc} {p : Proc} {c : Call} (hp : s.pc p = .active c .checking)
      (hv : checkExisting (s.entries p) c.host c.fingerprint (c.trust == .tofu) = .known) :
      Step toml path s (.internal p) (s.setPC p (.active c (.done (.ok ()))))
  | refused {s : State Proc} {p : Proc} {c : Call} {err : String}
      (hp : s.pc p = .active c .checking)
      (hv : checkExisting (s.entries p) c.host c.fingerprint (c.trust == .tofu) =
        .refused err) :
      Step toml path s (.internal p) (s.setPC p (.active c (.done (.error err))))
  | insert {s : State Proc} {p : Proc} {c : Call} {m : Entries}
      (hp : s.pc p = .active c .checking)
      (hv : checkExisting (s.entries p) c.host c.fingerprint (c.trust == .tofu) = .insert m) :
      Step toml path s (.internal p)
        ((s.setEntries p m).setPC p (.active c (.saving (.creating 32))))
  | save {s : State Proc} {p : Proc} {c : Call} {r r' : Replace} {d : Dir String}
      (hp : s.pc p = .active c (.saving r))
      (hr : ReplaceStep (toml.toStringPretty (s.entries p)) r s.dir r' d) :
      Step toml path s (.internal p) ({ s with dir := d }.setPC p (.active c (.saving r')))
  | exhausted {s : State Proc} {p : Proc} {c : Call}
      (hp : s.pc p = .active c (.saving (.creating 0))) :
      Step toml path s (.internal p) (s.setPC p
        (.active c (.done (.error s!"could not allocate a temporary file for {path}"))))
  /-- The parent directory has been synced after the rename. -/
  | saved {s : State Proc} {p : Proc} {c : Call}
      (hp : s.pc p = .active c (.saving .installed)) :
      Step toml path s (.internal p) (s.setPC p (.active c (.done (.ok ()))))
  | ioError {s : State Proc} {p : Proc} {c : Call} {stage : Stage} (err : String)
      (hp : s.pc p = .active c stage) (hs : stage.fallible = true) (ht : c.trust ≠ .insecure) :
      Step toml path s (.internal p) (s.setPC p (.active c (.done (.error err))))
  | saveError {s : State Proc} {p : Proc} {c : Call} {r : Replace} (err : String)
      (removed : Bool) (hp : s.pc p = .active c (.saving r)) :
      Step toml path s (.internal p)
        ({ s with dir := if removed then s.dir.discard r else s.dir }.setPC p
          (.active c (.done (.error err))))
  | ret {s : State Proc} {p : Proc} {c : Call} {result : Except String Unit}
      (hp : s.pc p = .active c (.done result)) :
      Step toml path s (.ret p c result) ((s.unlock p).setPC p .idle)
  | crash {s : State Proc} (p : Proc) :
      Step toml path s (.crash p) ((s.unlock p).setPC p .crashed)
  /-- A new process in the place of a dead one, with any snapshot in memory. -/
  | restart {s : State Proc} {p : Proc} (m : Entries) (hp : s.pc p = .crashed) :
      Step toml path s (.restart p) ((s.setEntries p m).setPC p .idle)

/-- No call is running yet. The file, the temporaries left by earlier runs and every
client's snapshot are arbitrary. -/
def Initial (s : State Proc) : Prop :=
  s.lock = none ∧ ∀ p, s.pc p = .idle ∨ s.pc p = .crashed

end Hush.KnownHosts
