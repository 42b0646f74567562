import Hush.Lib.AtomicReplace
import Hush.Lib.Trace

/-!
# load_or_create_host_cert under interleaving

Any number of servers start on one data directory. One flock is held from before the two
reads to the return, but the certificate and the key are two files with a rename each, and a
server can crash between them.
-/

namespace Hush.HostIdentity
open Hush.Lib

abbrev Bytes := List UInt8

/-- A certificate and its private key, both DER. -/
abbrev Pair := Bytes × Bytes

/-- What the call was given: whether a path was passed explicitly, and whether the two
resolved paths are the same. -/
structure Paths where
  usesExplicitPath : Bool
  same : Bool
  deriving DecidableEq, Repr

/-- Neither path is given: `host_cert.der` and `host_key.der` under the server directory. -/
def Paths.default : Paths := ⟨false, false⟩

inductive Decision
  | use (pair : Pair)
  | refuse (err : String)
  | generate
  deriving DecidableEq, Repr

/-- What to do with the files found; `makeServerConfig` fails on a pair that does not match. -/
def inspect (makeServerConfig : Bytes → Bytes → Except String Unit) (paths : Paths) :
    Option Bytes → Option Bytes → Decision
  | some cert, some key =>
    match makeServerConfig cert key with
    | .ok () => .use (cert, key)
    | .error _ =>
      if paths.usesExplicitPath then .refuse "host certificate and key do not form a valid pair"
      else .generate
  | _, _ => .generate

/-- Where a call stands. `done` is the function's return, before the lock is dropped. -/
inductive Stage
  | entered
  | waiting
  | locked
  | certRead (cert : Option Bytes)
  | bothRead (cert key : Option Bytes)
  | savingCert (pair : Pair) (r : Replace)
  | savingKey (pair : Pair) (r : Replace)
  | done (result : Except String Pair)

inductive PC
  | idle
  | active (stage : Stage)
  | crashed

structure State (Proc : Type*) where
  cert : Dir Bytes
  key : Dir Bytes
  lock : Option Proc
  pc : Proc → PC

inductive Action (Proc : Type*)
  | call (p : Proc)
  | internal (p : Proc)
  | fail (p : Proc) (err : String)
  | ret (p : Proc) (result : Except String Pair)
  | crash (p : Proc)
  | restart (p : Proc)

def Action.actor {Proc : Type*} : Action Proc → Proc
  | .call p | .internal p | .fail p _ | .ret p _ | .crash p | .restart p => p

variable {Proc : Type*} [DecidableEq Proc]

namespace State

def setPC (s : State Proc) (p : Proc) (pc : PC) : State Proc :=
  { s with pc := Function.update s.pc p pc }

/-- Dropping an `ExclusiveFileLock`, or dying with one. -/
def unlock (s : State Proc) (p : Proc) : State Proc :=
  { s with lock := if s.lock = some p then none else s.lock }

/-- A failed save may have removed its temporary. -/
def discard (s : State Proc) : Stage → State Proc
  | .savingCert _ r => { s with cert := s.cert.discard r }
  | .savingKey _ r => { s with key := s.key.discard r }
  | .entered | .waiting | .locked | .certRead _ | .bothRead _ _ | .done _ => s

end State

/-- The stages with a system call ahead, or the generation of a key pair, that can fail. -/
def Stage.fallible : Stage → Bool
  | .done _ => false
  | .entered | .waiting | .locked | .certRead _ | .bothRead _ _ | .savingCert _ _
  | .savingKey _ _ => true

inductive Step (makeServerConfig : Bytes → Bytes → Except String Unit) (paths : Paths) :
    State Proc → Action Proc → State Proc → Prop
  | call {s : State Proc} {p : Proc} (hp : s.pc p = .idle) :
      Step makeServerConfig paths s (.call p) (s.setPC p (.active .entered))
  | ensureDir {s : State Proc} {p : Proc} (hp : s.pc p = .active .entered) :
      Step makeServerConfig paths s (.internal p) (s.setPC p (.active .waiting))
  | acquire {s : State Proc} {p : Proc} (hp : s.pc p = .active .waiting) (hl : s.lock = none) :
      Step makeServerConfig paths s (.internal p)
        ({ s with lock := some p }.setPC p (.active .locked))
  | samePath {s : State Proc} {p : Proc} (hp : s.pc p = .active .locked)
      (hs : paths.same = true) :
      Step makeServerConfig paths s (.internal p) (s.setPC p
        (.active (.done (.error "host certificate and key paths must be different"))))
  | readCert {s : State Proc} {p : Proc} (hp : s.pc p = .active .locked)
      (hs : paths.same = false) :
      Step makeServerConfig paths s (.internal p) (s.setPC p (.active (.certRead s.cert.file)))
  | readKey {s : State Proc} {p : Proc} {cert : Option Bytes}
      (hp : s.pc p = .active (.certRead cert)) :
      Step makeServerConfig paths s (.internal p)
        (s.setPC p (.active (.bothRead cert s.key.file)))
  | use {s : State Proc} {p : Proc} {cert key : Option Bytes} {pair : Pair}
      (hp : s.pc p = .active (.bothRead cert key))
      (hd : inspect makeServerConfig paths cert key = .use pair) :
      Step makeServerConfig paths s (.internal p) (s.setPC p (.active (.done (.ok pair))))
  | refuse {s : State Proc} {p : Proc} {cert key : Option Bytes} {err : String}
      (hp : s.pc p = .active (.bothRead cert key))
      (hd : inspect makeServerConfig paths cert key = .refuse err) :
      Step makeServerConfig paths s (.internal p) (s.setPC p (.active (.done (.error err))))
  /-- A new self-signed certificate, for which rustls accepts its own key. -/
  | generate {s : State Proc} {p : Proc} {cert key : Option Bytes} (pair : Pair)
      (hp : s.pc p = .active (.bothRead cert key))
      (hd : inspect makeServerConfig paths cert key = .generate)
      (hv : makeServerConfig pair.1 pair.2 = .ok ()) :
      Step makeServerConfig paths s (.internal p)
        (s.setPC p (.active (.savingCert pair (.creating 32))))
  | saveCert {s : State Proc} {p : Proc} {pair : Pair} {r r' : Replace} {d : Dir Bytes}
      (hp : s.pc p = .active (.savingCert pair r)) (hr : ReplaceStep pair.1 r s.cert r' d) :
      Step makeServerConfig paths s (.internal p)
        ({ s with cert := d }.setPC p (.active (.savingCert pair r')))
  | certSaved {s : State Proc} {p : Proc} {pair : Pair}
      (hp : s.pc p = .active (.savingCert pair .installed)) :
      Step makeServerConfig paths s (.internal p)
        (s.setPC p (.active (.savingKey pair (.creating 32))))
  | saveKey {s : State Proc} {p : Proc} {pair : Pair} {r r' : Replace} {d : Dir Bytes}
      (hp : s.pc p = .active (.savingKey pair r)) (hr : ReplaceStep pair.2 r s.key r' d) :
      Step makeServerConfig paths s (.internal p)
        ({ s with key := d }.setPC p (.active (.savingKey pair r')))
  | keySaved {s : State Proc} {p : Proc} {pair : Pair}
      (hp : s.pc p = .active (.savingKey pair .installed)) :
      Step makeServerConfig paths s (.internal p) (s.setPC p (.active (.done (.ok pair))))
  /-- A system call fails, or no temporary name was free in 32 tries. -/
  | fail {s : State Proc} {p : Proc} {stage : Stage} (err : String) (removed : Bool)
      (hp : s.pc p = .active stage) (hs : stage.fallible = true) :
      Step makeServerConfig paths s (.fail p err)
        ((if removed then s.discard stage else s).setPC p (.active (.done (.error err))))
  | ret {s : State Proc} {p : Proc} {result : Except String Pair}
      (hp : s.pc p = .active (.done result)) :
      Step makeServerConfig paths s (.ret p result) ((s.unlock p).setPC p .idle)
  | crash {s : State Proc} (p : Proc) :
      Step makeServerConfig paths s (.crash p) ((s.unlock p).setPC p .crashed)
  | restart {s : State Proc} {p : Proc} (hp : s.pc p = .crashed) :
      Step makeServerConfig paths s (.restart p) (s.setPC p .idle)

/-- No call is running yet. Both files, and the temporaries beside them, are arbitrary. -/
def Initial (s : State Proc) : Prop :=
  s.lock = none ∧ ∀ p, s.pc p = .idle ∨ s.pc p = .crashed

end Hush.HostIdentity
