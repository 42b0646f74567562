import Hush.Lib.Trace
import Mathlib.Logic.Function.Basic

/-!
# load_or_create_stateless_reset_key under interleaving

There is no lock. A server that finds no key fills a temporary file with one and hard-links
it to the key's path, which fails if the path exists by then. Names are separated from
inodes here: a link gives the path the temporary's inode, and an open descriptor outlives
the name it was opened under.
-/

namespace Hush.ResetKey
open Hush.Lib

abbrev Bytes := List UInt8

/-- `[u8; STATELESS_RESET_KEY_LEN]`. -/
structure Key where
  bytes : Bytes
  length_eq : bytes.length = 64
  deriving DecidableEq, Repr

/-- The server directory: the key's path, the temporaries by the nonce in their name, and
what the inodes hold. Inodes from `next` on have never been used. -/
structure Fs where
  file : Option Nat
  tmp : String → Option Nat
  data : Nat → Bytes
  next : Nat

namespace Fs

/-- The contents at the key's path. -/
def content (fs : Fs) : Option Bytes := fs.file.map fs.data

/-- An exclusive open: a new, empty inode under a free name. -/
def create (fs : Fs) (nonce : String) : Fs :=
  { fs with
    tmp := Function.update fs.tmp nonce (some fs.next)
    data := Function.update fs.data fs.next []
    next := fs.next + 1 }

def write (fs : Fs) (inode : Nat) (b : Bytes) : Fs :=
  { fs with data := Function.update fs.data inode b }

def link (fs : Fs) (inode : Nat) : Fs := { fs with file := some inode }

def remove (fs : Fs) (nonce : String) : Fs :=
  { fs with tmp := Function.update fs.tmp nonce none }

end Fs

/-- `read_stateless_reset_key` once the file is open. -/
def readKey (path : String) (data : Bytes) : Except String Key :=
  if h : data.length = 64 then .ok ⟨data, h⟩
  else if data.length < 64 then .error s!"read {path}"
  else .error s!"invalid stateless reset key length in {path}: expected 64 bytes"

/-- What an iteration of the loop still needs when it reads another server's key. -/
structure Retry where
  key : Key
  tries : Nat
  nonce : String

/-- Where a call stands. `failing` is left to remove its temporary. -/
inductive Stage
  | entered
  | reading (retry : Option Retry)
  | opened (retry : Option Retry) (inode : Nat)
  | generating
  | trying (key : Key) (tries : Nat)
  | writing (key : Key) (tries : Nat) (nonce : String) (inode : Nat)
  | synced (key : Key) (tries : Nat) (nonce : String) (inode : Nat)
  | linked (key : Key) (nonce : String)
  | removed (key : Key) (nonce : String)
  | lost (retry : Retry)
  | failing (nonce : String) (err : String)
  | done (result : Except String Key)

/-- Where an error leads: inside `install` the temporary is removed first. -/
def Stage.onError (err : String) : Stage → Option Stage
  | .entered | .reading none | .opened none _ | .generating | .trying _ _ =>
    some (.done (.error err))
  | .reading (some ⟨_, _, nonce⟩) | .opened (some ⟨_, _, nonce⟩) _ | .writing _ _ nonce _
  | .synced _ _ nonce _ | .linked _ nonce | .removed _ nonce | .lost ⟨_, _, nonce⟩ =>
    some (.failing nonce err)
  | .failing _ _ | .done _ => none

/-- One system call of a running call, or the in-memory stretch to the next one. -/
inductive Exec (path : String) : Fs → Stage → Fs → Stage → Prop
  | prepare {fs : Fs} : Exec path fs .entered fs (.reading none)
  | openMissing {fs : Fs} (h : fs.file = none) : Exec path fs (.reading none) fs .generating
  /-- The key was removed again; the loop goes on with a new name. -/
  | openGone {fs : Fs} {retry : Retry} (h : fs.file = none) :
      Exec path fs (.reading (some retry)) fs (.trying retry.key retry.tries)
  | openFound {fs : Fs} {retry : Option Retry} {inode : Nat} (h : fs.file = some inode) :
      Exec path fs (.reading retry) fs (.opened retry inode)
  | read {fs : Fs} {retry : Option Retry} {inode : Nat} {key : Key}
      (h : readKey path (fs.data inode) = .ok key) :
      Exec path fs (.opened retry inode) fs (.done (.ok key))
  | generate {fs : Fs} (key : Key) : Exec path fs .generating fs (.trying key 32)
  | collide {fs : Fs} {key : Key} {tries : Nat} (nonce : String) (h : fs.tmp nonce ≠ none) :
      Exec path fs (.trying key (tries + 1)) fs (.trying key tries)
  | create {fs : Fs} {key : Key} {tries : Nat} (nonce : String) (h : fs.tmp nonce = none) :
      Exec path fs (.trying key (tries + 1)) (fs.create nonce)
        (.writing key tries nonce fs.next)
  | exhausted {fs : Fs} {key : Key} :
      Exec path fs (.trying key 0) fs
        (.done (.error s!"could not install stateless reset key at {path}"))
  /-- A partial write: nothing is assumed about what has reached the inode so far. -/
  | write {fs : Fs} {key : Key} {tries : Nat} {nonce : String} {inode : Nat} (b : Bytes) :
      Exec path fs (.writing key tries nonce inode) (fs.write inode b)
        (.writing key tries nonce inode)
  | sync {fs : Fs} {key : Key} {tries : Nat} {nonce : String} {inode : Nat} :
      Exec path fs (.writing key tries nonce inode) (fs.write inode key.bytes)
        (.synced key tries nonce inode)
  /-- The link takes whatever inode the temporary's name has by now. -/
  | link {fs : Fs} {key : Key} {tries : Nat} {nonce : String} {inode target : Nat}
      (hf : fs.file = none) (ht : fs.tmp nonce = some target) :
      Exec path fs (.synced key tries nonce inode) (fs.link target) (.linked key nonce)
  | linkExists {fs : Fs} {key : Key} {tries : Nat} {nonce : String} {inode : Nat}
      (hf : fs.file ≠ none) :
      Exec path fs (.synced key tries nonce inode) fs (.lost ⟨key, tries, nonce⟩)
  | removeLinked {fs : Fs} {key : Key} {nonce : String} :
      Exec path fs (.linked key nonce) (fs.remove nonce) (.removed key nonce)
  | syncDir {fs : Fs} {key : Key} {nonce : String} :
      Exec path fs (.removed key nonce) fs (.done (.ok key))
  | removeLost {fs : Fs} {retry : Retry} :
      Exec path fs (.lost retry) (fs.remove retry.nonce) (.reading (some retry))
  /-- A system call fails, or the file read is not a key. -/
  | error {fs : Fs} {stage stage' : Stage} (err : String) (h : stage.onError err = some stage') :
      Exec path fs stage fs stage'
  | cleanup {fs : Fs} {nonce err : String} (removed : Bool) :
      Exec path fs (.failing nonce err) (if removed then fs.remove nonce else fs)
        (.done (.error err))

inductive PC
  | idle
  | active (stage : Stage)
  | crashed

structure State (Proc : Type*) where
  fs : Fs
  pc : Proc → PC

inductive Action (Proc : Type*)
  | call (p : Proc)
  | internal (p : Proc)
  | ret (p : Proc) (result : Except String Key)
  | crash (p : Proc)
  | restart (p : Proc)

def Action.actor {Proc : Type*} : Action Proc → Proc
  | .call p | .internal p | .ret p _ | .crash p | .restart p => p

variable {Proc : Type*} [DecidableEq Proc]

def State.setPC (s : State Proc) (p : Proc) (pc : PC) : State Proc :=
  { s with pc := Function.update s.pc p pc }

inductive Step (path : String) : State Proc → Action Proc → State Proc → Prop
  | call {s : State Proc} {p : Proc} (hp : s.pc p = .idle) :
      Step path s (.call p) (s.setPC p (.active .entered))
  | internal {s : State Proc} {p : Proc} {stage stage' : Stage} {fs : Fs}
      (hp : s.pc p = .active stage) (he : Exec path s.fs stage fs stage') :
      Step path s (.internal p) ({ s with fs := fs }.setPC p (.active stage'))
  | ret {s : State Proc} {p : Proc} {result : Except String Key}
      (hp : s.pc p = .active (.done result)) :
      Step path s (.ret p result) (s.setPC p .idle)
  | crash {s : State Proc} (p : Proc) : Step path s (.crash p) (s.setPC p .crashed)
  | restart {s : State Proc} {p : Proc} (hp : s.pc p = .crashed) :
      Step path s (.restart p) (s.setPC p .idle)

/-- Every name in the directory has an inode that is in use. -/
structure Fs.Bounded (fs : Fs) : Prop where
  file : ∀ inode, fs.file = some inode → inode < fs.next
  tmp : ∀ nonce inode, fs.tmp nonce = some inode → inode < fs.next

/-- No call is running yet. The key's file, if there is one, and the temporaries that
earlier runs have left are arbitrary. -/
def Initial (s : State Proc) : Prop :=
  s.fs.Bounded ∧ ∀ p, s.pc p = .idle ∨ s.pc p = .crashed

end Hush.ResetKey
