import Hush.Lib.Text
import Hush.Lib.UnixPath

/-! Looking a key up in authorized_keys. -/
namespace Hush.Auth
open Hush.Lib

abbrev Bytes := List UInt8

inductive EcdsaCurve
  | nistP256
  | nistP384
  | nistP521
  deriving DecidableEq, Repr

inductive HashAlg
  | sha256
  | sha512
  deriving DecidableEq, Repr

/-- The key algorithms of the ssh-key crate. -/
inductive Algorithm
  | dsa
  | ecdsa (curve : EcdsaCurve)
  | ed25519
  | rsa (hash : Option HashAlg)
  | skEcdsaSha2NistP256
  | skEd25519
  | other (name : String)
  deriving DecidableEq, Repr

def Algorithm.asStr : Algorithm → String
  | .dsa => "ssh-dss"
  | .ecdsa .nistP256 => "ecdsa-sha2-nistp256"
  | .ecdsa .nistP384 => "ecdsa-sha2-nistp384"
  | .ecdsa .nistP521 => "ecdsa-sha2-nistp521"
  | .ed25519 => "ssh-ed25519"
  | .rsa none => "ssh-rsa"
  | .rsa (some .sha256) => "rsa-sha2-256"
  | .rsa (some .sha512) => "rsa-sha2-512"
  | .skEcdsaSha2NistP256 => "sk-ecdsa-sha2-nistp256@openssh.com"
  | .skEd25519 => "sk-ssh-ed25519@openssh.com"
  | .other name => name

def isSupportedAlgorithm : Algorithm → Bool
  | .ed25519 | .ecdsa _ => true
  | .dsa | .rsa _ | .skEcdsaSha2NistP256 | .skEd25519 | .other _ => false

/-- The ssh-key crate on public keys. `decodeKey` is the base64 field of a key line. -/
structure SshKeys (K : Type*) where
  fromOpenssh : List Char → Option K
  toBytes : K → Except String Bytes
  algorithm : K → Algorithm
  decodeKey : Algorithm → List Char → Option Bytes

/-- The line is `algorithm base64 [comment]`. -/
def IsKeyLine (algorithm : Algorithm) (base64 line : List Char) : Prop :=
  line = algorithm.asStr.toList ++ ' ' :: base64 ∨
  ∃ comment, line = algorithm.asStr.toList ++ ' ' :: (base64 ++ ' ' :: comment)

/-- `PublicKey::from_openssh` accepts exactly the key lines, and serializes what it read. -/
structure SshKeys.Lawful {K : Type*} (keys : SshKeys K) : Prop where
  sound : ∀ line k, keys.fromOpenssh line = some k → ∃ base64 blob,
    IsKeyLine (keys.algorithm k) base64 line ∧
    keys.decodeKey (keys.algorithm k) base64 = some blob ∧ keys.toBytes k = .ok blob
  complete : ∀ algorithm base64 blob line, IsKeyLine algorithm base64 line →
    keys.decodeKey algorithm base64 = some blob →
    ∃ k, keys.fromOpenssh line = some k ∧ keys.algorithm k = algorithm ∧ keys.toBytes k = .ok blob

/-- The bytes name the key's algorithm: they are no key of another one. -/
def SshKeys.BytesName {K : Type*} (keys : SshKeys K) (key : K) (blob : Bytes) : Prop :=
  ∀ algorithm base64, keys.decodeKey algorithm base64 = some blob → algorithm = keys.algorithm key

/-- What opening and reading a file gives. -/
inductive Contents
  | notFound
  | openError
  | readError
  | bytes (data : Bytes)
  deriving DecidableEq, Repr

/-- The system a server runs on, as authentication sees it. -/
structure Host where
  isRoot : Bool
  currentUsername : String
  homeForUser : String → Except String (Option Path)
  openFile : Path → Contents

def maxAuthorizedKeysSize : Nat := 16 * 2 ^ 20

def authorizedKeysForUser (host : Host) (user : String) : Except String Path :=
  match host.homeForUser user with
  | .error err => .error err
  | .ok none => .error "user has no home directory"
  | .ok (some home) =>
    .ok ((home.join (Path.ofString ".ssh")).join (Path.ofString "authorized_keys"))

/-- The file that is consulted: the override, or the user's own. -/
def authorizedKeysPath (host : Host) (user : String) : Option Path → Except String Path
  | some path => .ok path
  | none => authorizedKeysForUser host user

/-- At most one byte more than the limit is read, and it must be UTF-8. -/
def readAuthorizedKeys (path : Path) (data : Bytes) : Except String (List Char) :=
  let data := data.take (maxAuthorizedKeysSize + 1)
  match Utf8.decode data with
  | none => .error s!"read {path.display}"
  | some text =>
    if maxAuthorizedKeysSize < data.length then
      .error s!"{path.display} exceeds the {maxAuthorizedKeysSize} byte authorized_keys limit"
    else .ok text

inductive LineVerdict
  | next
  | accept
  | refuse (err : String)

variable {K : Type*}

/-- The candidate serializes, and to the same bytes (compared in constant time). -/
def matchesKey (keys : SshKeys K) (wanted : Bytes) (candidate : K) : Bool :=
  match keys.toBytes candidate with
  | .ok bytes => bytes == wanted
  | .error _ => false

/-- The loop's body on a trimmed line. A line that is no bare key may carry options before
one: it is parsed again from the first occurrence of the wanted key's algorithm. -/
def checkLine (keys : SshKeys K) (path : Path) (key : K) (wanted : Bytes) (line : List Char) :
    LineVerdict :=
  if line.isEmpty || line.head? == some '#' then .next
  else match keys.fromOpenssh line with
    | some candidate =>
      if isSupportedAlgorithm (keys.algorithm candidate) && matchesKey keys wanted candidate then
        .accept
      else .next
    | none =>
      match Text.findFrom ((keys.algorithm key).asStr.toList ++ [' ']) line with
      | none => .next
      | some candidateLine =>
        match keys.fromOpenssh candidateLine with
        | none => .next
        | some candidate =>
          if matchesKey keys wanted candidate then
            .refuse (s!"{path.display} contains options for a matching key; " ++
              "authorized_keys options are not supported yet")
          else .next

def scanLines (keys : SshKeys K) (path : Path) (key : K) (wanted : Bytes) :
    List (List Char) → Except String Bool
  | [] => .ok false
  | line :: rest =>
    match checkLine keys path key wanted (Text.trim line) with
    | .next => scanLines keys path key wanted rest
    | .accept => .ok true
    | .refuse err => .error err

/-- `is_authorized` once the file's text is there. -/
def searchText (keys : SshKeys K) (path : Path) (key : K) (text : List Char) :
    Except String Bool :=
  match keys.toBytes key with
  | .error _ => .error "serialize peer public key"
  | .ok wanted => scanLines keys path key wanted (Text.lines text)

def isAuthorized (keys : SshKeys K) (host : Host) (user : String) (key : K)
    (overridePath : Option Path) : Except String Bool :=
  match authorizedKeysPath host user overridePath with
  | .error err => .error err
  | .ok path =>
    match host.openFile path with
    | .notFound => .ok false
    | .openError => .error s!"open {path.display}"
    | .readError => .error s!"read {path.display}"
    | .bytes data =>
      match readAuthorizedKeys path data with
      | .error err => .error err
      | .ok text => searchText keys path key text

def canLoginAs (host : Host) (user : String) : Bool :=
  host.isRoot || user == host.currentUsername

end Hush.Auth
