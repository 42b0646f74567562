import Hush.Auth.AgentReply
import Hush.Auth.EcdsaKey
import Hush.Lib.Loop

/-!
# The key that a client presents

`load_identity_with_options` chooses between the keys of an ssh-agent and a private key file.
-/
namespace Hush.Auth.Identity
open Hush.Lib

def defaultIdentityFiles : List String := ["id_ed25519", "id_ecdsa"]

inductive AgentSocket
  | default
  | socket (path : Path)
  | disabled
  deriving DecidableEq, Repr

inductive Passphrase
  | prompt
  | refuse
  deriving DecidableEq, Repr

inductive IdentityKey
  | agent (socket : Path) (spkiDer : Bytes)
  | file (privateKeyDer : Bytes)
  deriving DecidableEq, Repr

structure LoadedIdentity (κ : Type) where
  publicKey : κ
  key : IdentityKey
  deriving DecidableEq, Repr

/-- The crates of the keys, with `κ` and `π` their public and private keys. `keyDer` is the PKCS#8
form of an Ed25519 or ECDSA key, and there is none of another; `plaintext` is the private section
behind the cipher. -/
structure Crates (κ π : Type) where
  keys : SshKeys κ
  fromBytes : Bytes → Option κ
  publicKeyToSpki : κ → Except String Bytes
  ecdsa : EcdsaKey.Crates κ
  privateFromOpenssh : Bytes → Except String π
  publicKey : π → κ
  isEncrypted : π → Bool
  decrypt : π → String → Except String π
  keyDer : π → Option (Except String Bytes)
  plaintext : π → String → Except String Bytes

/-- The files and the agents that the client finds, and the answers at its terminal. -/
structure Machine where
  authSock : Option Path
  sshDir : Path
  present : Path → Bool
  read : Path → Option Bytes
  readToString : Path → Option (List Char)
  agentAt : Path → Agent.Socket
  promptPassword : Path → Except String String

section
variable {κ π : Type} (c : Crates κ π) (m : Machine)

def AgentSocket.resolve : AgentSocket → Option Path
  | .default => m.authSock
  | .socket path => some path
  | .disabled => none

def supported (key : κ) : Bool := isSupportedAlgorithm (c.keys.algorithm key)

/-- The comparison of two byte strings is one in constant time. -/
def samePublicKey (a b : κ) : Except String Bool := do
  return (← c.keys.toBytes a) = (← c.keys.toBytes b)

def publicKeyPathForPrivateKey (path : Path) : Path := path ++ Path.ofString ".pub"

/-- The public key in a file, if it can be read and parsed. -/
def publicKeyAt (path : Path) : Option κ := (m.readToString path).bind c.keys.fromOpenssh

def preferredPublicKey : Option κ :=
  defaultIdentityFiles.findSome? fun name =>
    publicKeyAt c m (m.sshDir.join (Path.ofString (name ++ ".pub")))

/-- `list_agent_identities`, whose errors count as an agent that is not there. -/
def identitiesAt (socket : Path) : Option (List κ) :=
  match Agent.listAgentIdentities c.fromBytes socket.display (m.agentAt socket) with
  | .ok identities => some identities
  | .error _ => none

/-- The identity of a key that the agent signs with. -/
def agentIdentity (socket : Path) (key : κ) : Except String (LoadedIdentity κ) := do
  return ⟨key, .agent socket (← c.publicKeyToSpki key)⟩

def matchesPreferred (key : κ) : Option κ → Except String Bool
  | some preferred => samePublicKey c key preferred
  | none => .ok true

/-- The loop of `load_identity_from_agent`, with its fallback so far. -/
def preferredAmong (preferred : Option κ) : Option κ → List κ → Except String (Option κ)
  | fallback, [] => .ok fallback
  | fallback, key :: keys =>
    if supported c key then do
      if ← matchesPreferred c key preferred then return some key
      else preferredAmong preferred (fallback.or (some key)) keys
    else preferredAmong preferred fallback keys

/-- The first key that can be used and passes the test. -/
def usableAmong (test : κ → Except String Bool) : List κ → Except String (Option κ)
  | [] => .ok none
  | key :: keys =>
    if supported c key then do
      if ← test key then return some key else usableAmong test keys
    else usableAmong test keys

/-- The loop of `load_identity_from_agent_matching`. -/
def matchingAmong (preferred : κ) : List κ → Except String (Option κ) :=
  usableAmong c fun key => samePublicKey c key preferred

/-- The key that a loop has chosen, as an identity. -/
def withAgent (socket : Path) : Option κ → Except String (Option (LoadedIdentity κ))
  | some key => do return some (← agentIdentity c socket key)
  | none => .ok none

def loadIdentityFromAgent (socket : Path) : Except String (Option (LoadedIdentity κ)) :=
  match identitiesAt c m socket with
  | some identities => do
    withAgent c socket (← preferredAmong c (preferredPublicKey c m) none identities)
  | none => .ok none

def loadIdentityFromAgentMatching (socket : Path) (preferred : κ) :
    Except String (Option (LoadedIdentity κ)) :=
  match identitiesAt c m socket with
  | some identities => do withAgent c socket (← matchingAmong c preferred identities)
  | none => .ok none

def loadIdentityFromAgentMatchingFile (socket path : Path) :
    Except String (Option (LoadedIdentity κ)) :=
  match publicKeyAt c m (publicKeyPathForPrivateKey path) with
  | some preferred => loadIdentityFromAgentMatching c m socket preferred
  | none => .ok none

def identityFromPrivateKey (key : π) : Except String (LoadedIdentity κ) :=
  match c.keyDer key with
  | some der => do return ⟨c.publicKey key, .file (← der)⟩
  | none => .error ("unsupported SSH key type " ++ (c.keys.algorithm (c.publicKey key)).asStr ++
      "; hush supports Ed25519 and ECDSA (P-256/384/521)")

def isEcdsa : Algorithm → Bool
  | .ecdsa _ => true
  | _ => false

/-- An identity of the lenient parser. -/
def ofEcdsa (id : EcdsaKey.LoadedIdentity κ) : LoadedIdentity κ :=
  ⟨id.publicKey, .file id.privateKeyDer⟩

/-- Errors are given by their outermost message. -/
def loadIdentityFromFileWith (path : Path) (passphrase : Passphrase) :
    Except String (LoadedIdentity κ) :=
  match m.read path with
  | none => .error ("read OpenSSH private key " ++ path.display)
  | some pem =>
    match c.privateFromOpenssh pem with
    | .error _ =>
      match EcdsaKey.ecdsaIdentityFromUnencrypted c.ecdsa pem with
      | .ok id => .ok (ofEcdsa id)
      | .error _ => .error ("read OpenSSH private key " ++ path.display)
    | .ok key =>
      if !c.isEncrypted key then identityFromPrivateKey c key
      else if passphrase = .refuse then .error ("private key " ++ path.display ++ " is encrypted")
      else do
        let pass ← m.promptPassword path
        match c.decrypt key pass with
        | .ok decrypted => identityFromPrivateKey c decrypted
        | .error _ =>
          if isEcdsa (c.keys.algorithm (c.publicKey key)) then
            match c.plaintext key pass >>= EcdsaKey.ecdsaIdentityFromSection c.ecdsa with
            | .ok id => .ok (ofEcdsa id)
            | .error _ => .error ("decrypt private key " ++ path.display)
          else .error ("decrypt private key " ++ path.display)

/-- The first default file that is there, or the first of all. -/
def defaultIdentityFile : Path :=
  let paths := defaultIdentityFiles.map fun name => m.sshDir.join (Path.ofString name)
  (paths.find? m.present).getD (m.sshDir.join (Path.ofString "id_ed25519"))

/-- Where the agent gives no identity, the key of the file. -/
def orFile (found : Option (LoadedIdentity κ)) (path : Path) (passphrase : Passphrase) :
    Except String (LoadedIdentity κ) :=
  match found with
  | some id => .ok id
  | none => loadIdentityFromFileWith c m path passphrase

def loadIdentityWithOptions (identityFile : Option Path) (agent : AgentSocket)
    (passphrase : Passphrase) : Except String (LoadedIdentity κ) := do
  match identityFile, agent.resolve m with
  | some path, some socket =>
    orFile c m (← loadIdentityFromAgentMatchingFile c m socket path) path passphrase
  | some path, none => loadIdentityFromFileWith c m path passphrase
  | none, some socket =>
    orFile c m (← loadIdentityFromAgent c m socket) (defaultIdentityFile m) passphrase
  | none, none => loadIdentityFromFileWith c m (defaultIdentityFile m) passphrase

/-- The two keys have the same bytes. -/
def SameKey (a b : κ) : Prop := ∃ bytes, c.keys.toBytes a = .ok bytes ∧ c.keys.toBytes b = .ok bytes

/-- The agent at the socket lists a key of this kind that can be used. -/
def Offers (socket : Path) (kind : κ → Prop) : Prop :=
  ∃ identities, identitiesAt c m socket = some identities ∧
    ∃ key ∈ identities, supported c key = true ∧ kind key

/-- What a client takes that was given no file: the agent's key of the first default file with a
public key, and where the agent does not have it, the first key that can be used. -/
def Preferred (socket : Path) (key : κ) : Prop :=
  (∃ preferred, preferredPublicKey c m = some preferred ∧ SameKey c key preferred) ∨
  ((∀ preferred, preferredPublicKey c m = some preferred →
      ¬ Offers c m socket (SameKey c · preferred)) ∧
    ∃ identities, identitiesAt c m socket = some identities ∧
      identities.find? (supported c) = some key)

/-- The identity is a key that the agent at the socket lists, and can be used. -/
structure OfAgent (socket : Path) (id : LoadedIdentity κ) : Prop where
  listed : ∃ identities, identitiesAt c m socket = some identities ∧ id.publicKey ∈ identities
  usable : supported c id.publicKey = true
  key : ∃ spkiDer, c.publicKeyToSpki id.publicKey = .ok spkiDer ∧ id.key = .agent socket spkiDer

end

variable {κ π : Type} {c : Crates κ π} {m : Machine} {socket path : Path} {passphrase : Passphrase}
  {keys : List κ} {a b preferred : κ} {found : Option κ} {id : LoadedIdentity κ}

theorem samePublicKey_ok {same : Bool} (h : samePublicKey c a b = .ok same) :
    same = true ↔ SameKey c a b := by
  unfold samePublicKey at h
  cases ha : c.keys.toBytes a with
  | error e =>
    rw [ha] at h
    cases h
  | ok bytes =>
    cases hb : c.keys.toBytes b with
    | error e =>
      rw [ha, hb] at h
      cases h
    | ok bytes' =>
      rw [ha, hb] at h
      cases h
      simp only [SameKey, ha, hb, Except.ok.injEq, decide_eq_true_eq]
      exact ⟨fun heq => ⟨bytes', heq, rfl⟩, fun ⟨_, h₁, h₂⟩ => h₁.trans h₂.symm⟩

theorem usableAmong_ok {test : κ → Except String Bool} (h : usableAmong c test keys = .ok found) :
    (∃ key ∈ keys, found = some key ∧ supported c key = true ∧ test key = .ok true) ∨
    (found = none ∧ ∀ key ∈ keys, supported c key = true → test key = .ok false) := by
  induction keys with
  | nil =>
    cases h
    exact Or.inr ⟨rfl, by simp⟩
  | cons key keys ih =>
    unfold usableAmong at h
    by_cases hkey : supported c key = true
    · rw [if_pos hkey] at h
      cases htest : test key with
      | error e =>
        rw [htest] at h
        cases h
      | ok passes =>
        rw [htest] at h
        cases passes with
        | true =>
          cases h
          exact Or.inl ⟨key, List.mem_cons_self, rfl, hkey, htest⟩
        | false =>
          obtain ⟨key', hmem, hfound⟩ | ⟨hfound, hnone⟩ := ih h
          · exact Or.inl ⟨key', List.mem_cons_of_mem _ hmem, hfound⟩
          · exact Or.inr ⟨hfound, List.forall_mem_cons.mpr ⟨fun _ => htest, hnone⟩⟩
    · rw [if_neg hkey] at h
      obtain ⟨key', hmem, hfound⟩ | ⟨hfound, hnone⟩ := ih h
      · exact Or.inl ⟨key', List.mem_cons_of_mem _ hmem, hfound⟩
      · refine Or.inr ⟨hfound, ?_⟩
        exact List.forall_mem_cons.mpr ⟨fun hkey' => absurd hkey' hkey, hnone⟩

/-- Where every key passes, the choice is the first that can be used. -/
theorem usableAmong_true (keys : List κ) :
    usableAmong c (fun _ => .ok true) keys = .ok (keys.find? (supported c)) := by
  induction keys with
  | nil => rfl
  | cons key keys ih =>
    unfold usableAmong
    by_cases hkey : supported c key = true
    · rw [if_pos hkey, List.find?_cons_of_pos hkey]
      rfl
    · rw [if_neg hkey, List.find?_cons_of_neg hkey]
      exact ih

/-- The loop with a fallback is the one without, and then the first key that can be used. -/
theorem preferredAmong_eq (preferred fallback : Option κ) (keys : List κ) :
    preferredAmong c preferred fallback keys = (do
      let found ← usableAmong c (matchesPreferred c · preferred) keys
      return found.or (fallback.or (keys.find? (supported c)))) := by
  induction keys generalizing fallback with
  | nil =>
    rw [List.find?_nil, Option.or_none]
    rfl
  | cons key keys ih =>
    unfold preferredAmong usableAmong
    by_cases hkey : supported c key = true
    · rw [if_pos hkey, if_pos hkey, List.find?_cons_of_pos hkey]
      cases hmatch : matchesPreferred c key preferred with
      | error e => rfl
      | ok same =>
        cases same with
        | true => rfl
        | false =>
          refine (ih _).trans ?_
          rw [Option.or_assoc, Option.some_or]
          rfl
    · rw [if_neg hkey, if_neg hkey, List.find?_cons_of_neg hkey]
      exact ih fallback

/-- A key that the agent lists, as it is chosen from the list. -/
theorem OfAgent.of_chosen {key : κ} (hlist : identitiesAt c m socket = some keys)
    (hmem : key ∈ keys) (hkey : supported c key = true)
    (h : agentIdentity c socket key = .ok id) : OfAgent c m socket id ∧ id.publicKey = key := by
  unfold agentIdentity at h
  cases hspki : c.publicKeyToSpki key with
  | error e =>
    rw [hspki] at h
    cases h
  | ok spkiDer =>
    rw [hspki] at h
    cases h
    exact ⟨⟨⟨keys, hlist, hmem⟩, hkey, spkiDer, hspki, rfl⟩, rfl⟩

theorem withAgent_some {key : κ} {result : Option (LoadedIdentity κ)}
    (h : withAgent c socket (some key) = .ok result) :
    ∃ id, result = some id ∧ agentIdentity c socket key = .ok id := by
  obtain ⟨id, hid, h⟩ := bind_ok h
  cases h
  exact ⟨id, rfl, hid⟩

/-- An agent that cannot be asked offers nothing. -/
theorem not_offers_of_none {kind : κ → Prop} (hlist : identitiesAt c m socket = none) :
    ¬ Offers c m socket kind := by
  rintro ⟨keys, hkeys, -⟩
  cases hlist.symm.trans hkeys

theorem loadIdentityFromAgentMatching_ok {result : Option (LoadedIdentity κ)}
    (h : loadIdentityFromAgentMatching c m socket preferred = .ok result) :
    (∃ id, result = some id ∧ OfAgent c m socket id ∧ SameKey c id.publicKey preferred) ∨
      (result = none ∧ ¬ Offers c m socket (SameKey c · preferred)) := by
  unfold loadIdentityFromAgentMatching at h
  cases hlist : identitiesAt c m socket with
  | none =>
    rw [hlist] at h
    cases h
    exact Or.inr ⟨rfl, not_offers_of_none hlist⟩
  | some keys =>
    rw [hlist] at h
    obtain ⟨found, hfound, h⟩ := bind_ok h
    obtain ⟨key, hmem, rfl, hkey, hsame⟩ | ⟨rfl, hnone⟩ := usableAmong_ok hfound
    · obtain ⟨id, rfl, hid⟩ := withAgent_some h
      obtain ⟨hof, rfl⟩ := OfAgent.of_chosen hlist hmem hkey hid
      exact Or.inl ⟨id, rfl, hof, (samePublicKey_ok hsame).mp rfl⟩
    · cases h
      refine Or.inr ⟨rfl, ?_⟩
      rintro ⟨keys', hkeys', key, hmem, hkey, hsame⟩
      cases hlist.symm.trans hkeys'
      have htrue := (samePublicKey_ok (hnone key hmem hkey)).mpr hsame
      cases htrue

/-- The key that the loop with a preferred key ends with. -/
theorem preferredAmong_ok (hlist : identitiesAt c m socket = some keys)
    (h : preferredAmong c (preferredPublicKey c m) none keys = .ok found) :
    (∃ key ∈ keys, found = some key ∧ supported c key = true ∧ Preferred c m socket key) ∨
    (found = none ∧ ∀ key ∈ keys, ¬ supported c key = true) := by
  rw [preferredAmong_eq] at h
  obtain ⟨first, hfirst, h⟩ := bind_ok h
  cases h
  cases hpreferred : preferredPublicKey c m with
  | none =>
    rw [hpreferred] at hfirst
    cases (usableAmong_true keys).symm.trans hfirst
    rw [Option.none_or, Option.or_self]
    cases hfind : keys.find? (supported c) with
    | none => exact Or.inr ⟨rfl, List.find?_eq_none.mp hfind⟩
    | some key =>
      refine Or.inl ⟨key, List.mem_of_find?_eq_some hfind, rfl, List.find?_some hfind, Or.inr ?_⟩
      exact ⟨by simp [hpreferred], keys, hlist, hfind⟩
  | some preferred =>
    rw [hpreferred] at hfirst
    obtain ⟨key, hmem, rfl, hkey, hsame⟩ | ⟨rfl, hnone⟩ := usableAmong_ok hfirst
    · exact Or.inl ⟨key, hmem, rfl, hkey,
        Or.inl ⟨preferred, hpreferred, (samePublicKey_ok hsame).mp rfl⟩⟩
    · -- no key matches, so the first one is taken, if there is one
      rw [Option.none_or, Option.none_or]
      cases hfind : keys.find? (supported c) with
      | none => exact Or.inr ⟨rfl, List.find?_eq_none.mp hfind⟩
      | some key =>
        refine Or.inl ⟨key, List.mem_of_find?_eq_some hfind, rfl, List.find?_some hfind, Or.inr ?_⟩
        refine ⟨?_, keys, hlist, hfind⟩
        rintro preferred' hpreferred' ⟨keys', hkeys', other, hmem, hother, hsame⟩
        cases hlist.symm.trans hkeys'
        cases hpreferred.symm.trans hpreferred'
        have htrue := (samePublicKey_ok (hnone other hmem hother)).mpr hsame
        cases htrue

theorem loadIdentityFromAgent_ok {result : Option (LoadedIdentity κ)}
    (h : loadIdentityFromAgent c m socket = .ok result) :
    (∃ id, result = some id ∧ OfAgent c m socket id ∧ Preferred c m socket id.publicKey) ∨
    (result = none ∧ ¬ Offers c m socket fun _ => True) := by
  unfold loadIdentityFromAgent at h
  cases hlist : identitiesAt c m socket with
  | none =>
    rw [hlist] at h
    cases h
    exact Or.inr ⟨rfl, not_offers_of_none hlist⟩
  | some keys =>
    rw [hlist] at h
    obtain ⟨found, hfound, h⟩ := bind_ok h
    obtain ⟨key, hmem, rfl, hkey, hpreferred⟩ | ⟨rfl, hnone⟩ := preferredAmong_ok hlist hfound
    · obtain ⟨id, rfl, hid⟩ := withAgent_some h
      obtain ⟨hof, rfl⟩ := OfAgent.of_chosen hlist hmem hkey hid
      exact Or.inl ⟨id, rfl, hof, hpreferred⟩
    · cases h
      refine Or.inr ⟨rfl, ?_⟩
      rintro ⟨keys', hkeys', key, hmem, hkey, -⟩
      cases hlist.symm.trans hkeys'
      exact hnone key hmem hkey

theorem identityFromPrivateKey_file {key : π} (h : identityFromPrivateKey c key = .ok id) :
    ∃ der, id.key = .file der := by
  unfold identityFromPrivateKey at h
  split at h
  · obtain ⟨der, -, h⟩ := bind_ok h
    cases h
    exact ⟨der, rfl⟩
  · cases h

/-- A file gives a private key and no agent. -/
theorem loadIdentityFromFileWith_file (h : loadIdentityFromFileWith c m path passphrase = .ok id) :
    ∃ der, id.key = .file der := by
  unfold loadIdentityFromFileWith at h
  split at h
  · cases h
  · split at h
    · split at h
      · cases h
        exact ⟨_, rfl⟩
      · cases h
    · split at h
      · exact identityFromPrivateKey_file h
      · split at h
        · cases h
        · obtain ⟨pass, -, h⟩ := bind_ok h
          split at h
          · exact identityFromPrivateKey_file h
          · split at h
            · split at h
              · cases h
                exact ⟨_, rfl⟩
              · cases h
            · cases h

/-- The identity is a key of the agent: for a file, the one whose public key is beside the file, and
without a file the preferred one. -/
def AgentsKey (c : Crates κ π) (m : Machine) (identityFile : Option Path) (agent : AgentSocket)
    (id : LoadedIdentity κ) : Prop :=
  ∃ socket, agent.resolve m = some socket ∧ OfAgent c m socket id ∧
    (∀ path, identityFile = some path →
      ∃ beside, publicKeyAt c m (publicKeyPathForPrivateKey path) = some beside ∧
        SameKey c id.publicKey beside) ∧
    (identityFile = none → Preferred c m socket id.publicKey)

/-- The identity is the key of the file that was asked for or of the default one, as the agent does
not have the former, or has no key at all that can be used. -/
def FilesKey (c : Crates κ π) (m : Machine) (identityFile : Option Path) (agent : AgentSocket)
    (passphrase : Passphrase) (id : LoadedIdentity κ) : Prop :=
  (∃ der, id.key = .file der) ∧
    loadIdentityFromFileWith c m (identityFile.getD (defaultIdentityFile m)) passphrase = .ok id ∧
    ∀ socket, agent.resolve m = some socket →
      (∀ path beside, identityFile = some path →
        publicKeyAt c m (publicKeyPathForPrivateKey path) = some beside →
          ¬ Offers c m socket (SameKey c · beside)) ∧
      (identityFile = none → ¬ Offers c m socket fun _ => True)

/-- Keys of one byte, all of them Ed25519, and no private keys. -/
def oneByteKeys : Crates UInt8 Empty where
  keys := ⟨fun _ => none, fun key => .ok [key], fun _ => .ed25519, fun _ _ => none⟩
  fromBytes bytes := bytes.head?
  publicKeyToSpki key := .ok [0, key]
  ecdsa := ⟨Base64.standard, fun _ _ => .error "", fun _ => none⟩
  privateFromOpenssh _ := .error ""
  publicKey := Empty.elim
  isEncrypted := Empty.elim
  decrypt := Empty.elim
  keyDer := Empty.elim
  plaintext := Empty.elim

/-- A machine with an agent that lists one key, and no files. -/
def agentOnly : Machine where
  authSock := some (Path.ofString "/agent")
  sshDir := Path.ofString "/home/u/.ssh"
  present _ := false
  read _ := none
  readToString _ := none
  agentAt _ := ⟨.ok (), fun _ => .ok (), Wire.str (Agent.answer [([7], [])]), ""⟩
  promptPassword _ := .error ""

end Hush.Auth.Identity
