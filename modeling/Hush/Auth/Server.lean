import Hush.Auth.KeyLine

/-! Who may log in: config validation, the allow list, the login check and the key's file. -/
namespace Hush.Auth
open Hush.Lib

/-- The part of the server's configuration that authentication reads. -/
structure ServerRuntimeConfig where
  authorizedKeysPath : Option Path
  allowUsers : List String
  deriving DecidableEq, Repr

def ServerRuntimeConfig.validate (config : ServerRuntimeConfig) (runningAsRoot : Bool) :
    Except String Unit :=
  if runningAsRoot && config.authorizedKeysPath.isSome && config.allowUsers.isEmpty then
    .error "a root server using authorized_keys_path must set allow_users (or --allow-user)"
  else .ok ()

/-- A connection whose peer has presented a TLS key and claimed a user. -/
structure PendingConnection (Conn Addr K : Type*) where
  conn : Conn
  peerKey : K
  claimedUser : String
  config : ServerRuntimeConfig
  serverAddr : Addr

structure AuthenticatedConnection (Conn Addr : Type*) where
  conn : Conn
  user : String
  config : ServerRuntimeConfig
  serverAddr : Addr

/-- The code and reason the connection is closed with, and the error returned. -/
structure Rejection where
  code : Nat
  reason : String
  err : String
  deriving DecidableEq, Repr

def authFailureMessage : String := "unauthorized"

variable {Conn Addr K : Type*}

def checkAuthorization (keys : SshKeys K) (host : Host)
    (pending : PendingConnection Conn Addr K) (user : String) : Except String Unit :=
  if !pending.config.allowUsers.isEmpty && !pending.config.allowUsers.any (· == user) then
    .error "user is not allowed by server config"
  else if !canLoginAs host user then
    .error s!"server is not root and requested user differs from {host.currentUsername}"
  else match isAuthorized keys host user pending.peerKey pending.config.authorizedKeysPath with
    | .ok true => .ok ()
    | .ok false => .error "public key is not authorized"
    | .error err => .error err

/-- The reason for a rejection is logged but never sent to the peer. -/
def PendingConnection.authenticate (keys : SshKeys K) (host : Host)
    (pending : PendingConnection Conn Addr K) :
    Except Rejection (AuthenticatedConnection Conn Addr) :=
  match checkAuthorization keys host pending pending.claimedUser with
  | .error _ => .error ⟨0, authFailureMessage, authFailureMessage⟩
  | .ok () => .ok ⟨pending.conn, pending.claimedUser, pending.config, pending.serverAddr⟩

/-- Some line, trimmed and no comment, is as a whole a bare key of a supported algorithm
with these bytes. -/
def HasKeyLine (keys : SshKeys K) (text : List Char) (blob : Bytes) : Prop :=
  ∃ line ∈ Text.lines text, Text.trim line ≠ [] ∧ (Text.trim line).head? ≠ some '#' ∧
    ∃ algorithm base64, isSupportedAlgorithm algorithm = true ∧
      IsKeyLine algorithm base64 (Text.trim line) ∧ keys.decodeKey algorithm base64 = some blob

/-- The file is there, readable, within the limit and UTF-8, and has such a line. -/
def Lists (keys : SshKeys K) (host : Host) (path : Path) (blob : Bytes) : Prop :=
  ∃ data text, host.openFile path = .bytes data ∧ data.length ≤ maxAuthorizedKeysSize ∧
    Utf8.decode data = some text ∧ HasKeyLine keys text blob

variable {keys : SshKeys K} {host : Host} {path : Path} {key candidate : K} {wanted : Bytes}
  {text line : List Char} {lines : List (List Char)} {user : String}
  {pending : PendingConnection Conn Addr K}

theorem toBytes_of_matchesKey (h : matchesKey keys wanted candidate = true) :
    keys.toBytes candidate = .ok wanted := by
  unfold matchesKey at h
  split at h
  · next bytes hb =>
    rw [hb, beq_iff_eq.mp h]
  · cases h

theorem checkLine_accept (h : checkLine keys path key wanted line = .accept) :
    line ≠ [] ∧ line.head? ≠ some '#' ∧ ∃ candidate, keys.fromOpenssh line = some candidate ∧
      isSupportedAlgorithm (keys.algorithm candidate) = true ∧
      keys.toBytes candidate = .ok wanted := by
  unfold checkLine at h
  split at h
  · cases h
  · next hskip =>
    have hline : line ≠ [] ∧ line.head? ≠ some '#' := by
      constructor
      · intro he
        simp [he] at hskip
      · intro he
        simp [he] at hskip
    refine ⟨hline.1, hline.2, ?_⟩
    split at h
    · next candidate hc =>
      split at h
      · next hm =>
        rw [Bool.and_eq_true] at hm
        exact ⟨candidate, hc, hm.1, toBytes_of_matchesKey hm.2⟩
      · cases h
    · -- a line with options is passed over or refused
      split at h
      · cases h
      · split at h
        · cases h
        · split at h <;> cases h

theorem scanLines_true (h : scanLines keys path key wanted lines = .ok true) :
    ∃ line ∈ lines, checkLine keys path key wanted (Text.trim line) = .accept := by
  induction lines with
  | nil => cases h
  | cons line rest ih =>
    simp only [scanLines] at h
    split at h
    · obtain ⟨line', hmem, hv⟩ := ih h
      exact ⟨line', List.mem_cons_of_mem _ hmem, hv⟩
    · next hv => exact ⟨line, List.mem_cons_self, hv⟩
    · cases h

theorem searchText_true (hk : keys.Lawful) (h : searchText keys path key text = .ok true) :
    ∃ blob, keys.toBytes key = .ok blob ∧ HasKeyLine keys text blob := by
  unfold searchText at h
  split at h
  · cases h
  · next wanted hw =>
    obtain ⟨line, hmem, hv⟩ := scanLines_true h
    obtain ⟨hne, hcomment, candidate, hparse, halg, hbytes⟩ := checkLine_accept hv
    obtain ⟨base64, blob, hline, hdecode, hblob⟩ := hk.sound _ _ hparse
    rw [hbytes, Except.ok.injEq] at hblob
    subst hblob
    exact ⟨wanted, hw, line, hmem, hne, hcomment, _, base64, halg, hline, hdecode⟩

/-- A file is read if it is not too large and is UTF-8. -/
theorem readAuthorizedKeys_ok_iff {data : Bytes} :
    readAuthorizedKeys path data = .ok text ↔
      data.length ≤ maxAuthorizedKeysSize ∧ Utf8.decode data = some text := by
  constructor
  · intro h
    unfold readAuthorizedKeys at h
    simp only at h
    split at h
    · cases h
    · next decoded hd =>
      split at h
      · cases h
      · next hlen =>
        cases h
        have hle : data.length ≤ maxAuthorizedKeysSize := by
          rw [List.length_take] at hlen
          omega
        rw [List.take_of_length_le (by omega)] at hd
        exact ⟨hle, hd⟩
  · rintro ⟨hle, hd⟩
    have hlen : ¬ maxAuthorizedKeysSize < data.length := Nat.not_lt.mpr hle
    simp only [readAuthorizedKeys, List.take_of_length_le (Nat.le_succ_of_le hle), hd, if_neg hlen]

theorem isAuthorized_true (hk : keys.Lawful) {overridePath : Option Path}
    (h : isAuthorized keys host user key overridePath = .ok true) :
    ∃ path blob, authorizedKeysPath host user overridePath = .ok path ∧
      keys.toBytes key = .ok blob ∧ Lists keys host path blob := by
  unfold isAuthorized at h
  split at h
  · cases h
  · next path hpath =>
    split at h
    · cases h
    · cases h
    · cases h
    · next data hdata =>
      split at h
      · cases h
      · next text htext =>
        obtain ⟨hlen, hdecode⟩ := readAuthorizedKeys_ok_iff.mp htext
        obtain ⟨blob, hblob, hlist⟩ := searchText_true hk h
        exact ⟨path, blob, hpath, hblob, data, text, hdata, hlen, hdecode, hlist⟩

theorem checkAuthorization_ok
    (h : checkAuthorization keys host pending user = .ok ()) :
    (pending.config.allowUsers = [] ∨ user ∈ pending.config.allowUsers) ∧
    (host.isRoot = true ∨ user = host.currentUsername) ∧
    isAuthorized keys host user pending.peerKey pending.config.authorizedKeysPath = .ok true := by
  unfold checkAuthorization at h
  split at h
  · cases h
  · next hallow =>
    split at h
    · cases h
    · next hlogin =>
      have hallowed : pending.config.allowUsers = [] ∨ user ∈ pending.config.allowUsers := by
        by_cases he : pending.config.allowUsers = []
        · exact Or.inl he
        · simp [he] at hallow
          exact Or.inr hallow
      have hmay : host.isRoot = true ∨ user = host.currentUsername := by
        cases hroot : host.isRoot with
        | true => exact Or.inl rfl
        | false => exact Or.inr (by simpa [canLoginAs, hroot] using hlogin)
      refine ⟨hallowed, hmay, ?_⟩
      split at h
      · next hok => exact hok
      · cases h
      · cases h

theorem validate_ok {config : ServerRuntimeConfig} (h : config.validate true = .ok ())
    (hp : config.authorizedKeysPath ≠ none) : config.allowUsers ≠ [] := by
  intro he
  have hsome : config.authorizedKeysPath.isSome = true := Option.isSome_iff_ne_none.mpr hp
  simp [ServerRuntimeConfig.validate, hsome, he] at h

/-- Authentication is sound: who is let in is the claimed user, whom the allow list and the
login check permit, and the file consulted lists the peer's key on a line of its own. Under
a root server's shared file that user is named in the allow list. Every other outcome is the
one rejection. -/
theorem authenticate_sound (hk : keys.Lawful)
    (hv : pending.config.validate host.isRoot = .ok ()) :
    (∀ conn, pending.authenticate keys host = .ok conn →
      conn.user = pending.claimedUser ∧
      (pending.config.allowUsers = [] ∨ conn.user ∈ pending.config.allowUsers) ∧
      (host.isRoot = true ∨ conn.user = host.currentUsername) ∧
      (∃ path blob,
        authorizedKeysPath host conn.user pending.config.authorizedKeysPath = .ok path ∧
        keys.toBytes pending.peerKey = .ok blob ∧ Lists keys host path blob) ∧
      (host.isRoot = true → pending.config.authorizedKeysPath ≠ none →
        conn.user ∈ pending.config.allowUsers)) ∧
    (∀ rejection, pending.authenticate keys host = .error rejection →
      rejection = ⟨0, "unauthorized", "unauthorized"⟩) := by
  unfold PendingConnection.authenticate
  split
  · refine ⟨nofun, ?_⟩
    intro rejection he
    cases he
    rfl
  · next hcheck =>
    refine ⟨?_, nofun⟩
    intro conn he
    cases he
    obtain ⟨hallow, hlogin, hauth⟩ := checkAuthorization_ok hcheck
    refine ⟨rfl, hallow, hlogin, isAuthorized_true hk hauth, ?_⟩
    intro hroot hpath
    rw [hroot] at hv
    exact hallow.resolve_left (validate_ok hv hpath)

/-- A root server that shares one file with one key between the users it allows. -/
def sharedHost : Host where
  isRoot := true
  currentUsername := "root"
  homeForUser := fun _ => .ok none
  openFile := fun _ => .bytes (Utf8.encode ("# keys\nssh-ed25519 " ++
    "AAAAC3NzaC1lZDI1NTE5AAAAIAcHBwcHBwcHBwcHBwcHBwcHBwcHBwcHBwcHBwcHBwcH" ++
    " alice@laptop\n").toList)

def alice : PendingConnection Unit Unit KeyLine.PublicKey where
  conn := ()
  peerKey := ⟨.ed25519,
    [0, 0, 0, 11, 115, 115, 104, 45, 101, 100, 50, 53, 53, 49, 57, 0, 0, 0, 32] ++
      List.replicate 32 7, []⟩
  claimedUser := "alice"
  config := ⟨some (Path.ofString "/etc/hush/authorized_keys"), ["alice", "bob"]⟩
  serverAddr := ()

theorem authenticate_sound_alice :
    ∃ conn, alice.authenticate KeyLine.keys sharedHost = .ok conn ∧
      conn.user ∈ alice.config.allowUsers := by
  have hok : alice.authenticate KeyLine.keys sharedHost =
      .ok ⟨(), "alice", alice.config, ()⟩ := by
    rfl
  have hvalid : alice.config.validate sharedHost.isRoot = .ok () := rfl
  have hsound := authenticate_sound KeyLine.keys_lawful hvalid
  exact ⟨_, hok, (hsound.1 _ hok).2.2.2.2 rfl (by decide)⟩

end Hush.Auth
