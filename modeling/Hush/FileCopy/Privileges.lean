import Hush.Lib.Credentials
import Hush.Lib.Loop
import Hush.Lib.UnixPath

/-!
# The worker becomes the user

A root server runs copies for other users in a worker, which is the server's program again. It
becomes the user before it reads its request.
-/
namespace Hush.FileCopy.Privileges
open Hush.Lib

structure UserInfo where
  uid : UInt32
  gid : UInt32
  home : Path
  deriving DecidableEq, Repr

/-- The accounts of the machine, with the groups that `initgroups` finds, and what else the kernel
may refuse a permitted call for. -/
structure Machine where
  userInfoForUser : String → Except String (Option UserInfo)
  groups : String → UInt32 → List UInt32
  refuses : Credentials.Call → Option String
  setCurrentDir : Path → Except String Unit

def Machine.call (m : Machine) (name : String) (c : Credentials) (call : Credentials.Call) :
    Except String Credentials :=
  match m.refuses call, c.apply call with
  | some err, _ => .error s!"{name} failed: {err}"
  | none, none => .error s!"{name} failed: Operation not permitted (os error 1)"
  | none, some c => .ok c

def Machine.dropPrivilegesToUser (m : Machine) (user : String) (c : Credentials) :
    Except String (UserInfo × Credentials) :=
  match m.userInfoForUser user with
  | .error err => .error err
  | .ok none => .error "unknown user"
  | .ok (some info) =>
    if c.euid ≠ 0 then
      if c.euid ≠ info.uid then .error s!"cannot switch from uid {c.euid} to uid {info.uid}"
      else .ok (info, c)
    else if user.toList.contains '\x00' then .error "username contains NUL"
    else do
      let c ← m.call "initgroups" c (.setgroups (m.groups user info.gid))
      let c ← m.call "setgid" c (.setgid info.gid)
      let c ← m.call "setuid" c (.setuid info.uid)
      if c.euid ≠ info.uid || c.egid ≠ info.gid then
        .error "privilege drop did not take effect"
      else .ok (info, c)

/-- `main` with the worker's arguments: the credentials under which it runs `run_worker`. -/
def Machine.workerMain (m : Machine) (args : List String) (c : Credentials) :
    Except String (UserInfo × Credentials) :=
  match args with
  | [] => .error "missing worker user"
  | [user] => do
    let (info, c) ← m.dropPrivilegesToUser user c
    m.setCurrentDir info.home
    return (info, c)
  | _ => .error "unexpected file-copy worker argument"

variable {m : Machine} {user name : String} {c d : Credentials} {info : UserInfo}
  {call : Credentials.Call}

/-- What goes on behind a call starts from the credentials that the call gives. -/
theorem call_bind_ok {β : Type} {f : Credentials → Except String β} {y : β}
    (h : (m.call name c call >>= f) = .ok y) : ∃ d, c.apply call = some d ∧ f d = .ok y := by
  obtain ⟨d, hcall, h⟩ := bind_ok h
  unfold Machine.call at hcall
  split at hcall
  · cases hcall
  · cases hcall
  · next hd =>
    cases hcall
    exact ⟨d, hd, h⟩

theorem call_bind_eq {β : Type} {f : Credentials → Except String β}
    (hrefuses : m.refuses call = none) (hcall : c.apply call = some d) :
    (m.call name c call >>= f) = f d := by
  simp only [Machine.call, hrefuses, hcall]
  rfl

/-- The three calls of the superuser, in their order. -/
theorem apply_superuser (hroot : c.euid = 0) (uid gid : UInt32) (groups : List UInt32) :
    c.apply (.setgroups groups) = some { c with groups := groups } ∧
    ({ c with groups := groups } : Credentials).apply (.setgid gid) =
      some { c with rgid := gid, egid := gid, sgid := gid, groups := groups } ∧
    ({ c with rgid := gid, egid := gid, sgid := gid, groups := groups } : Credentials).apply
      (.setuid uid) = some (.settled uid gid groups) := by
  simp [Credentials.apply, Credentials.privileged, Credentials.settled, hroot]

/-- The process is the user's: one that was the superuser's has become the user for good, and
another one was the user's before. -/
structure Becomes (m : Machine) (user : String) (info : UserInfo) (c d : Credentials) : Prop where
  known : m.userInfoForUser user = .ok (some info)
  dropped : c.euid = 0 → d = .settled info.uid info.gid (m.groups user info.gid)
  own : c.euid ≠ 0 → d = c ∧ c.euid = info.uid

theorem dropPrivilegesToUser_ok (h : m.dropPrivilegesToUser user c = .ok (info, d)) :
    Becomes m user info c d := by
  unfold Machine.dropPrivilegesToUser at h
  split at h
  · cases h
  · cases h
  · next found hfound =>
    split at h
    · next huser =>
      split at h
      · cases h
      · next hown =>
        cases h
        exact ⟨hfound, fun hroot => absurd hroot huser, fun _ => ⟨rfl, not_not.mp hown⟩⟩
    · next hroot =>
      have hroot : c.euid = 0 := not_not.mp hroot
      obtain ⟨hgroups, hgid, huid⟩ :=
        apply_superuser hroot found.uid found.gid (m.groups user found.gid)
      split at h
      · cases h
      · obtain ⟨c₁, h₁, h⟩ := call_bind_ok h
        cases hgroups.symm.trans h₁
        obtain ⟨c₂, h₂, h⟩ := call_bind_ok h
        cases hgid.symm.trans h₂
        obtain ⟨c₃, h₃, h⟩ := call_bind_ok h
        cases huid.symm.trans h₃
        split at h
        · cases h
        · cases h
          exact ⟨hfound, fun _ => rfl, fun hne => absurd hroot hne⟩

/-- The order of the calls is one that works: none of them takes the right to the next. -/
theorem dropPrivilegesToUser_eq (hroot : c.euid = 0)
    (hinfo : m.userInfoForUser user = .ok (some info)) (hname : '\x00' ∉ user.toList)
    (hrefuses : ∀ call, m.refuses call = none) :
    m.dropPrivilegesToUser user c =
      .ok (info, .settled info.uid info.gid (m.groups user info.gid)) := by
  obtain ⟨hgroups, hgid, huid⟩ :=
    apply_superuser hroot info.uid info.gid (m.groups user info.gid)
  have hnul : ¬ user.toList.contains '\x00' = true := by simpa using hname
  unfold Machine.dropPrivilegesToUser
  rw [hinfo]
  dsimp only
  rw [if_neg (not_not.mpr hroot), if_neg hnul, call_bind_eq (hrefuses _) hgroups,
    call_bind_eq (hrefuses _) hgid, call_bind_eq (hrefuses _) huid]
  simp [Credentials.settled]

end Hush.FileCopy.Privileges
