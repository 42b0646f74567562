import Hush.Lib.Trace

/-!
# The user and the groups of a process

The identifiers that a Unix process has, and the calls that change them.
-/
namespace Hush.Lib

/-- Real, effective and saved identifiers, and the supplementary groups. -/
structure Credentials where
  ruid : UInt32
  euid : UInt32
  suid : UInt32
  rgid : UInt32
  egid : UInt32
  sgid : UInt32
  groups : List UInt32
  deriving DecidableEq, Repr

namespace Credentials

inductive Call
  | setuid (uid : UInt32)
  | setresuid (ruid euid suid : UInt32)
  | setgid (gid : UInt32)
  | setresgid (rgid egid sgid : UInt32)
  | setgroups (groups : List UInt32)
  deriving DecidableEq, Repr

/-- The process is one of the superuser. -/
def privileged (c : Credentials) : Bool := c.euid == 0

def hasUid (c : Credentials) (uid : UInt32) : Bool :=
  uid == c.ruid || uid == c.euid || uid == c.suid

def hasGid (c : Credentials) (gid : UInt32) : Bool :=
  gid == c.rgid || gid == c.egid || gid == c.sgid

/-- The credentials after a call, or none where the process is not permitted to make it. -/
def apply (c : Credentials) : Call → Option Credentials
  | .setuid uid =>
    if c.privileged then some { c with ruid := uid, euid := uid, suid := uid }
    else if uid == c.ruid || uid == c.suid then some { c with euid := uid }
    else none
  | .setresuid ruid euid suid =>
    if c.privileged || (c.hasUid ruid && c.hasUid euid && c.hasUid suid) then
      some { c with ruid := ruid, euid := euid, suid := suid }
    else none
  | .setgid gid =>
    if c.privileged then some { c with rgid := gid, egid := gid, sgid := gid }
    else if gid == c.rgid || gid == c.sgid then some { c with egid := gid }
    else none
  | .setresgid rgid egid sgid =>
    if c.privileged || (c.hasGid rgid && c.hasGid egid && c.hasGid sgid) then
      some { c with rgid := rgid, egid := egid, sgid := sgid }
    else none
  | .setgroups groups => if c.privileged then some { c with groups := groups } else none

/-- A call either takes effect or changes nothing. -/
inductive Step : Credentials → Call → Credentials → Prop
  | succeeds {c d : Credentials} {call : Call} (h : c.apply call = some d) : Step c call d
  | fails {c : Credentials} {call : Call} : Step c call c

/-- A process that is the user and the group and nothing else. -/
def settled (uid gid : UInt32) (groups : List UInt32) : Credentials :=
  ⟨uid, uid, uid, gid, gid, gid, groups⟩

variable {uid gid : UInt32} {groups : List UInt32} {c d : Credentials} {call : Call}
  {calls : List Call}

@[simp] theorem privileged_settled : (settled uid gid groups).privileged = (uid == 0) := rfl

@[simp] theorem hasUid_settled {u : UInt32} :
    (settled uid gid groups).hasUid u = (u == uid) := by
  simp [hasUid, settled]

@[simp] theorem hasGid_settled {g : UInt32} :
    (settled uid gid groups).hasGid g = (g == gid) := by
  simp [hasGid, settled]

/-- An ordinary user has no call that makes it anyone else. -/
theorem settled_apply (huid : uid ≠ 0) (h : (settled uid gid groups).apply call = some d) :
    d = settled uid gid groups := by
  cases call with
  | setuid u =>
    obtain ⟨rfl, rfl⟩ : u = uid ∧ { settled uid gid groups with euid := u } = d := by
      simpa [apply, privileged, huid, settled] using h
    rfl
  | setresuid r e s =>
    obtain ⟨⟨⟨rfl, rfl⟩, rfl⟩, rfl⟩ : ((r = uid ∧ e = uid) ∧ s = uid) ∧
        { settled uid gid groups with ruid := r, euid := e, suid := s } = d := by
      simpa [apply, huid] using h
    rfl
  | setgid g =>
    obtain ⟨rfl, rfl⟩ : g = gid ∧ { settled uid gid groups with egid := g } = d := by
      simpa [apply, privileged, huid, settled] using h
    rfl
  | setresgid r e s =>
    obtain ⟨⟨⟨rfl, rfl⟩, rfl⟩, rfl⟩ : ((r = gid ∧ e = gid) ∧ s = gid) ∧
        { settled uid gid groups with rgid := r, egid := e, sgid := s } = d := by
      simpa [apply, huid] using h
    rfl
  | setgroups gs => simp [apply, huid] at h

/-- Whatever calls it makes, the process stays what it is. -/
theorem settled_run (huid : uid ≠ 0) (h : Trace Step (settled uid gid groups) calls d) :
    d = settled uid gid groups := by
  refine h.invariant (P := (· = settled uid gid groups)) rfl ?_
  rintro c call d hstep rfl
  cases hstep with
  | succeeds hcall => exact settled_apply huid hcall
  | fails => rfl

end Credentials

end Hush.Lib
