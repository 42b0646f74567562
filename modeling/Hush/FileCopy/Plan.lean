import Hush.FileCopy.Limits
import Hush.Lib.UnixPath

/-! Requests and plans: which source goes where, and under which name. -/
namespace Hush.FileCopy
open Hush.Lib

inductive FileCopyDirection
  | upload
  | download
  deriving DecidableEq, Repr

inductive FileCopyCompression
  | none
  | zstd
  deriving DecidableEq, Repr

structure FileCopyEntry where
  path : String
  archiveName : String
  deriving DecidableEq, Repr

structure FileCopyRequest where
  direction : FileCopyDirection
  entries : List FileCopyEntry
  destination : String
  compression : FileCopyCompression
  deriving DecidableEq, Repr

structure FileCopyPlan where
  extractDir : String
  entries : List FileCopyEntry
  deriving DecidableEq, Repr

def entryForPath (path : Path) : Except String FileCopyEntry :=
  match path.fileName with
  | none => .error "source path has no file name"
  | some name => .ok ⟨path.display, Path.display name⟩

/-- The archive name is one plain component. -/
def isSafeName (name : String) : Bool :=
  match (Path.ofString name).components with
  | [.normal _] => true
  | _ => false

def validateEntries : List (FileCopyEntry × FileCopyEntry) → Except String Unit
  | [] => .ok ()
  | (requested, returned) :: rest =>
    if requested.path ≠ returned.path then .error "server changed an upload source path"
    else if !isSafeName returned.archiveName then .error "server returned an unsafe archive name"
    else validateEntries rest

def validateUploadPlan (requested : List FileCopyEntry) (plan : FileCopyPlan) :
    Except String Unit :=
  if requested.length ≠ plan.entries.length then
    .error "server changed the number of upload sources"
  else validateEntries (requested.zip plan.entries)

def destinationLooksLikeDir (path : Path) : Bool :=
  (Path.display path).toList.getLast? == some '/'

/-- `plan_for_destination`; `isDir` is `metadata(path).is_dir()`, false where that fails. -/
def planForDestination (isDir : Path → Bool) (destination : Path)
    (entries : List FileCopyEntry) : Except String FileCopyPlan :=
  match entries with
  | [] => .error "no sources to copy"
  | [entry] =>
    if destinationLooksLikeDir destination || isDir destination then
      .ok ⟨destination.display, entries⟩
    else match destination.fileName with
      | none => .error "destination path has no file name"
      | some name =>
        let extractDir :=
          match destination.parent with
          | some (c :: rest) => c :: rest
          | some [] | none => Path.ofString "."
        .ok ⟨Path.display extractDir, [{ entry with archiveName := Path.display name }]⟩
  | _ => .ok ⟨destination.display, entries⟩

theorem isSafeName_iff {name : String} :
    isSafeName name = true ↔ ∃ c, (Path.ofString name).components = [.normal c] := by
  unfold isSafeName
  split
  · next c hc => simp [hc]
  · next hne =>
    constructor
    · nofun
    · rintro ⟨c, hc⟩
      exact (hne c hc).elim

theorem validateEntries_ok {pairs : List (FileCopyEntry × FileCopyEntry)}
    (h : validateEntries pairs = .ok ()) :
    ∀ pair ∈ pairs, pair.1.path = pair.2.path ∧
      ∃ c, (Path.ofString pair.2.archiveName).components = [.normal c] := by
  induction pairs with
  | nil => nofun
  | cons pair rest ih =>
    obtain ⟨requested, returned⟩ := pair
    simp only [validateEntries] at h
    split at h
    · cases h
    · next hpath =>
      split at h
      · cases h
      · next hname =>
        intro pair hmem
        rcases List.mem_cons.mp hmem with rfl | hmem
        · exact ⟨by simpa using hpath, isSafeName_iff.mp (by simpa using hname)⟩
        · exact ih h pair hmem

theorem validateUploadPlan_ok {requested : List FileCopyEntry} {plan : FileCopyPlan}
    (h : validateUploadPlan requested plan = .ok ()) :
    requested.length = plan.entries.length ∧
    ∀ pair ∈ requested.zip plan.entries, pair.1.path = pair.2.path ∧
      ∃ c, (Path.ofString pair.2.archiveName).components = [.normal c] := by
  unfold validateUploadPlan at h
  split at h
  · cases h
  · next hlen => exact ⟨by simpa using hlen, validateEntries_ok h⟩

end Hush.FileCopy
