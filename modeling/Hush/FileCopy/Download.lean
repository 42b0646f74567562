import Hush.FileCopy.Frames
import Hush.FileCopy.Receive
import Hush.FileCopy.Ustar
import Hush.Lib.PostcardCrate

/-!
# The client's download

The client plans where the archive goes before it asks for it, and unpacks whatever archive
comes back there.
-/

namespace Hush.FileCopy
open Hush.Lib

/-- Why there is no response frame to read. -/
inductive FrameError
  | unexpectedEof
  | finishedEarly (read : Nat)
  | other (err : String)
  deriving DecidableEq, Repr

def expectCopyReady : Except FrameError StreamResponse → Except String FileCopyPlan
  | .error .unexpectedEof => .error "server closed the copy stream without a response"
  | .error (.finishedEarly read) => .error s!"stream finished early ({read} bytes read)"
  | .error (.other err) => .error err
  | .ok (.fileCopyReady plan) => .ok plan
  | .ok (.error err) => .error err
  | .ok .ok => .error "unexpected copy response: Ok"
  | .ok .sessionReady => .error "unexpected copy response: SessionReady"

/-- What a server answers to a request. -/
structure Answer where
  response : Except FrameError StreamResponse
  archive : Stream

/-- `download`, from the entries that its sources name. A server is whatever answers, once
there is a connection. -/
def download [Postcard] (tar : TarLib) (zstd : Zstd) (d : Destination) (isDir : Path → Bool)
    (server : Except String (FileCopyRequest → Answer)) (compression : FileCopyCompression)
    (limits : FileCopyLimits) (entries : List FileCopyEntry) (destination : Path) : Received :=
  match planForDestination isDir destination entries with
  | .error err => ⟨.error (.refused err), [], []⟩
  | .ok plan =>
    match server with
    | .error err => ⟨.error (.refused err), [], []⟩
    | .ok server =>
      let request : FileCopyRequest := ⟨.download, plan.entries, "", compression⟩
      if maxFrameLen < request.streamOpen.length then
        ⟨.error (.refused s!"frame too large: {request.streamOpen.length} bytes"), [], []⟩
      else
        let answer := server request
        match expectCopyReady answer.response with
        | .error err => ⟨.error (.refused err), [], []⟩
        | .ok _ =>
          receiveArchive tar zstd d answer.archive (.ofString plan.extractDir) compression limits

/-- Where an entry is unpacked: at its names below the root, or at one of the directories on the
way there. A root and dots in its path are left out, and with a `..` in it nothing is unpacked. -/
def UnpacksAt (root : Path) (item : Item) (q : Path) : Prop :=
  .parentDir ∉ item.member.path.components ∧
  ∃ names, names ≠ [] ∧ names <+: item.member.path.names ∧
    q.components = root.components ++ names.map .normal

/-- An entry is unpacked at its own place, or not at all. -/
structure Destination.Lawful (d : Destination) : Prop where
  unpackInRaw_touched : ∀ done root item, ∀ q ∈ (d.unpackInRaw done root item).1,
    UnpacksAt root item q

/-! A destination that can be written everywhere. -/
namespace Plain

/-- The paths on the way down the names. -/
def descend (root : Path) : List (List UInt8) → List Path
  | [] => []
  | name :: rest => root.join name :: descend (root.join name) rest

def unpackInRaw (root : Path) (item : Item) : List Path × Option String :=
  if .parentDir ∈ item.member.path.components then ([], none)
  else (descend root item.member.path.names, none)

/-- Nothing of the destination exists but what `present` says. -/
def destination (present : Path → Bool) : Destination where
  symlinkMetadata := fun p =>
    if present p then .ok () else .error "No such file or directory (os error 2)"
  createDirAll := fun p => ([p], none)
  canonicalize := .ok
  unpackInRaw := fun _ => unpackInRaw

theorem components_descend {root q : Path} {names : List (List UInt8)}
    (hnames : ∀ name ∈ names, ∃ n : FileName, n.bytes = name) (hq : q ∈ descend root names) :
    ∃ some, some ≠ [] ∧ some <+: names ∧ q.components = root.components ++ some.map .normal := by
  induction names generalizing root with
  | nil => cases hq
  | cons name rest ih =>
    obtain ⟨n, rfl⟩ := hnames name List.mem_cons_self
    have hjoin := Path.components_join root n
    rcases List.mem_cons.mp hq with rfl | hq
    · refine ⟨[n.bytes], by simp, ?_, hjoin⟩
      rw [List.cons_prefix_cons]
      exact ⟨rfl, List.nil_prefix⟩
    · obtain ⟨more, _, hprefix, hcomponents⟩ :=
        ih (fun name hname => hnames name (List.mem_cons_of_mem _ hname)) hq
      refine ⟨n.bytes :: more, by simp, ?_, ?_⟩
      · rw [List.cons_prefix_cons]
        exact ⟨rfl, hprefix⟩
      · rw [hcomponents, hjoin]
        simp

theorem destination_lawful (present : Path → Bool) : (destination present).Lawful where
  unpackInRaw_touched := by
    intro done root item q hq
    simp only [destination, unpackInRaw] at hq
    split at hq
    · cases hq
    · next hparent => exact ⟨hparent, components_descend (fun _ => Path.exists_fileName) hq⟩

end Plain

/-! A server that is asked for `/home/alice/file` and sends a file under a name of its own. -/
namespace Evil

def member (name : String) : Member := ⟨.ofString name, .regular, Path.ofString "gotcha", []⟩

def archive (name : String) : Bytes := Ustar.tar.encodeAll [member name] ++ TarLib.trailer

def server (name : String) (request : FileCopyRequest) : Answer :=
  ⟨.ok (.fileCopyReady ⟨"", request.entries⟩), ⟨archive name, none⟩⟩

def zstd : Zstd := ⟨id, id⟩

def here : Destination := Plain.destination fun _ => true

def limits : FileCopyLimits := ⟨1024, 10⟩

def received (name : String) : Received :=
  download Ustar.tar zstd here (fun _ => false) (.ok (server name)) .none limits
    [⟨"file", "file"⟩] (.ofString "/home/alice/file")

theorem plan_eq : planForDestination (fun _ => false) (.ofString "/home/alice/file")
    [⟨"file", "file"⟩] = .ok ⟨"/home/alice", [⟨"file", "file"⟩]⟩ := rfl

theorem archiveEntries_server {name : String} (hfits : Ustar.fits (member name) = true)
    (request : FileCopyRequest) :
    archiveEntries Ustar.tar zstd (server name request).archive .none limits =
      ([.whole (member name)], none) := by
  have happends : ∀ m ∈ [member name], Ustar.tar.Appends m := by
    intro m hm
    rw [List.mem_singleton.mp hm]
    have hsize : (Path.ofString "gotcha").length = (6 : UInt64).toNat := rfl
    refine TarLib.Appends.file hsize ?_
    simp only [Ustar.tar, Ustar.appendPath, Ustar.promised_of_length hsize]
    exact congrArg Append.err (if_pos hfits)
  have hlen : (archive name).length = 2048 := by
    have hmember : (Ustar.tar.encodeAll [member name]).length = 1024 := by
      rw [TarLib.encodeAll_cons, TarLib.encodeAll_nil, List.append_nil]
      have hdata : (member name).data.length = 6 := rfl
      change (Ustar.encode (member name)).length = 1024
      rw [Ustar.encode, List.length_append, Ustar.length_header hfits, List.length_append, hdata,
        Ustar.padding, List.length_replicate, paddingLength]
    rw [archive, List.length_append, hmember, TarLib.trailer, List.length_replicate]
  have htake : ∀ limit, 2048 ≤ limit →
      Stream.take ⟨archive name, none⟩ limit = ⟨archive name, none⟩ := by
    intro limit hlimit
    rw [← hlen] at hlimit
    exact Stream.take_of_le hlimit
  simp only [archiveEntries, server, archiveReader, htake (wireByteLimit limits) (by decide),
    htake (archiveByteLimit limits) (by decide)]
  exact TarLib.read_archive Ustar.tar_lawful happends

theorem received_eq {name : String} (hfits : Ustar.fits (member name) = true) :
    received name = unpackArchiveLimited here ([.whole (member name)], none)
      (.ofString "/home/alice") limits := by
  have hframe : ¬ maxFrameLen <
      (FileCopyRequest.mk .download [⟨"file", "file"⟩] "" .none).streamOpen.length := by decide
  have hlimits : limits.disabled = false := rfl
  simp only [received, download, plan_eq, if_neg hframe, receiveArchive, hlimits,
    archiveEntries_server hfits, Bool.false_eq_true, if_false]
  rfl

end Evil

/-- What a download touches: the directory of its plan, where that is missing and is created, and
below it the places that the entries of the archive lead to. -/
theorem download_touches [Postcard] {tar : TarLib} {zstd : Zstd} {d : Destination}
    {isDir : Path → Bool} {server : FileCopyRequest → Answer} {compression : FileCopyCompression}
    {limits : FileCopyLimits} {entries : List FileCopyEntry} {destination q : Path}
    {plan : FileCopyPlan} (hplan : planForDestination isDir destination entries = .ok plan)
    (hq : q ∈ (download tar zstd d isDir (.ok server) compression limits entries
      destination).out.touched) :
    (d.symlinkMetadata (.ofString plan.extractDir) ≠ .ok () ∧
      q ∈ (d.createDirAll (.ofString plan.extractDir)).1) ∨
    ∃ root, d.canonicalize (.ofString plan.extractDir) = .ok root ∧
      ∃ done, ∃ item ∈ (archiveEntries tar zstd
        (server ⟨.download, plan.entries, "", compression⟩).archive compression limits).1,
        q ∈ (d.unpackInRaw done root item).1 := by
  simp only [download, hplan] at hq
  split at hq
  · cases hq
  · split at hq
    · cases hq
    · unfold receiveArchive at hq
      split at hq
      · cases hq
      · exact unpackArchiveLimited_touches hq

end Hush.FileCopy
