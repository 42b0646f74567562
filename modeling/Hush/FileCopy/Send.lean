import Hush.FileCopy.Plan
import Hush.FileCopy.Writer
import Hush.Lib.Loop

/-!
# send_archive_to_with_progress

The entries are archived one after the other. A stack holds the paths of the current entry
that are still to be visited, a directory's children above what was there before it.
-/

namespace Hush.FileCopy
open Hush.Lib

inductive Metadata
  | dir
  | file (len : UInt64)
  | other
  deriving DecidableEq, Repr

/-- The source's filesystem. `statDir` is the builder's own look at a directory, `readDir`
gives the names up to an error, if there is one, and `source` what the builder reads. -/
structure Fs where
  symlinkMetadata : Path → Except String Metadata
  statDir : Path → Except String Unit
  readDir : Path → Except String (List FileName × Option String)
  source : Path → Source

/-- A filesystem that stays as it is during the copy: a file that is read to its end has as
many bytes as its metadata says. -/
structure StaticFs extends Fs where
  fits : ∀ p, (source p).Fits

instance : Coe StaticFs Fs := ⟨StaticFs.toFs⟩

structure Sender where
  entries : List FileCopyEntry
  pending : List (Path × Path)
  budget : CopyBudget
  writer : LimitedWriter
  /-- The paths visited so far, with their member names. -/
  log : List (Path × Path)

/-- How the archive ended: the result, what got through the limit, and the log. -/
structure Sent where
  result : Except String Unit
  ops : List WriteOp
  log : List (Path × Path)

def Sent.writes (sent : Sent) : List Bytes := sent.ops.map WriteOp.bytes

namespace Sender

def fail (s : Sender) (err : String) : Outcome Sender Sent :=
  .done ⟨.error err, s.writer.ops, s.log⟩

/-- The archive is complete: the trailer, then the shutdown of the writers. -/
def finish (s : Sender) : Outcome Sender Sent :=
  match s.writer.writeAll TarLib.trailer with
  | (w, some err) => { s with writer := w }.fail s!"finish tar archive: {err}"
  | (w, none) => .done ⟨.ok (), w.ops, s.log⟩

def metadataLen : Metadata → Nat
  | .file len => len.toNat
  | .dir | .other => 0

def children (source name : Path) (names : List FileName) : List (Path × Path) :=
  names.map fun n => (source.join n.bytes, name.join n.bytes)

def appendDirectory (tar : TarLib) (fs : Fs) (s : Sender) (source name : Path) :
    Outcome Sender Sent :=
  match fs.statDir source with
  | .error err => s.fail s!"archive directory `{source.display}`: {err}"
  | .ok () =>
    match s.writer.append (tar.appendDir name) with
    | (w, some err) => { s with writer := w }.fail s!"archive directory `{source.display}`: {err}"
    | (w, none) =>
      match fs.readDir source with
      | .error err => { s with writer := w }.fail s!"read directory `{source.display}`: {err}"
      | .ok (_, some err) => { s with writer := w }.fail err
      | .ok (names, none) =>
        .next { s with writer := w, pending := (children source name names).reverse ++ s.pending }

def appendPath (tar : TarLib) (fs : Fs) (s : Sender) (source name : Path) :
    Outcome Sender Sent :=
  match s.writer.append (tar.appendPath name (fs.source source)) with
  | (w, some err) => { s with writer := w }.fail s!"archive path `{source.display}`: {err}"
  | (w, none) => .next { s with writer := w }

/-- One path is popped: its metadata, its share of the budget, its member, its children. -/
def visit (tar : TarLib) (fs : Fs) (s : Sender) (source name : Path) : Outcome Sender Sent :=
  let s := { s with log := s.log ++ [(source, name)] }
  match fs.symlinkMetadata source with
  | .error err => s.fail s!"stat source `{source.display}`: {err}"
  | .ok metadata =>
    match s.budget.add (metadataLen metadata) with
    | .error err => s.fail err
    | .ok budget =>
      let s := { s with budget }
      match metadata with
      | .dir => appendDirectory tar fs s source name
      | .file _ | .other => appendPath tar fs s source name

def step (tar : TarLib) (fs : Fs) (s : Sender) : Outcome Sender Sent :=
  match s.pending, s.entries with
  | (source, name) :: rest, _ => visit tar fs { s with pending := rest } source name
  | [], entry :: rest =>
    .next { s with
      entries := rest, pending := [(.ofString entry.path, .ofString entry.archiveName)] }
  | [], [] => s.finish

def init (limits : FileCopyLimits) (entries : List FileCopyEntry) : Sender where
  entries := entries
  pending := []
  budget := .new limits
  writer := .new (archiveByteLimit limits)
  log := []

end Sender

/-- The checks before the loop. -/
def sendPrecheck (limits : FileCopyLimits) (entries : List FileCopyEntry) : Except String Unit :=
  if entries.isEmpty then .error "no sources to copy"
  else if limits.disabled then .error disabledMessage
  else .ok ()

/-- `send_archive_to_with_progress` ends, in this way. -/
def SendsArchive (tar : TarLib) (fs : Fs) (limits : FileCopyLimits)
    (entries : List FileCopyEntry) (sent : Sent) : Prop :=
  match sendPrecheck limits entries with
  | .error err => sent = ⟨.error err, [], []⟩
  | .ok () => Loop.Returns (Sender.step tar fs) (.init limits entries) sent

/-- The path is the root, or is reached from it through directories only, by their names. -/
inductive Descends (fs : Fs) (root : Path) : Path → Prop
  | root : Descends fs root root
  | child {dir : Path} {names : List FileName} {err : Option String} {n : FileName}
      (h : Descends fs root dir) (hd : fs.symlinkMetadata dir = .ok .dir)
      (hr : fs.readDir dir = .ok (names, err)) (hn : n ∈ names) :
      Descends fs root (dir.join n.bytes)

/-- What the sender appends for a path. -/
def memberAt (tar : TarLib) (fs : Fs) (e : Path × Path) : Append :=
  match fs.symlinkMetadata e.1 with
  | .ok .dir => tar.appendDir e.2
  | _ => tar.appendPath e.2 (fs.source e.1)

/-- What the members of these paths ask of the writer. -/
def opsAt (tar : TarLib) (fs : Fs) (log : List (Path × Path)) : List WriteOp :=
  log.flatMap fun e => (memberAt tar fs e).ops

/-- The bytes of the members of these paths. -/
def bytesAt (tar : TarLib) (fs : Fs) (log : List (Path × Path)) : Bytes :=
  log.flatMap fun e => (memberAt tar fs e).writes.flatten

section MemberAt

variable {tar : TarLib} {fs : Fs} {source name : Path} {metadata : Metadata}

theorem memberAt_dir (h : fs.symlinkMetadata source = .ok .dir) :
    memberAt tar fs (source, name) = tar.appendDir name := by
  simp only [memberAt, h]

theorem memberAt_path (h : fs.symlinkMetadata source = .ok metadata) (hdir : metadata ≠ .dir) :
    memberAt tar fs (source, name) = tar.appendPath name (fs.source source) := by
  cases metadata with
  | dir => exact absurd rfl hdir
  | file len => simp only [memberAt, h]
  | other => simp only [memberAt, h]

theorem opsAt_concat (log : List (Path × Path)) (e : Path × Path) :
    opsAt tar fs (log ++ [e]) = opsAt tar fs log ++ (memberAt tar fs e).ops := by
  simp only [opsAt, List.flatMap_append, List.flatMap_cons, List.flatMap_nil, List.append_nil]

theorem bytesAt_append (log log' : List (Path × Path)) :
    bytesAt tar fs (log ++ log') = bytesAt tar fs log ++ bytesAt tar fs log' :=
  List.flatMap_append

theorem bytesAt_concat (log : List (Path × Path)) (e : Path × Path) :
    bytesAt tar fs (log ++ [e]) = bytesAt tar fs log ++ (memberAt tar fs e).writes.flatten := by
  rw [bytesAt_append]
  simp only [bytesAt, List.flatMap_cons, List.flatMap_nil, List.append_nil]

theorem bytes_opsAt (log : List (Path × Path)) :
    ((opsAt tar fs log).map WriteOp.bytes).flatten = bytesAt tar fs log := by
  induction log with
  | nil => rfl
  | cons e rest ih =>
    simp only [opsAt, bytesAt, List.flatMap_cons, List.map_append, List.flatten_append] at ih ⊢
    rw [ih]
    rfl

end MemberAt

/-- The archive is what appending these paths asks for, and no append of them failed. -/
def Sent.Appended (tar : TarLib) (fs : Fs) (made : List (Path × Path)) (sent : Sent) : Prop :=
  made <+: sent.log ∧ sent.ops = opsAt tar fs made ∧ ∀ e ∈ made, (memberAt tar fs e).err = none

/-- What an archive consists of when the sender is done: the members of all that it visited and
the trailer, or where it failed between members the ones before that, or where it failed in a
member or in the trailer the part of it that was written. -/
inductive Sent.Holds (tar : TarLib) (fs : Fs) : Sent → Prop
  | complete {log : List (Path × Path)} :
      Holds tar fs ⟨.ok (), opsAt tar fs log ++ [.write TarLib.trailer], log⟩
  | between {err : String} {ops : List WriteOp} {made log : List (Path × Path)}
      (h : Sent.Appended tar fs made ⟨.error err, ops, log⟩) : Holds tar fs ⟨.error err, ops, log⟩
  | inMember {err : String} {ops : List WriteOp} {made : List (Path × Path)} {e : Path × Path}
      {cut : Bytes} (hcut : cut <+: (memberAt tar fs e).writes.flatten)
      (hops : (ops.map WriteOp.bytes).flatten = bytesAt tar fs made ++ cut) :
      Holds tar fs ⟨.error err, ops, made ++ [e]⟩
  | inTrailer {err : String} {ops : List WriteOp} {log : List (Path × Path)} {cut : Bytes}
      (hcut : cut <+: TarLib.trailer)
      (hops : (ops.map WriteOp.bytes).flatten = bytesAt tar fs log ++ cut) :
      Holds tar fs ⟨.error err, ops, log⟩

namespace Sender

/-- A visit that goes on: the entry is charged and its member written, and the children of a
directory are on the stack. -/
inductive Visited (tar : TarLib) (fs : Fs) (s : Sender) (source name : Path) : Sender → Prop
  | directory {budget : CopyBudget} {w : LimitedWriter} {names : List FileName}
      (hmetadata : fs.symlinkMetadata source = .ok .dir) (hbudget : s.budget.add 0 = .ok budget)
      (hw : s.writer.append (tar.appendDir name) = (w, none))
      (hread : fs.readDir source = .ok (names, none)) :
      Visited tar fs s source name ⟨s.entries, (children source name names).reverse ++ s.pending,
        budget, w, s.log ++ [(source, name)]⟩
  | path {metadata : Metadata} {budget : CopyBudget} {w : LimitedWriter}
      (hmetadata : fs.symlinkMetadata source = .ok metadata) (hdir : metadata ≠ .dir)
      (hbudget : s.budget.add (metadataLen metadata) = .ok budget)
      (hw : s.writer.append (tar.appendPath name (fs.source source)) = (w, none)) :
      Visited tar fs s source name ⟨s.entries, s.pending, budget, w, s.log ++ [(source, name)]⟩

/-- A visit that fails: nothing has been written, or the member of a directory that cannot be
listed, or a part of the member. -/
inductive Failed (tar : TarLib) (fs : Fs) (s : Sender) (source name : Path) : LimitedWriter → Prop
  | unwritten : Failed tar fs s source name s.writer
  | unlisted {w : LimitedWriter} (hmetadata : fs.symlinkMetadata source = .ok .dir)
      (hw : s.writer.append (tar.appendDir name) = (w, none)) : Failed tar fs s source name w
  | cut {w : LimitedWriter} {err : String}
      (hw : s.writer.append (memberAt tar fs (source, name)) = (w, some err)) :
      Failed tar fs s source name w

variable {tar : TarLib} {fs : Fs} {s t : Sender} {r : Sent} {source name : Path}

theorem visit_next (h : visit tar fs s source name = .next t) :
    Visited tar fs s source name t := by
  unfold visit at h
  simp only at h
  split at h
  · cases h
  · next metadata hmetadata =>
    split at h
    · cases h
    · next budget hbudget =>
      split at h
      · unfold appendDirectory at h
        split at h
        · cases h
        · split at h
          · cases h
          · next w hw =>
            split at h
            · cases h
            · cases h
            · next names hread =>
              cases h
              exact .directory hmetadata hbudget hw hread
      all_goals
        unfold appendPath at h
        split at h
        · cases h
        · next w hw =>
          cases h
          exact .path hmetadata nofun hbudget hw

theorem visit_done (h : visit tar fs s source name = .done r) :
    ∃ err w, Failed tar fs s source name w ∧
      r = ⟨.error err, w.ops, s.log ++ [(source, name)]⟩ := by
  unfold visit at h
  simp only at h
  split at h
  · cases h
    exact ⟨_, _, .unwritten, rfl⟩
  · next metadata hmetadata =>
    split at h
    · cases h
      exact ⟨_, _, .unwritten, rfl⟩
    · split at h
      · unfold appendDirectory at h
        split at h
        · cases h
          exact ⟨_, _, .unwritten, rfl⟩
        · split at h
          · next w err hw =>
            cases h
            rw [← memberAt_dir hmetadata] at hw
            exact ⟨_, _, .cut hw, rfl⟩
          · next w hw =>
            split at h
            · cases h
              exact ⟨_, _, .unlisted hmetadata hw, rfl⟩
            · cases h
              exact ⟨_, _, .unlisted hmetadata hw, rfl⟩
            · cases h
      all_goals
        unfold appendPath at h
        split at h
        · next w err hw =>
          cases h
          rw [← memberAt_path hmetadata (by simp)] at hw
          exact ⟨_, _, .cut hw, rfl⟩
        · cases h

/-- A step that goes on visits the path on top of the stack, or starts the next entry. -/
theorem step_next (h : step tar fs s = .next t) :
    (∃ source name rest, s.pending = (source, name) :: rest ∧
      Visited tar fs { s with pending := rest } source name t) ∨
    ∃ entry rest, s.entries = entry :: rest ∧
      t = { s with
        entries := rest, pending := [(.ofString entry.path, .ofString entry.archiveName)] } := by
  unfold step at h
  split at h
  · next source name rest hp => exact Or.inl ⟨source, name, rest, hp, visit_next h⟩
  · next entry rest _ he =>
    cases h
    exact Or.inr ⟨entry, rest, he, rfl⟩
  · unfold finish at h
    split at h <;> cases h

/-- The loop ends at a visit that fails, or with the trailer. -/
theorem step_done (h : step tar fs s = .done r) :
    (∃ source name rest err w, s.pending = (source, name) :: rest ∧
      Failed tar fs { s with pending := rest } source name w ∧
      r = ⟨.error err, w.ops, s.log ++ [(source, name)]⟩) ∨
    s.finish = .done r := by
  unfold step at h
  split at h
  · next source name rest hp =>
    obtain ⟨err, w, hf, hr⟩ := visit_done h
    exact Or.inl ⟨source, name, rest, err, w, hp, hf, hr⟩
  · cases h
  · exact Or.inr h

section Append

variable {rest : List (Path × Path)} {metadata : Metadata} {budget : CopyBudget}
  {w : LimitedWriter} {err : String} {names : List FileName}

/-- A path beyond the budget ends the loop before anything of it is written. -/
theorem step_over_budget (hpending : s.pending = (source, name) :: rest)
    (hmetadata : fs.symlinkMetadata source = .ok metadata)
    (hadd : s.budget.add (metadataLen metadata) = .error err) :
    step tar fs s = .done ⟨.error err, s.writer.ops, s.log ++ [(source, name)]⟩ := by
  simp only [step, hpending, visit, hmetadata, hadd, fail]

theorem step_path (hpending : s.pending = (source, name) :: rest)
    (hmetadata : fs.symlinkMetadata source = .ok metadata) (hdir : metadata ≠ .dir)
    (hadd : s.budget.add (metadataLen metadata) = .ok budget) :
    step tar fs s = appendPath tar fs
      ⟨s.entries, rest, budget, s.writer, s.log ++ [(source, name)]⟩ source name := by
  cases metadata with
  | dir => exact absurd rfl hdir
  | file len => simp only [step, hpending, visit, hmetadata, hadd]
  | other => simp only [step, hpending, visit, hmetadata, hadd]

theorem step_directory (hpending : s.pending = (source, name) :: rest)
    (hmetadata : fs.symlinkMetadata source = .ok .dir)
    (hadd : s.budget.add (metadataLen .dir) = .ok budget) :
    step tar fs s = appendDirectory tar fs
      ⟨s.entries, rest, budget, s.writer, s.log ++ [(source, name)]⟩ source name := by
  simp only [step, hpending, visit, hmetadata, hadd]

theorem appendPath_ok (hw : s.writer.append (tar.appendPath name (fs.source source)) = (w, none)) :
    appendPath tar fs s source name = .next { s with writer := w } := by
  simp only [appendPath, hw]

theorem appendPath_err
    (hw : s.writer.append (tar.appendPath name (fs.source source)) = (w, some err)) :
    appendPath tar fs s source name =
      .done ⟨.error s!"archive path `{source.display}`: {err}", w.ops, s.log⟩ := by
  simp only [appendPath, hw, fail]

theorem appendDirectory_ok (hstat : fs.statDir source = .ok ())
    (hw : s.writer.append (tar.appendDir name) = (w, none))
    (hread : fs.readDir source = .ok (names, none)) :
    appendDirectory tar fs s source name = .next
      { s with writer := w, pending := (children source name names).reverse ++ s.pending } := by
  simp only [appendDirectory, hstat, hw, hread]

theorem appendDirectory_err (hstat : fs.statDir source = .ok ())
    (hw : s.writer.append (tar.appendDir name) = (w, some err)) :
    appendDirectory tar fs s source name =
      .done ⟨.error s!"archive directory `{source.display}`: {err}", w.ops, s.log⟩ := by
  simp only [appendDirectory, hstat, hw, fail]

end Append

theorem step_finish (hpending : s.pending = []) (hentries : s.entries = []) :
    step tar fs s = s.finish := by
  simp only [step, hpending, hentries]

theorem finish_ok {w : LimitedWriter} (hw : s.writer.writeAll TarLib.trailer = (w, none)) :
    s.finish = .done ⟨.ok (), w.ops, s.log⟩ := by
  unfold finish
  rw [hw]

theorem finish_err {w : LimitedWriter} {err : String}
    (hw : s.writer.writeAll TarLib.trailer = (w, some err)) :
    s.finish = .done ⟨.error s!"finish tar archive: {err}", w.ops, s.log⟩ := by
  unfold finish
  rw [hw]
  rfl

theorem finish_log (h : s.finish = .done r) : r.log = s.log := by
  unfold finish at h
  split at h <;> cases h <;> rfl

/-- Whatever the visit found, its member has been appended. -/
theorem Visited.append_eq (h : Visited tar fs s source name t) :
    s.writer.append (memberAt tar fs (source, name)) = (t.writer, none) := by
  cases h with
  | directory hmetadata hbudget hw hread => rwa [memberAt_dir hmetadata]
  | path hmetadata hdir hbudget hw => rwa [memberAt_path hmetadata hdir]

theorem Visited.entries_eq (h : Visited tar fs s source name t) : t.entries = s.entries := by
  cases h <;> rfl

theorem Visited.log_eq (h : Visited tar fs s source name t) :
    t.log = s.log ++ [(source, name)] := by
  cases h <;> rfl

/-- What is on the stack was there before, or is a child of the directory visited. -/
theorem Visited.pending (h : Visited tar fs s source name t) {e : Path × Path}
    (he : e ∈ t.pending) :
    e ∈ s.pending ∨ ∃ names, fs.symlinkMetadata source = .ok .dir ∧
      fs.readDir source = .ok (names, none) ∧
      ∃ n ∈ names, e = (source.join n.bytes, name.join n.bytes) := by
  cases h with
  | path hmetadata hdir hbudget hw => exact Or.inl he
  | directory hmetadata hbudget hw hread =>
    rcases List.mem_append.mp he with he | he
    · obtain ⟨n, hn, rfl⟩ := List.mem_map.mp (List.mem_reverse.mp he)
      exact Or.inr ⟨_, hmetadata, hread, n, hn, rfl⟩
    · exact Or.inl he

/-- The members of the paths visited so far are what has been written. -/
structure Wrote (tar : TarLib) (fs : Fs) (limits : FileCopyLimits) (s : Sender) : Prop where
  ops_eq : s.writer.ops = opsAt tar fs s.log
  taken : ∀ e ∈ s.log, (memberAt tar fs e).err = none
  limit_eq : s.writer.limit = archiveByteLimit limits
  written_le : s.writer.written ≤ s.writer.limit

variable {limits : FileCopyLimits}

theorem wrote_init (entries : List FileCopyEntry) : Wrote tar fs limits (.init limits entries) :=
  ⟨rfl, nofun, rfl, Nat.zero_le _⟩

theorem Wrote.bytes (h : s.Wrote tar fs limits) :
    s.writer.writes.flatten = bytesAt tar fs s.log := by
  rw [LimitedWriter.writes, h.ops_eq, bytes_opsAt]

theorem Wrote.step (h : s.Wrote tar fs limits) (hs : step tar fs s = .next t) :
    t.Wrote tar fs limits := by
  rcases step_next hs with ⟨source, name, rest, _, hv⟩ | ⟨entry, rest, _, rfl⟩
  · obtain ⟨herr, hops, hlimit, hle⟩ := LimitedWriter.append_ops hv.append_eq h.written_le
    refine ⟨?_, ?_, hlimit.trans h.limit_eq, hle⟩
    · rw [hops, hv.log_eq, opsAt_concat]
      exact congrArg (· ++ _) h.ops_eq
    · rw [hv.log_eq]
      exact List.forall_mem_append.mpr ⟨h.taken, List.forall_mem_singleton.mpr herr⟩
  · exact ⟨h.ops_eq, h.taken, h.limit_eq, h.written_le⟩

theorem Failed.holds {w : LimitedWriter} (h : s.Wrote tar fs limits)
    (hf : Failed tar fs s source name w) (err : String) :
    Sent.Holds tar fs ⟨.error err, w.ops, s.log ++ [(source, name)]⟩ := by
  cases hf with
  | unwritten => exact .between ⟨List.prefix_append _ _, h.ops_eq, h.taken⟩
  | unlisted hmetadata hw =>
    rw [← memberAt_dir hmetadata] at hw
    obtain ⟨herr, hops, _⟩ := LimitedWriter.append_ops hw h.written_le
    rw [h.ops_eq, ← opsAt_concat] at hops
    have htaken := List.forall_mem_append.mpr ⟨h.taken, List.forall_mem_singleton.mpr herr⟩
    exact .between ⟨List.prefix_rfl, hops, htaken⟩
  | cut hw =>
    obtain ⟨cut, hflat, hcut⟩ := LimitedWriter.append_err hw h.written_le
    rw [h.bytes] at hflat
    exact .inMember hcut hflat

theorem Wrote.finish (h : s.Wrote tar fs limits) (hf : s.finish = .done r) :
    r.Holds tar fs := by
  unfold Sender.finish at hf
  split at hf
  · next w err hw =>
    cases hf
    obtain ⟨cut, hflat, hcut⟩ := LimitedWriter.writeAll_err hw
    rw [h.bytes] at hflat
    exact .inTrailer hcut hflat
  · next w hw =>
    cases hf
    obtain ⟨rfl, -⟩ := LimitedWriter.writeAll_ok hw h.written_le
    rw [LimitedWriter.push, h.ops_eq]
    exact .complete

theorem Wrote.done (h : s.Wrote tar fs limits) (hs : Sender.step tar fs s = .done r) :
    r.Holds tar fs := by
  rcases step_done hs with ⟨source, name, rest, err, w, _, hf, rfl⟩ | hf
  · exact Failed.holds (s := { s with pending := rest })
      ⟨h.ops_eq, h.taken, h.limit_eq, h.written_le⟩ hf err
  · exact h.finish hf

theorem wrote_reaches {entries : List FileCopyEntry}
    (h : Loop.Reaches (Sender.step tar fs) (.init limits entries) s) : s.Wrote tar fs limits :=
  h.invariant (P := Wrote tar fs limits) (wrote_init entries) fun h hs => h.step hs

end Sender

theorem SendsArchive.holds {tar : TarLib} {fs : Fs} {limits : FileCopyLimits}
    {entries : List FileCopyEntry} {sent : Sent} (h : SendsArchive tar fs limits entries sent) :
    sent.Holds tar fs := by
  unfold SendsArchive at h
  split at h
  · subst h
    exact .between ⟨List.nil_prefix, rfl, nofun⟩
  · obtain ⟨t, ht, hdone⟩ := h.last
    exact (Sender.wrote_reaches ht).done hdone

end Hush.FileCopy
