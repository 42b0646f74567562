import Hush.FileCopy.Plan
import Hush.FileCopy.Tar
import Hush.Lib.Loop

/-!
# receive_archive_from_with_progress

The archive is unpacked entry by entry below the destination. Its directories come last, the
deeper ones before those that contain them.
-/

namespace Hush.FileCopy
open Hush.Lib

/-- zstd, as the encoder and the decoder around the stream. -/
structure Zstd where
  compress : Bytes → Bytes
  decompress : Stream → Stream

/-- The bytes on the wire, once the writer is shut down. -/
def archiveWriter (zstd : Zstd) : FileCopyCompression → Bytes → Bytes
  | .none, bytes => bytes
  | .zstd, bytes => zstd.compress bytes

def archiveReader (zstd : Zstd) : FileCopyCompression → Stream → Stream
  | .none, s => s
  | .zstd, s => zstd.decompress s

/-- How a copy fails: before there is an archive, at the limits, or with the error of the
archive or of the filesystem. -/
inductive Failure
  | refused (err : String)
  | disabled
  | budget (err : String)
  | iterate (err : String)
  | io (err : String)
  deriving DecidableEq, Repr

/-- The receiver's filesystem: the paths that an operation creates or overwrites, and its
error if it has one. What unpacking an entry does can depend on those unpacked before. -/
structure Destination where
  symlinkMetadata : Path → Except String Unit
  createDirAll : Path → List Path × Option String
  canonicalize : Path → Except String Path
  unpackInRaw : List Item → Path → Item → List Path × Option String

/-- What has been done so far: the calls of `unpack_in_raw`, one for each of these entries and also
for those whose names it skips, and the paths that they touched. -/
structure Unpacked where
  entries : List Item
  touched : List Path
  deriving DecidableEq, Repr

structure Unpacking where
  budget : CopyBudget
  directories : List Item
  out : Unpacked

structure Received where
  result : Except Failure Unit
  out : Unpacked

namespace Destination

def unpack (d : Destination) (root : Path) (out : Unpacked) (item : Item) :
    Unpacked × Option Failure :=
  let (touched, err) := d.unpackInRaw out.entries root item
  (⟨out.entries ++ [item], out.touched ++ touched⟩, err.map .io)

/-- The destination is created if it is missing, and made canonical. -/
def prepare (d : Destination) (destination : Path) : List Path × Except Failure Path :=
  let (created, err) :=
    match d.symlinkMetadata destination with
    | .ok () => ([], none)
    | .error _ => d.createDirAll destination
  match err with
  | some err => (created, .error (.io err))
  | none =>
    match d.canonicalize destination with
    | .error err => (created, .error (.io err))
    | .ok root => (created, .ok root)

/-- An entry of the archive is charged; a directory is put off. -/
def entry (d : Destination) (root : Path) (s : Unpacking) (item : Item) :
    Unpacking × Option Failure :=
  match s.budget.add item.size with
  | .error err => (s, some (.budget err))
  | .ok budget =>
    if item.member.type = .directory then
      ({ s with budget, directories := s.directories ++ [item] }, none)
    else
      let (out, err) := d.unpack root s.out item
      ({ s with budget, out }, err)

end Destination

/-- `directories.sort_by`: by path, the greatest first. -/
def sortDirectories (directories : List Item) : List Item :=
  directories.mergeSort fun a b => decide (b.member.path ≤ a.member.path)

def unpackArchiveLimited (d : Destination) (archive : List Item × Option String)
    (destination : Path) (limits : FileCopyLimits) : Received :=
  match d.prepare destination with
  | (created, .error err) => ⟨.error err, [], created⟩
  | (created, .ok root) =>
    match tryEach (d.entry root) ⟨.new limits, [], [], created⟩ archive.1 with
    | (s, some err) => ⟨.error err, s.out⟩
    | (s, none) =>
      match archive.2, s.directories.findSome? (·.pathErr) with
      | some err, _ => ⟨.error (.iterate err), s.out⟩
      | none, some err => ⟨.error (.io err), s.out⟩
      | none, none =>
        match tryEach (d.unpack root) s.out (sortDirectories s.directories) with
        | (out, some err) => ⟨.error err, out⟩
        | (out, none) => ⟨.ok (), out⟩

/-- What the reader finds in the stream, behind its two limits. -/
def archiveEntries (tar : TarLib) (zstd : Zstd) (recv : Stream)
    (compression : FileCopyCompression) (limits : FileCopyLimits) : List Item × Option String :=
  let reader := archiveReader zstd compression (recv.take (wireByteLimit limits))
  tar.read (reader.take (archiveByteLimit limits))

/-- Without compression the two limits are one. -/
theorem archiveEntries_none (tar : TarLib) (zstd : Zstd) (bytes : Bytes)
    (limits : FileCopyLimits) :
    archiveEntries tar zstd ⟨bytes, none⟩ .none limits =
      tar.read ⟨bytes.take (archiveByteLimit limits), none⟩ := by
  rw [archiveEntries, Stream.take_eq, archiveReader, Stream.take_eq, List.take_take,
    Nat.min_eq_left (archiveByteLimit_le_wire limits)]

def receiveArchive (tar : TarLib) (zstd : Zstd) (d : Destination) (recv : Stream)
    (destination : Path) (compression : FileCopyCompression) (limits : FileCopyLimits) :
    Received :=
  if limits.disabled then ⟨.error .disabled, [], []⟩
  else
    unpackArchiveLimited d (archiveEntries tar zstd recv compression limits) destination limits

def files (items : List Item) : List Item := items.filter (·.member.type ≠ .directory)

def directories (items : List Item) : List Item := items.filter (·.member.type = .directory)

/-- Unpacking without limits: the destination, then the files in order and the directories
after them. -/
def Destination.unpackAll (d : Destination) (destination : Path) (items : List Item) : Received :=
  match d.prepare destination with
  | (created, .error err) => ⟨.error err, [], created⟩
  | (created, .ok root) =>
    match tryEach (d.unpack root) ⟨[], created⟩ (files items) with
    | (out, some err) => ⟨.error err, out⟩
    | (out, none) =>
      match (directories items).findSome? (·.pathErr) with
      | some err => ⟨.error (.io err), out⟩
      | none =>
        match tryEach (d.unpack root) out (sortDirectories (directories items)) with
        | (out, some err) => ⟨.error err, out⟩
        | (out, none) => ⟨.ok (), out⟩

section Unpack

variable {d : Destination} {root destination : Path} {limits : FileCopyLimits}
  {s s' : Unpacking} {sizes : List Nat} {item : Item} {items : List Item}
  {archive : List Item × Option String}

/-- An entry that the limits allow is put off, or unpacked. -/
theorem entry_of_allows (d : Destination) (root : Path) (h : s.budget.Spent limits sizes)
    (hallows : limits.Allows (sizes ++ [item.size])) :
    ∃ budget : CopyBudget, budget.Spent limits (sizes ++ [item.size]) ∧
      d.entry root s item =
        if item.member.type = .directory then
          ({ s with budget, directories := s.directories ++ [item] }, none)
        else
          ({ s with budget, out := (d.unpack root s.out item).1 },
            (d.unpack root s.out item).2) := by
  have hadd := (CopyBudget.add_ok_iff h).mpr ⟨hallows, rfl⟩
  exact ⟨_, rfl, by simp only [Destination.entry, hadd]⟩

theorem entry_of_not_allows (d : Destination) (root : Path) (h : s.budget.Spent limits sizes)
    (hallows : ¬ limits.Allows (sizes ++ [item.size])) :
    ∃ err, d.entry root s item = (s, some (.budget err)) := by
  cases hadd : s.budget.add item.size with
  | error err => exact ⟨err, by simp only [Destination.entry, hadd]⟩
  | ok budget => exact absurd ((CopyBudget.add_ok_iff h).mp hadd).1 hallows

theorem unpack_err {out out' : Unpacked} {err : Failure}
    (h : d.unpack root out item = (out', some err)) : ∃ e, err = .io e := by
  simp only [Destination.unpack, Prod.mk.injEq] at h
  obtain ⟨e, _, rfl⟩ := Option.map_eq_some_iff.mp h.2
  exact ⟨e, rfl⟩

theorem unpackEach_err {out out' : Unpacked} {err : Failure}
    (h : tryEach (d.unpack root) out items = (out', some err)) : ∃ e, err = .io e := by
  induction items generalizing out with
  | nil => cases h
  | cons item rest ih =>
    rcases tryEach_cons_err h with h | ⟨u, _, h⟩
    · exact unpack_err h
    · exact ih h

/-- Within the limits the loop over the entries unpacks the files, and ends as that does. -/
theorem entries_of_allows (d : Destination) (root : Path) (items : List Item)
    (h : s.budget.Spent limits sizes)
    (hallows : limits.Allows (sizes ++ items.map (·.size))) :
    ∃ budget dirs, tryEach (d.entry root) s items =
        (⟨budget, dirs, (tryEach (d.unpack root) s.out (files items)).1⟩,
          (tryEach (d.unpack root) s.out (files items)).2) ∧
      ((tryEach (d.unpack root) s.out (files items)).2 = none →
        dirs = s.directories ++ directories items) := by
  induction items generalizing s sizes with
  | nil => exact ⟨s.budget, s.directories, rfl, fun _ => by simp [directories]⟩
  | cons item rest ih =>
    have hassoc : sizes ++ (item :: rest).map (·.size) =
        (sizes ++ [item.size]) ++ rest.map (·.size) := by simp
    rw [hassoc] at hallows
    obtain ⟨budget, hbudget, hentry⟩ := entry_of_allows d root h hallows.of_append
    by_cases hdir : item.member.type = .directory
    · rw [if_pos hdir] at hentry
      obtain ⟨b, dirs, heq, hdirs⟩ :=
        ih (s := { s with budget, directories := s.directories ++ [item] }) hbudget hallows
      refine ⟨b, dirs, ?_, ?_⟩
      · simpa [tryEach, hentry, files, hdir] using heq
      · simpa [directories, files, hdir] using hdirs
    · rw [if_neg hdir] at hentry
      have hfiles : files (item :: rest) = item :: files rest := by simp [files, hdir]
      cases hout : d.unpack root s.out item with
      | mk out err =>
        rw [hout] at hentry
        cases err with
        | some err =>
          refine ⟨budget, s.directories, ?_, ?_⟩
          · simp only [tryEach, hentry, hfiles, hout]
          · simp only [tryEach, hfiles, hout]
            intro h
            cases h
        | none =>
          obtain ⟨b, dirs, heq, hdirs⟩ := ih (s := { s with budget, out }) hbudget hallows
          refine ⟨b, dirs, ?_, ?_⟩
          · simp only [tryEach, hentry, hfiles, hout, heq]
          · simpa [tryEach, hfiles, hout, directories, hdir] using hdirs

/-- Beyond them it fails. -/
theorem entries_of_not_allows (d : Destination) (root : Path) (items : List Item)
    (h : s.budget.Spent limits sizes) (hsizes : limits.Allows sizes)
    (hallows : ¬ limits.Allows (sizes ++ items.map (·.size))) :
    (tryEach (d.entry root) s items).2 ≠ none := by
  intro hok
  apply hallows
  obtain ⟨s', heq⟩ : ∃ s', tryEach (d.entry root) s items = (s', none) := ⟨_, Prod.ext rfl hok⟩
  clear hallows hok
  induction items generalizing s sizes with
  | nil => simpa using hsizes
  | cons item rest ih =>
    obtain ⟨u, hu, hrest⟩ := tryEach_cons_ok heq
    by_cases hallows : limits.Allows (sizes ++ [item.size])
    · obtain ⟨budget, hbudget, hentry⟩ := entry_of_allows d root h hallows
      have hspent : u.budget.Spent limits (sizes ++ [item.size]) := by
        rw [hu] at hentry
        split at hentry
        · rw [(Prod.mk.inj hentry).1]
          exact hbudget
        · rw [(Prod.mk.inj hentry).1]
          exact hbudget
      simpa using ih hspent hallows hrest
    · obtain ⟨err, hentry⟩ := entry_of_not_allows d root h hallows
      rw [hu] at hentry
      cases hentry

theorem allows_nil : limits.Allows [] := by
  simp [FileCopyLimits.Allows]

/-- An archive that ends normally within the limits is unpacked as if there were none. -/
theorem unpackArchiveLimited_of_allows (hallows : limits.Allows (items.map (·.size))) :
    unpackArchiveLimited d (items, none) destination limits = d.unpackAll destination items := by
  unfold unpackArchiveLimited Destination.unpackAll
  cases hprepare : d.prepare destination with
  | mk created prepared =>
  cases prepared with
  | error err => rfl
  | ok root =>
  obtain ⟨budget, dirs, heq, hdirs⟩ :=
    entries_of_allows d root items (s := ⟨.new limits, [], [], created⟩)
      CopyBudget.spent_new hallows
  cases hfiles : tryEach (d.unpack root) ⟨[], created⟩ (files items) with
  | mk out err =>
  simp only [hfiles] at heq hdirs
  cases err with
  | some err => simp only [heq, hfiles]
  | none =>
  obtain rfl : dirs = directories items := by simpa using hdirs rfl
  simp only [heq, hfiles]
  cases (directories items).findSome? (·.pathErr) <;> rfl

/-- An archive is accepted exactly if it ends normally, its entries stay within the limits
and the filesystem takes them. -/
theorem unpackArchiveLimited_ok_iff :
    (unpackArchiveLimited d archive destination limits).result = .ok () ↔
      limits.Allows (archive.1.map (·.size)) ∧ archive.2 = none ∧
      (d.unpackAll destination archive.1).result = .ok () := by
  obtain ⟨items, last⟩ := archive
  by_cases hallows : limits.Allows (items.map (·.size))
  · cases last with
    | none => simp [unpackArchiveLimited_of_allows hallows, hallows]
    | some err =>
      unfold unpackArchiveLimited
      split
      · simp
      · split
        · simp
        · simp
  · unfold unpackArchiveLimited
    split
    · simp [hallows]
    · next created root _ =>
      have hfail :=
        entries_of_not_allows d root items (s := ⟨.new limits, [], [], created⟩)
          CopyBudget.spent_new allows_nil hallows
      split
      · simp [hallows]
      · next hloop =>
        rw [hloop] at hfail
        exact absurd rfl hfail

theorem prepare_err {created : List Path} {err : Failure}
    (h : d.prepare destination = (created, .error err)) : ∃ e, err = .io e := by
  unfold Destination.prepare at h
  simp only at h
  split at h
  · cases h
    exact ⟨_, rfl⟩
  · split at h
    · cases h
      exact ⟨_, rfl⟩
    · cases h

/-- Without limits only the filesystem can fail. -/
theorem unpackAll_err {err : Failure} (h : (d.unpackAll destination items).result = .error err) :
    ∃ e, err = .io e := by
  unfold Destination.unpackAll at h
  split at h
  · next hprepare =>
    cases h
    exact prepare_err hprepare
  · split at h
    · next hfiles =>
      cases h
      exact unpackEach_err hfiles
    · split at h
      · cases h
        exact ⟨_, rfl⟩
      · split at h
        · next hdirs =>
          cases h
          exact unpackEach_err hdirs
        · cases h

theorem unpackEach_entries {out out' : Unpacked}
    (h : tryEach (d.unpack root) out items = (out', none)) :
    out'.entries = out.entries ++ items := by
  induction items generalizing out with
  | nil =>
    cases h
    simp
  | cons item rest ih =>
    obtain ⟨u, hu, hrest⟩ := tryEach_cons_ok h
    rw [ih hrest, ← (Prod.mk.inj hu).1]
    simp

theorem files_directories_perm :
    (files items ++ sortDirectories (directories items)).Perm items := by
  have hsort : (files items ++ sortDirectories (directories items)).Perm
      (files items ++ directories items) := (List.mergeSort_perm _ _).append_left _
  refine hsort.trans (List.perm_append_comm.trans ?_)
  have hsplit := List.filter_append_perm (fun item => item.member.type = .directory) items
  simpa [files, directories] using hsplit

/-- If all goes well the files have been unpacked in their order, and then the directories. -/
theorem unpackAll_entries_eq (h : (d.unpackAll destination items).result = .ok ()) :
    (d.unpackAll destination items).out.entries =
      files items ++ sortDirectories (directories items) := by
  unfold Destination.unpackAll at h ⊢
  cases hprepare : d.prepare destination with
  | mk created prepared =>
  cases prepared with
  | error err => simp [hprepare] at h
  | ok root =>
  cases hfiles : tryEach (d.unpack root) ⟨[], created⟩ (files items) with
  | mk out err =>
  cases err with
  | some err => simp [hprepare, hfiles] at h
  | none =>
  cases hpath : (directories items).findSome? (·.pathErr) with
  | some err => simp [hprepare, hfiles, hpath] at h
  | none =>
  cases hdirs : tryEach (d.unpack root) out (sortDirectories (directories items)) with
  | mk out' err =>
  cases err with
  | some err => simp [hprepare, hfiles, hpath, hdirs] at h
  | none =>
    simp only [hfiles, hdirs, unpackEach_entries hdirs, unpackEach_entries hfiles,
      List.nil_append]

/-- If all goes well every entry has been unpacked. -/
theorem unpackAll_entries (h : (d.unpackAll destination items).result = .ok ()) :
    (d.unpackAll destination items).out.entries.Perm items := by
  rw [unpackAll_entries_eq h]
  exact files_directories_perm

/-- Every path is one that was created for the destination, or that unpacking one of the
entries touched. -/
def Touches (d : Destination) (root : Path) (created : List Path) (items : List Item)
    (out : Unpacked) : Prop :=
  ∀ q ∈ out.touched, q ∈ created ∨ ∃ done, ∃ item ∈ items, q ∈ (d.unpackInRaw done root item).1

theorem unpack_touches {created : List Path} {out : Unpacked} (hitem : item ∈ items)
    (h : Touches d root created items out) :
    Touches d root created items (d.unpack root out item).1 := by
  intro q hq
  simp only [Destination.unpack, List.mem_append] at hq
  rcases hq with hq | hq
  · exact h q hq
  · exact Or.inr ⟨out.entries, item, hitem, hq⟩

theorem entry_touches {created : List Path} (hitem : item ∈ items)
    (h : Touches d root created items s.out ∧ ∀ i ∈ s.directories, i ∈ items) :
    Touches d root created items (d.entry root s item).1.out ∧
      ∀ i ∈ (d.entry root s item).1.directories, i ∈ items := by
  unfold Destination.entry
  split
  · exact h
  · split
    · refine ⟨h.1, ?_⟩
      intro i hi
      rcases List.mem_append.mp hi with hi | hi
      · exact h.2 i hi
      · rw [List.mem_singleton.mp hi]
        exact hitem
    · exact ⟨unpack_touches hitem h.1, h.2⟩

theorem prepare_created {created : List Path} {prepared : Except Failure Path}
    (h : d.prepare destination = (created, prepared)) :
    (∀ q ∈ created, d.symlinkMetadata destination ≠ .ok () ∧
        q ∈ (d.createDirAll destination).1) ∧
      ∀ root, prepared = .ok root → d.canonicalize destination = .ok root := by
  unfold Destination.prepare at h
  cases hmetadata : d.symlinkMetadata destination with
  | ok =>
    simp only [hmetadata] at h
    cases hcanonical : d.canonicalize destination <;> simp only [hcanonical] at h <;> cases h
    · exact ⟨nofun, nofun⟩
    · exact ⟨nofun, fun _ hroot => congrArg Except.ok (Except.ok.inj hroot)⟩
  | error err =>
    simp only [hmetadata] at h
    split at h
    · cases h
      exact ⟨fun q hq => ⟨nofun, hq⟩, nofun⟩
    · cases hcanonical : d.canonicalize destination <;> simp only [hcanonical] at h <;> cases h
      · exact ⟨fun q hq => ⟨nofun, hq⟩, nofun⟩
      · exact ⟨fun q hq => ⟨nofun, hq⟩, fun _ hroot => congrArg Except.ok (Except.ok.inj hroot)⟩

theorem touches_of_prepare {created : List Path}
    (hprepare : d.prepare destination = (created, .ok root)) :
    Touches d root created archive.1 (unpackArchiveLimited d archive destination limits).out := by
  have hloop := tryEach_invariant archive.1 (f := d.entry root)
    (s := ⟨.new limits, [], [], created⟩)
    (P := fun s => Touches d root created archive.1 s.out ∧ ∀ i ∈ s.directories, i ∈ archive.1)
    ⟨fun q hq => Or.inl hq, nofun⟩ fun hitem h => entry_touches hitem h
  unfold unpackArchiveLimited
  simp only [hprepare]
  split
  · next hs =>
    rw [hs] at hloop
    exact hloop.1
  · next s hs =>
    rw [hs] at hloop
    have hdirs := tryEach_invariant (sortDirectories s.directories) (f := d.unpack root)
      (s := s.out) (P := Touches d root created archive.1) hloop.1
      fun hitem h => unpack_touches (hloop.2 _ ((List.mergeSort_perm _ _).mem_iff.mp hitem)) h
    split
    · exact hloop.1
    · exact hloop.1
    · split
      · next hs' =>
        rw [hs'] at hdirs
        exact hdirs
      · next hs' =>
        rw [hs'] at hdirs
        exact hdirs

/-- The frame of unpacking: nothing is touched but the destination, where it is missing and is
created, and what the archive's entries touch below its canonical path. -/
theorem unpackArchiveLimited_touches {q : Path}
    (hq : q ∈ (unpackArchiveLimited d archive destination limits).out.touched) :
    (d.symlinkMetadata destination ≠ .ok () ∧ q ∈ (d.createDirAll destination).1) ∨
    ∃ root, d.canonicalize destination = .ok root ∧
      ∃ done, ∃ item ∈ archive.1, q ∈ (d.unpackInRaw done root item).1 := by
  cases hprepare : d.prepare destination with
  | mk created prepared =>
  obtain ⟨hcreated, hroot⟩ := prepare_created hprepare
  cases prepared with
  | error err =>
    simp only [unpackArchiveLimited, hprepare] at hq
    exact Or.inl (hcreated q hq)
  | ok root =>
    rcases touches_of_prepare hprepare q hq with hq | hq
    · exact Or.inl (hcreated q hq)
    · exact Or.inr ⟨root, hroot root rfl, hq⟩

end Unpack

end Hush.FileCopy
