import Hush.FileCopy.Gnu
import Hush.FileCopy.Receive

/-! Where the receiver's byte limit can cut an archive. -/
namespace Hush.FileCopy
open Hush.Lib

/-- An entry of an archive, with the headers that extend it, and what the reader yields for it. -/
structure Entry where
  bytes : Bytes
  item : Item
  deriving DecidableEq, Repr

def Entry.stream (entries : List Entry) : Bytes := (entries.map Entry.bytes).flatten

def Entry.items (entries : List Entry) : List Item := entries.map Entry.item

@[simp] theorem Entry.stream_nil : Entry.stream [] = [] := rfl

@[simp] theorem Entry.stream_cons (e : Entry) (entries : List Entry) :
    Entry.stream (e :: entries) = e.bytes ++ Entry.stream entries := rfl

theorem Entry.stream_append (front back : List Entry) :
    Entry.stream (front ++ back) = Entry.stream front ++ Entry.stream back := by
  simp [Entry.stream]

@[simp] theorem Entry.items_nil : Entry.items [] = [] := rfl

@[simp] theorem Entry.items_cons (e : Entry) (entries : List Entry) :
    Entry.items (e :: entries) = e.item :: Entry.items entries := rfl

namespace TarLib

/-- The reader yields the entry in front of whatever follows, and does not end normally in it. -/
structure Reads (tar : TarLib) (e : Entry) : Prop where
  ne_nil : e.bytes ≠ []
  read_entry : ∀ rest, tar.read ⟨e.bytes ++ rest, none⟩ =
    (e.item :: (tar.read ⟨rest, none⟩).1, (tar.read ⟨rest, none⟩).2)
  read_cut : ∀ cut, cut <+: e.bytes → cut ≠ [] → cut ≠ e.bytes → (tar.read ⟨cut, none⟩).2 ≠ none

/-- The reader ends normally at the end of the stream on an entry boundary and at the
end-of-archive marker. -/
structure Ends (tar : TarLib) : Prop where
  read_nil : tar.read ⟨[], none⟩ = ([], none)
  read_trailer : ∀ rest, tar.read ⟨trailer ++ rest, none⟩ = ([], none)
  read_trailer_cut : ∀ cut, cut <+: trailer → (tar.read ⟨cut, none⟩).1 = []

variable {tar : TarLib} {entries : List Entry}

theorem read_stream (h : ∀ e ∈ entries, tar.Reads e) (rest : Bytes) :
    tar.read ⟨Entry.stream entries ++ rest, none⟩ =
      (Entry.items entries ++ (tar.read ⟨rest, none⟩).1, (tar.read ⟨rest, none⟩).2) := by
  induction entries with
  | nil => simp
  | cons e entries ih =>
    have hrest := ih fun e' he' => h e' (List.mem_cons_of_mem e he')
    rw [Entry.stream_cons, List.append_assoc, (h e List.mem_cons_self).read_entry, hrest,
      Entry.items_cons, List.cons_append]

/-- What the reader makes of the archive up to a limit: all the entries, those in front of an
entry boundary, or an error. -/
theorem read_take (hends : tar.Ends) (h : ∀ e ∈ entries, tar.Reads e) (rest : Bytes)
    (limit : Nat) :
    (tar.read ⟨(Entry.stream entries ++ (trailer ++ rest)).take limit, none⟩).1 =
      Entry.items entries ∨
    (∃ front back, entries = front ++ back ∧ back ≠ [] ∧ (Entry.stream front).length = limit ∧
      tar.read ⟨(Entry.stream entries ++ (trailer ++ rest)).take limit, none⟩ =
        (Entry.items front, none)) ∨
    (tar.read ⟨(Entry.stream entries ++ (trailer ++ rest)).take limit, none⟩).2 ≠ none := by
  induction entries generalizing limit with
  | nil =>
    refine Or.inl ?_
    rw [Entry.stream_nil, List.nil_append, Entry.items_nil]
    by_cases hlong : trailer.length ≤ limit
    · rw [List.take_append, List.take_of_length_le hlong, hends.read_trailer]
    · rw [List.take_append_of_le_length (Nat.le_of_not_le hlong)]
      exact hends.read_trailer_cut _ (List.take_prefix _ _)
  | cons e entries ih =>
    have he := h e List.mem_cons_self
    rw [Entry.stream_cons, List.append_assoc]
    by_cases hlong : e.bytes.length ≤ limit
    · rw [List.take_append, List.take_of_length_le hlong, he.read_entry]
      rcases ih (fun e' he' => h e' (List.mem_cons_of_mem e he')) (limit - e.bytes.length) with
        hall | ⟨front, back, hsplit, hback, hlen, hread⟩ | herr
      · refine Or.inl ?_
        rw [hall, Entry.items_cons]
      · refine Or.inr (Or.inl ⟨e :: front, back, ?_, hback, ?_, ?_⟩)
        · rw [hsplit, List.cons_append]
        · rw [Entry.stream_cons, List.length_append, hlen]
          omega
        · rw [hread, Entry.items_cons]
      · exact Or.inr (Or.inr herr)
    · rw [List.take_append_of_le_length (Nat.le_of_not_le hlong)]
      by_cases hzero : limit = 0
      · refine Or.inr (Or.inl ⟨[], e :: entries, rfl, by simp, hzero.symm, ?_⟩)
        rw [hzero, List.take_zero, hends.read_nil, Entry.items_nil]
      · refine Or.inr (Or.inr (he.read_cut _ (List.take_prefix _ _) ?_ ?_))
        · simp [List.take_eq_nil_iff, hzero, he.ne_nil]
        · intro heq
          have := congrArg List.length heq
          rw [List.length_take] at this
          omega

end TarLib

section Receive

variable {tar : TarLib} {zstd : Zstd} {d : Destination} {destination : Path}
  {limits : FileCopyLimits} {bytes : Bytes}

theorem receiveArchive_none (hdisabled : limits.disabled = false) :
    receiveArchive tar zstd d ⟨bytes, none⟩ destination .none limits =
      unpackArchiveLimited d (tar.read ⟨bytes.take (archiveByteLimit limits), none⟩) destination
        limits := by
  rw [receiveArchive, hdisabled, archiveEntries_none]
  rfl

/-- If all goes well, everything that the reader has yielded has been unpacked. -/
theorem unpackArchiveLimited_entries_eq {archive : List Item × Option String}
    (hok : (unpackArchiveLimited d archive destination limits).result = .ok ()) :
    (unpackArchiveLimited d archive destination limits).out.entries =
      files archive.1 ++ sortDirectories (directories archive.1) := by
  obtain ⟨items, last⟩ := archive
  obtain ⟨hallows, hend, hunpack⟩ := unpackArchiveLimited_ok_iff.mp hok
  dsimp only at hallows hend hunpack
  rw [hend, unpackArchiveLimited_of_allows hallows]
  exact unpackAll_entries_eq hunpack

theorem unpackArchiveLimited_entries {archive : List Item × Option String}
    (hok : (unpackArchiveLimited d archive destination limits).result = .ok ()) :
    (unpackArchiveLimited d archive destination limits).out.entries.Perm archive.1 := by
  rw [unpackArchiveLimited_entries_eq hok]
  exact files_directories_perm

end Receive

/-- A filesystem that takes every entry. -/
def Destination.willing : Destination where
  symlinkMetadata := fun _ => .ok ()
  createDirAll := fun _ => ([], none)
  canonicalize := .ok
  unpackInRaw := fun _ _ _ => ([], none)

/-- The limit falls on an entry boundary inside the archive, and the entries up to there pass
the other checks. -/
def CutOff (limits : FileCopyLimits) (entries : List Entry) : Prop :=
  ∃ front back, entries = front ++ back ∧ back ≠ [] ∧
    (Entry.stream front).length = archiveByteLimit limits ∧
    limits.Allows ((Entry.items front).map (·.size)) ∧
    ∀ item ∈ Entry.items front, item.member.type = .directory → item.pathErr = none

theorem unpackEach_willing (root : Path) (items : List Item) (out : Unpacked) :
    (tryEach (Destination.willing.unpack root) out items).2 = none := by
  induction items generalizing out with
  | nil => rfl
  | cons item items ih => exact ih _

theorem unpackAll_willing (destination : Path) {items : List Item}
    (h : ∀ item ∈ items, item.member.type = .directory → item.pathErr = none) :
    (Destination.willing.unpackAll destination items).result = .ok () := by
  have hprepare : Destination.willing.prepare destination = ([], .ok destination) := rfl
  have hpaths : (directories items).findSome? (·.pathErr) = none := by
    rw [List.findSome?_eq_none_iff]
    intro item hitem
    obtain ⟨hmem, hdir⟩ := List.mem_filter.mp hitem
    exact h item hmem (by simpa using hdir)
  have hfiles := unpackEach_willing destination (files items) ⟨[], []⟩
  cases hout : tryEach (Destination.willing.unpack destination) ⟨[], []⟩ (files items) with
  | mk out err =>
    rw [hout] at hfiles
    obtain rfl : err = none := hfiles
    have hdirs := unpackEach_willing destination (sortDirectories (directories items)) out
    cases hout' : tryEach (Destination.willing.unpack destination) out
        (sortDirectories (directories items)) with
    | mk out' err =>
      rw [hout'] at hdirs
      obtain rfl : err = none := hdirs
      simp only [Destination.unpackAll, hprepare, hout, hpaths, hout']

/-- Only readable directory paths are unpacked. -/
theorem pathErr_of_unpackAll {d : Destination} {destination : Path} {items : List Item}
    (h : (d.unpackAll destination items).result = .ok ()) :
    ∀ item ∈ items, item.member.type = .directory → item.pathErr = none := by
  have hpaths : (directories items).findSome? (·.pathErr) = none := by
    unfold Destination.unpackAll at h
    split at h
    · cases h
    · split at h
      · cases h
      · split at h
        · cases h
        · next hpaths => exact hpaths
  intro item hitem hdir
  exact List.findSome?_eq_none_iff.mp hpaths item (List.mem_filter.mpr ⟨hitem, by simpa using hdir⟩)

/-- The entries in front of the limit are unpacked without an error, and those behind it are
not. -/
theorem CutOff.truncates {tar : TarLib} (hends : tar.Ends) (zstd : Zstd)
    {limits : FileCopyLimits} (hdisabled : limits.disabled = false) {entries : List Entry}
    (hentries : ∀ e ∈ entries, tar.Reads e) (rest : Bytes) (h : CutOff limits entries) :
    ∃ d destination,
      (receiveArchive tar zstd d ⟨Entry.stream entries ++ (TarLib.trailer ++ rest), none⟩
        destination .none limits).result = .ok () ∧
      ¬ (receiveArchive tar zstd d ⟨Entry.stream entries ++ (TarLib.trailer ++ rest), none⟩
        destination .none limits).out.entries.Perm (Entry.items entries) := by
  obtain ⟨front, back, rfl, hback, hlen, hallows, hpaths⟩ := h
  have hread : tar.read ⟨(Entry.stream (front ++ back) ++ (TarLib.trailer ++ rest)).take
      (archiveByteLimit limits), none⟩ = (Entry.items front, none) := by
    have hfront := TarLib.read_stream (fun e he => hentries e (List.mem_append_left _ he)) []
    rw [List.append_nil, hends.read_nil, List.append_nil] at hfront
    rw [Entry.stream_append, List.append_assoc, List.take_left' hlen, hfront]
  have hok : (unpackArchiveLimited .willing (Entry.items front, none) [] limits).result =
      .ok () := unpackArchiveLimited_ok_iff.mpr ⟨hallows, rfl, unpackAll_willing [] hpaths⟩
  refine ⟨.willing, [], ?_⟩
  rw [receiveArchive_none hdisabled, hread]
  refine ⟨hok, fun hperm => hback ?_⟩
  have hlengths := ((unpackArchiveLimited_entries hok).symm.trans hperm).length_eq
  simp only [Entry.items, List.length_map, List.length_append] at hlengths
  exact List.length_eq_zero_iff.mp (by omega)

/-- An archive is received as a whole or with an error, exactly if the limit does not fall on
the boundary between two of its entries while the budget still allows those before it. -/
theorem receive_complete_iff {tar : TarLib} (hends : tar.Ends) (zstd : Zstd)
    {limits : FileCopyLimits} (hdisabled : limits.disabled = false) {entries : List Entry}
    (hentries : ∀ e ∈ entries, tar.Reads e) (rest : Bytes) :
    (∀ d destination,
      (receiveArchive tar zstd d ⟨Entry.stream entries ++ (TarLib.trailer ++ rest), none⟩
        destination .none limits).result = .ok () →
      (receiveArchive tar zstd d ⟨Entry.stream entries ++ (TarLib.trailer ++ rest), none⟩
        destination .none limits).out.entries.Perm (Entry.items entries)) ↔
      ¬ CutOff limits entries := by
  constructor
  · intro hall hcut
    obtain ⟨d, destination, hok, hperm⟩ := hcut.truncates hends zstd hdisabled hentries rest
    exact hperm (hall d destination hok)
  · intro hcut d destination
    rw [receiveArchive_none hdisabled]
    intro hok
    have hperm := unpackArchiveLimited_entries hok
    obtain ⟨hallows, hend, hunpack⟩ := unpackArchiveLimited_ok_iff.mp hok
    rcases TarLib.read_take hends hentries rest (archiveByteLimit limits) with
      hall | ⟨front, back, hsplit, hback, hlen, hread⟩ | herr
    · rwa [hall] at hperm
    · rw [hread] at hallows hunpack
      exact absurd ⟨front, back, hsplit, hback, hlen, hallows, pathErr_of_unpackAll hunpack⟩ hcut
    · exact absurd hend herr

namespace Gnu

theorem tar_ends : tar.Ends where
  read_nil := read_nil
  read_trailer := by
    intro rest
    change read none (TarLib.trailer ++ rest) none = _
    rw [Ustar.trailer_eq, List.append_assoc, read_zero_block]
  read_trailer_cut := fun _ h => read_trailer_cut h

def entry (m : Member) : Entry := ⟨encode m, .whole m⟩

theorem entry_reads {m : Member} (h : Fits m) : tar.Reads (entry m) where
  ne_nil := by
    intro hnil
    have hlink : m.link.length ≤ 100 := (Ustar.fits_iff.mp h.short).2.2.1
    have hlen := length_encode hlink
    rw [show encode m = [] from hnil, entryLength, List.length_nil] at hlen
    omega
  read_entry := fun rest => read_encode h rest
  read_cut := fun _ hcut hne hne' => read_encode_cut h hcut hne hne'

/-- A directory whose name needs 101 bytes. -/
def longDirectory : Member := .directory (List.replicate 101 97)

theorem longDirectory_fits : Fits longDirectory :=
  ⟨by decide, by decide, by decide⟩

def notes : Member := ⟨.ofString "notes", .regular, [104, 105], []⟩

theorem notes_fits : Fits notes := ⟨by decide, by decide, by decide⟩

/-- The directories take up the limit to the byte, and nothing of the budget but their number. -/
theorem longDirectories_cutOff :
    CutOff ⟨512, 2049⟩ (List.replicate 2049 (entry longDirectory) ++ [entry notes]) := by
  refine ⟨_, _, rfl, by simp, ?_, ?_, ?_⟩
  · have hlen : (entry longDirectory).bytes.length = 1536 :=
      (length_encode (Nat.zero_le _)).trans (by decide)
    have hlimit : archiveByteLimit ⟨512, 2049⟩ = 2049 * 1536 := by decide
    rw [hlimit, Entry.stream, List.map_replicate, List.length_flatten, List.map_replicate,
      List.sum_replicate_nat, hlen]
  · have hsizes : (Entry.items (List.replicate 2049 (entry longDirectory))).map (·.size) =
        List.replicate 2049 0 := by
      rw [Entry.items, List.map_replicate, List.map_replicate]
      rfl
    rw [hsizes, FileCopyLimits.Allows, List.length_replicate, List.sum_replicate_nat]
    decide
  · intro item hitem _
    rw [Entry.items, List.map_replicate] at hitem
    rw [List.eq_of_mem_replicate hitem]
    rfl

end Gnu

theorem receive_complete_notes :
    Gnu.tar.Ends ∧ Gnu.tar.Reads (Gnu.entry Gnu.notes) ∧
    ∀ zstd d destination,
      (receiveArchive Gnu.tar zstd d ⟨Entry.stream [Gnu.entry Gnu.notes] ++
        (TarLib.trailer ++ []), none⟩ destination .none ⟨100, 100⟩).result = .ok () →
      (receiveArchive Gnu.tar zstd d ⟨Entry.stream [Gnu.entry Gnu.notes] ++
        (TarLib.trailer ++ []), none⟩ destination .none ⟨100, 100⟩).out.entries.Perm
          (Entry.items [Gnu.entry Gnu.notes]) := by
  have hnotes := Gnu.entry_reads Gnu.notes_fits
  have hcut : ¬ CutOff ⟨100, 100⟩ [Gnu.entry Gnu.notes] := by
    rintro ⟨front, back, hsplit, hback, hlen, -⟩
    rcases front with _ | ⟨e, front⟩
    · exact absurd hlen (by decide)
    · obtain ⟨-, hnil⟩ := List.append_eq_nil_iff.mp (List.cons.inj hsplit).2.symm
      exact hback hnil
  have hreads : ∀ e ∈ [Gnu.entry Gnu.notes], Gnu.tar.Reads e := by
    intro e he
    rw [List.mem_singleton.mp he]
    exact hnotes
  exact ⟨Gnu.tar_ends, hnotes, fun zstd =>
    (receive_complete_iff Gnu.tar_ends zstd rfl hreads []).mpr hcut⟩

/-- The 2049 directories take up the whole limit, since the headers of their long names are in
no budget: the file after them is not received, and the receiver reports success. -/
theorem receive_truncated :
    Gnu.tar.Ends ∧
    (∀ e ∈ List.replicate 2049 (Gnu.entry Gnu.longDirectory) ++ [Gnu.entry Gnu.notes],
      Gnu.tar.Reads e) ∧
    ∀ zstd rest, ∃ d destination,
      (receiveArchive Gnu.tar zstd d
        ⟨Entry.stream (List.replicate 2049 (Gnu.entry Gnu.longDirectory) ++
          [Gnu.entry Gnu.notes]) ++ (TarLib.trailer ++ rest), none⟩
        destination .none ⟨512, 2049⟩).result = .ok () ∧
      ¬ (receiveArchive Gnu.tar zstd d
        ⟨Entry.stream (List.replicate 2049 (Gnu.entry Gnu.longDirectory) ++
          [Gnu.entry Gnu.notes]) ++ (TarLib.trailer ++ rest), none⟩
        destination .none ⟨512, 2049⟩).out.entries.Perm
          (Entry.items (List.replicate 2049 (Gnu.entry Gnu.longDirectory) ++
            [Gnu.entry Gnu.notes])) := by
  have hreads : ∀ e ∈ List.replicate 2049 (Gnu.entry Gnu.longDirectory) ++ [Gnu.entry Gnu.notes],
      Gnu.tar.Reads e := by
    intro e he
    rcases List.mem_append.mp he with he | he
    · rw [List.eq_of_mem_replicate he]
      exact Gnu.entry_reads Gnu.longDirectory_fits
    · rw [List.mem_singleton.mp he]
      exact Gnu.entry_reads Gnu.notes_fits
  exact ⟨Gnu.tar_ends, hreads, fun zstd rest =>
    Gnu.longDirectories_cutOff.truncates Gnu.tar_ends zstd rfl hreads rest⟩

end Hush.FileCopy
