import Hush.FileCopy.Archive
import Hush.FileCopy.Receive
import Hush.FileCopy.Upload

/-! What the sender gets through its limits, the receiver gets through the same ones. -/
namespace Hush.FileCopy
open Hush.Lib

/-- What zstd promises: a round trip, and a bound on how much it expands its input. -/
structure Zstd.Lawful (zstd : Zstd) : Prop where
  decompress_compress : ∀ bytes, zstd.decompress ⟨zstd.compress bytes, none⟩ = ⟨bytes, none⟩
  length_compress : ∀ bytes,
    (zstd.compress bytes).length ≤ bytes.length + bytes.length / 256 + 65536

/-- A regular file of this size, if it can be read. -/
def Source.IsFile (n : UInt64) : Source → Prop
  | .file size _ _ => size = n
  | .unreadable _ => True
  | .symlink _ | .special => False

/-- Under the entries there are only directories and regular files. -/
def RegularForest (fs : Fs) (entries : List FileCopyEntry) : Prop :=
  ∀ entry ∈ entries, ∀ p, Descends fs (.ofString entry.path) p →
    ∀ metadata, fs.symlinkMetadata p = .ok metadata →
      metadata = .dir ∨ ∃ n, metadata = .file n ∧ (fs.source p).IsFile n

namespace Agreement

def sizes (ms : List Member) : List Nat := ms.map (·.data.length)

/-- While these members have been written: the budget has been charged for them, and the
stack and the entries to come lie in the forest. -/
structure Invariant (tar : TarLib) (fs : StaticFs) (limits : FileCopyLimits)
    (entries : List FileCopyEntry) (s : Sender) (ms : List Member) : Prop where
  archived : Archived tar limits s.writer ms
  spent : s.budget.Spent limits (sizes ms)
  allows : limits.Allows (sizes ms)
  names : ms.map (·.path) = s.log.map Prod.snd
  todo : ∀ entry ∈ s.entries, entry ∈ entries
  pending : ∀ e ∈ s.pending, ∃ entry ∈ entries, Descends fs (.ofString entry.path) e.1

variable {tar : TarLib} {fs : StaticFs} {limits : FileCopyLimits} {entries : List FileCopyEntry}
  {s t : Sender} {ms : List Member} {source name : Path}

theorem invariant_init : Invariant tar fs limits entries (.init limits entries) [] :=
  ⟨.new, CopyBudget.spent_new, allows_nil, rfl, fun _ h => h, nofun⟩

theorem length_of_member {n : UInt64} {source : Source} {m : Member} (hs : source.IsFile n)
    (hm : source.member name = some m) : m.data.length = n.toNat := by
  rcases Source.member_cases hm with ⟨size, data, rfl, hlen, rfl⟩ | ⟨target, rfl, -⟩ | ⟨rfl, -⟩
  · rw [← show size = n from hs]
    exact hlen
  · exact hs.elim
  · exact hs.elim

/-- In the forest a member is as large as its metadata says. -/
theorem length_of_visits {metadata : Metadata} {m : Member}
    (hv : Sender.Visits fs source name metadata m)
    (hr : metadata = .dir ∨ ∃ n, metadata = .file n ∧ (fs.source source).IsFile n) :
    m.data.length = Sender.metadataLen metadata := by
  rcases hv.2 with ⟨rfl, rfl⟩ | ⟨hdir, hm⟩
  · rfl
  · rcases hr with hr | ⟨n, rfl, hfile⟩
    · exact absurd hr hdir
    · exact length_of_member hfile hm

theorem invariant_visit {rest : List (Path × Path)} (ht : tar.Lawful)
    (hforest : RegularForest fs entries) (h : Invariant tar fs limits entries s ms)
    (hp : s.pending = (source, name) :: rest)
    (hv : Sender.Visited tar fs { s with pending := rest } source name t) :
    ∃ m, Invariant tar fs limits entries t (ms ++ [m]) := by
  obtain ⟨entry, hentry, hdescends⟩ := h.pending (source, name) (by simp [hp])
  obtain ⟨metadata, m, hvisits, hadd, hwriter⟩ := hv.archives ht h.archived
  have hlen := length_of_visits hvisits (hforest entry hentry source hdescends metadata hvisits.1)
  have hsizes : sizes (ms ++ [m]) = sizes ms ++ [Sender.metadataLen metadata] := by
    simp [sizes, hlen]
  obtain ⟨hallows, hspent⟩ := (CopyBudget.add_ok_iff h.spent).mp hadd
  rw [← hsizes] at hallows hspent
  refine ⟨m, hwriter, hspent, hallows, ?_, ?_, ?_⟩
  · rw [hv.log_eq]
    simp [h.names, hvisits.path]
  · rw [hv.entries_eq]
    exact h.todo
  · intro e he
    rcases hv.pending he with he | ⟨names, hd, hr, n, hn, rfl⟩
    · exact h.pending e (by simp [hp, he])
    · exact ⟨entry, hentry, .child hdescends hd hr hn⟩

theorem invariant_step (ht : tar.Lawful) (hforest : RegularForest fs entries)
    (h : Invariant tar fs limits entries s ms) (hs : Sender.step tar fs s = .next t) :
    ∃ ms, Invariant tar fs limits entries t ms := by
  rcases Sender.step_next hs with ⟨source, name, rest, hp, hv⟩ | ⟨entry, rest, hentries, rfl⟩
  · obtain ⟨m, h'⟩ := invariant_visit ht hforest h hp hv
    exact ⟨ms ++ [m], h'⟩
  · have hentry : entry ∈ entries := h.todo entry (by simp [hentries])
    refine ⟨ms, h.archived, h.spent, h.allows, h.names, ?_, ?_⟩
    · intro e he
      exact h.todo e (by simp [hentries, he])
    · intro e he
      rw [List.mem_singleton.mp he]
      exact ⟨entry, hentry, .root⟩

/-- Only the end of the loop returns without an error. -/
theorem complete_of_done {r : Sent} (h : Invariant tar fs limits entries s ms)
    (hs : Sender.step tar fs s = .done r) (hok : r.result = .ok ()) :
    r.log = s.log ∧ r.writes.flatten = tar.encodeAll ms ++ TarLib.trailer ∧
      r.writes.flatten.length ≤ archiveByteLimit limits := by
  rcases Sender.step_done hs with ⟨_, _, _, err, w, _, _, rfl⟩ | hf
  · cases hok
  · rcases Sender.finish_cases h.archived hf with ⟨_, hflat, hlen⟩ | ⟨⟨err, herr⟩, _⟩
    · exact ⟨Sender.finish_log hf, hflat, hlen⟩
    · rw [hok] at herr
      cases herr

end Agreement

/-- A complete archive is the members of the log, in order, and the trailer; it stays within
the archive limit and its members within the budget. -/
theorem SendsArchive.complete {tar : TarLib} {fs : StaticFs} {limits : FileCopyLimits}
    {entries : List FileCopyEntry} {sent : Sent} (ht : tar.Lawful)
    (hforest : RegularForest fs entries) (h : SendsArchive tar fs limits entries sent)
    (hok : sent.result = .ok ()) :
    limits.disabled = false ∧ ∃ ms, (∀ m ∈ ms, tar.Appends m) ∧
      ms.map (·.path) = sent.log.map Prod.snd ∧
      sent.writes.flatten = tar.encodeAll ms ++ TarLib.trailer ∧
      sent.writes.flatten.length ≤ archiveByteLimit limits ∧
      limits.Allows (Agreement.sizes ms) := by
  unfold SendsArchive at h
  split at h
  · subst h
    cases hok
  · next hpre =>
    have hdisabled : limits.disabled = false := by
      unfold sendPrecheck at hpre
      split at hpre
      · cases hpre
      · split at hpre
        · cases hpre
        · simpa using ‹¬ limits.disabled = true›
    obtain ⟨t, hreach, hdone⟩ := h.last
    obtain ⟨ms, hi⟩ : ∃ ms, Agreement.Invariant tar fs limits entries t ms :=
      hreach.invariant (P := fun t => ∃ ms, Agreement.Invariant tar fs limits entries t ms)
        ⟨[], Agreement.invariant_init⟩
        fun ⟨_, hi⟩ hstep => Agreement.invariant_step ht hforest hi hstep
    obtain ⟨hlog, hflat, hlen⟩ := Agreement.complete_of_done hi hdone hok
    exact ⟨hdisabled, ms, hi.archived.appends, by rw [hlog, hi.names], hflat, hlen, hi.allows⟩

/-- The wire limit lets the stream through that the sender has finished. -/
theorem length_archiveWriter {zstd : Zstd} (hz : zstd.Lawful) {limits : FileCopyLimits}
    {compression : FileCopyCompression} {bytes : Bytes}
    (hlen : bytes.length ≤ archiveByteLimit limits)
    (hwire : (archiveWriter zstd compression bytes).length ≤ u64Max) :
    (archiveWriter zstd compression bytes).length ≤ wireByteLimit limits := by
  cases compression with
  | none => exact Nat.le_trans hlen (archiveByteLimit_le_wire limits)
  | zstd =>
    have hexpand := hz.length_compress bytes
    rcases expansion_le_wire limits hlen with hmargin | hmax
    · exact Nat.le_trans hexpand hmargin
    · rw [hmax]
      exact hwire

theorem archiveReader_archiveWriter {zstd : Zstd} (hz : zstd.Lawful)
    (compression : FileCopyCompression) (bytes : Bytes) :
    archiveReader zstd compression ⟨archiveWriter zstd compression bytes, none⟩ =
      ⟨bytes, none⟩ := by
  cases compression with
  | none => rfl
  | zstd => exact hz.decompress_compress bytes

/-! A zstd that stores its input in raw blocks, as it does what it cannot compress. -/
namespace Raw

def blockSize : Nat := 131072

def blockHeader (last : Bool) (n : Nat) : Bytes := Ustar.number 3 (n * 8 + last.toNat)

def compress (bytes : Bytes) : Bytes :=
  if bytes.length ≤ blockSize then blockHeader true bytes.length ++ bytes
  else
    blockHeader false blockSize ++ (bytes.take blockSize ++ compress (bytes.drop blockSize))
termination_by bytes.length
decreasing_by
  simp only [blockSize, List.length_drop] at *
  omega

def decompress (bytes : Bytes) (err : Option String) : Stream :=
  if _hlen : bytes.length < 3 then ⟨[], some (err.getD "unexpected end of file")⟩
  else
    let header := Ustar.unnumber (bytes.take 3)
    let n := header / 8
    let rest := bytes.drop 3
    if rest.length < n then ⟨rest, some (err.getD "unexpected end of file")⟩
    else if header % 8 = 1 then ⟨rest.take n, none⟩
    else
      let tail := decompress (rest.drop n) err
      ⟨rest.take n ++ tail.bytes, tail.err⟩
termination_by bytes.length
decreasing_by
  simp only [List.length_drop]
  omega

def zstd : Zstd where
  compress := compress
  decompress := fun s => decompress s.bytes s.err

theorem decompress_block {n : Nat} {block : Bytes} (last : Bool) (rest : Bytes)
    (err : Option String) (hn : n ≤ blockSize) (hblock : block.length = n) :
    decompress (blockHeader last n ++ (block ++ rest)) err =
      if last then ⟨block, none⟩
      else ⟨block ++ (decompress rest err).bytes, (decompress rest err).err⟩ := by
  have hheader : (blockHeader last n).length = 3 := Ustar.length_number _ _
  have hvalue : Ustar.unnumber (blockHeader last n) = n * 8 + last.toNat := by
    apply Ustar.unnumber_number
    have := last.toNat_le
    simp only [blockSize] at hn
    omega
  have hlong : ¬ (blockHeader last n ++ (block ++ rest)).length < 3 := by
    rw [List.length_append, hheader]
    omega
  have hdiv : (n * 8 + last.toNat) / 8 = n := by
    have := last.toNat_le
    omega
  have hmod : (n * 8 + last.toNat) % 8 = last.toNat := by
    have := last.toNat_le
    omega
  have hwhole : ¬ (block ++ rest).length < n := by
    rw [List.length_append]
    omega
  rw [decompress, dif_neg hlong]
  simp only [List.take_left' hheader, List.drop_left' hheader, hvalue, hdiv, hmod,
    List.take_left' hblock, List.drop_left' hblock, if_neg hwhole]
  cases last <;> simp

theorem decompress_compress (bytes : Bytes) : decompress (compress bytes) none = ⟨bytes, none⟩ := by
  induction bytes using compress.induct with
  | case1 bytes h =>
    have hblock := decompress_block true [] none h rfl
    rw [List.append_nil] at hblock
    rw [compress, if_pos h, hblock]
    rfl
  | case2 bytes h ih =>
    have hlen : (bytes.take blockSize).length = blockSize := by
      rw [List.length_take]
      omega
    rw [compress, if_neg h, decompress_block false _ none (Nat.le_refl _) hlen, ih]
    simp

theorem length_compress (bytes : Bytes) :
    bytes.length + 3 * (bytes.length / blockSize) ≤ (compress bytes).length ∧
    (compress bytes).length ≤ bytes.length + 3 * (bytes.length / blockSize) + 3 := by
  induction bytes using compress.induct with
  | case1 bytes h =>
    rw [compress, if_pos h]
    simp only [List.length_append, blockHeader, Ustar.length_number, blockSize] at h ⊢
    omega
  | case2 bytes h ih =>
    rw [compress, if_neg h]
    simp only [List.length_append, blockHeader, Ustar.length_number, List.length_take,
      List.length_drop, blockSize] at h ih ⊢
    omega

theorem zstd_lawful : zstd.Lawful where
  decompress_compress := decompress_compress
  length_compress := by
    intro bytes
    have := (length_compress bytes).2
    simp only [zstd, blockSize] at this ⊢
    omega

end Raw

/-- If the sender finishes within the limits and its stream has at most 2⁶⁴ - 1 bytes, then
under the same limits neither `take` of the receiver cuts the stream, the reader finds the
members of the sender's log and a normal end, and they are unpacked as if there were no
limits: only the filesystem can make that fail, and if it does not, all of them are. -/
theorem limits_agree {tar : TarLib} {zstd : Zstd} (ht : tar.Lawful) (hz : zstd.Lawful)
    {fs : StaticFs} {limits : FileCopyLimits} {entries : List FileCopyEntry}
    (hforest : RegularForest fs entries) {sent : Sent}
    (hsent : SendsArchive tar fs limits entries sent) (hok : sent.result = .ok ())
    {compression : FileCopyCompression} {wire : Bytes}
    (hwire : wire = archiveWriter zstd compression sent.writes.flatten)
    (hmax : wire.length ≤ u64Max) :
    Stream.take ⟨wire, none⟩ (wireByteLimit limits) = ⟨wire, none⟩ ∧
    (archiveReader zstd compression ⟨wire, none⟩).take (archiveByteLimit limits) =
      archiveReader zstd compression ⟨wire, none⟩ ∧
    ∃ ms : List Member, ms.map (·.path) = sent.log.map Prod.snd ∧
      tar.read (archiveReader zstd compression ⟨wire, none⟩) = (ms.map .whole, none) ∧
      ∀ d destination,
        receiveArchive tar zstd d ⟨wire, none⟩ destination compression limits =
          d.unpackAll destination (ms.map .whole) ∧
        (∀ err, (d.unpackAll destination (ms.map .whole)).result = .error err →
          ∃ e, err = .io e) ∧
        ((d.unpackAll destination (ms.map .whole)).result = .ok () →
          (d.unpackAll destination (ms.map .whole)).out.entries.Perm (ms.map .whole)) := by
  obtain ⟨hdisabled, ms, happends, hnames, hflat, hlen, hallows⟩ :=
    hsent.complete ht hforest hok
  subst hwire
  have hreader := archiveReader_archiveWriter hz compression sent.writes.flatten
  have htakeWire : Stream.take ⟨archiveWriter zstd compression sent.writes.flatten, none⟩
      (wireByteLimit limits) = ⟨archiveWriter zstd compression sent.writes.flatten, none⟩ :=
    Stream.take_of_le (length_archiveWriter hz hlen hmax)
  have htakeArchive : Stream.take ⟨sent.writes.flatten, none⟩ (archiveByteLimit limits) =
      ⟨sent.writes.flatten, none⟩ := Stream.take_of_le hlen
  have hread : tar.read ⟨sent.writes.flatten, none⟩ = (ms.map .whole, none) := by
    rw [hflat, TarLib.read_archive ht happends]
  have hsizes : limits.Allows ((ms.map Item.whole).map (·.size)) := by
    simpa [Agreement.sizes, Item.whole, Function.comp_def] using hallows
  refine ⟨htakeWire, by rw [hreader, htakeArchive], ms, hnames, by rw [hreader, hread], ?_⟩
  intro d destination
  refine ⟨?_, fun err => unpackAll_err, unpackAll_entries⟩
  simp only [receiveArchive, archiveEntries, hdisabled, Bool.false_eq_true, if_false, htakeWire,
    hreader, htakeArchive, hread]
  exact unpackArchiveLimited_of_allows hsizes

namespace Agreement

theorem project_regular (entries : List FileCopyEntry) : RegularForest Upload.project entries := by
  intro entry _ p _ metadata hmetadata
  simp only [Upload.project] at hmetadata ⊢
  split at hmetadata
  · cases hmetadata
    exact Or.inl rfl
  · split at hmetadata
    · next hp =>
      cases hmetadata
      exact Or.inr ⟨5, rfl, by simp [hp, Source.IsFile]⟩
    · cases hmetadata

end Agreement

/-- A directory with a file in it, sent and received compressed. -/
theorem limits_agree_project :
    ∃ sent, SendsArchive Ustar.tar Upload.project ⟨100, 100⟩
        [⟨"/home/alice/project", "copy"⟩] sent ∧ sent.result = .ok () ∧
      (Raw.compress sent.writes.flatten).length ≤ u64Max ∧
      ∃ ms : List Member, ms.map (·.path) = [.ofString "copy", .ofString "copy/notes"] ∧
        Ustar.tar.read (Raw.zstd.decompress ⟨Raw.compress sent.writes.flatten, none⟩) =
          (ms.map .whole, none) := by
  have hrun : ((Loop.run (Sender.step Ustar.tar Upload.project) 4
        (.init ⟨100, 100⟩ [⟨"/home/alice/project", "copy"⟩])).map
          fun sent => (sent.result, sent.log.map Prod.snd, sent.writes.flatten.length)) =
      some (.ok (), [.ofString "copy", .ofString "copy/notes"], 2560) := by
    decide +kernel
  obtain ⟨sent, hsent, hresult⟩ := Loop.Returns.of_run hrun
  obtain ⟨hok, hlog, hlen⟩ : sent.result = .ok () ∧
      sent.log.map Prod.snd = [.ofString "copy", .ofString "copy/notes"] ∧
      sent.writes.flatten.length = 2560 := by
    simpa only [Prod.mk.injEq] using hresult
  have hsends : SendsArchive Ustar.tar Upload.project ⟨100, 100⟩
      [⟨"/home/alice/project", "copy"⟩] sent := hsent
  have hmax : (Raw.compress sent.writes.flatten).length ≤ u64Max := by
    have := (Raw.length_compress sent.writes.flatten).2
    simp only [hlen, Raw.blockSize, u64Max] at this ⊢
    omega
  have hwire : Raw.compress sent.writes.flatten =
      archiveWriter Raw.zstd .zstd sent.writes.flatten := rfl
  obtain ⟨_, _, ms, hnames, hread, _⟩ :=
    limits_agree Ustar.tar_lawful Raw.zstd_lawful (Agreement.project_regular _) hsends hok
      hwire hmax
  exact ⟨sent, hsends, hok, hmax, ms, hnames.trans hlog, hread⟩

namespace Agreement

def hugeSize : UInt64 := 0x7FFFFFFFFFF00000

/-- Two files of almost 2⁶³ bytes. -/
def huge (data : Bytes) (hdata : data.length = hugeSize.toNat) : StaticFs where
  symlinkMetadata := fun p =>
    if p = .ofString "/srv/a" ∨ p = .ofString "/srv/b" then .ok (.file hugeSize)
    else .error "No such file or directory (os error 2)"
  statDir := fun _ => .error "No such file or directory (os error 2)"
  readDir := fun _ => .error "Not a directory (os error 20)"
  source := fun p =>
    if p = .ofString "/srv/a" ∨ p = .ofString "/srv/b" then .file hugeSize data none
    else .unreadable "No such file or directory (os error 2)"
  fits := by
    intro p
    split
    · exact ⟨Nat.le_of_eq hdata, fun _ => hdata⟩
    · trivial

theorem huge_regular {data : Bytes} (hdata : data.length = hugeSize.toNat)
    (entries : List FileCopyEntry) : RegularForest (huge data hdata) entries := by
  intro entry _ p _ metadata hmetadata
  simp only [huge] at hmetadata ⊢
  split at hmetadata
  · next hp =>
    cases hmetadata
    exact Or.inr ⟨hugeSize, rfl, by simp [hp, Source.IsFile]⟩
  · cases hmetadata

/-- An entry that is a file is archived if the budget and the writer have room for it. -/
theorem entry_file (tar : TarLib) (fs : Fs) {s : Sender} {entry : FileCopyEntry}
    {rest : List FileCopyEntry} {n : UInt64} {budget : CopyBudget} {a : Append}
    (hpending : s.pending = []) (hentries : s.entries = entry :: rest)
    (hmetadata : fs.symlinkMetadata (.ofString entry.path) = .ok (.file n))
    (ha : tar.appendPath (.ofString entry.archiveName) (fs.source (.ofString entry.path)) = a)
    (hadd : s.budget.add n.toNat = .ok budget) (herr : a.err = none)
    (hroom : s.writer.written + a.writes.flatten.length ≤ s.writer.limit) :
    ∃ t : Sender, t.pending = [] ∧ t.entries = rest ∧ t.budget = budget ∧
      t.writer.limit = s.writer.limit ∧ t.writer.written ≤ t.writer.limit ∧
      t.writer.writes.flatten = s.writer.writes.flatten ++ a.writes.flatten ∧
      ∀ r, Loop.Returns (Sender.step tar fs) t r → Loop.Returns (Sender.step tar fs) s r := by
  obtain ⟨w, hw⟩ := LimitedWriter.performEach_of_le hroom
  have happend : s.writer.append a = (w, none) := by
    simp only [LimitedWriter.append, hw, herr]
  obtain ⟨_, hflat, hlimit, hle⟩ := LimitedWriter.append_ok happend (by omega)
  refine ⟨⟨rest, [], budget, w,
    s.log ++ [(.ofString entry.path, .ofString entry.archiveName)]⟩,
    rfl, rfl, rfl, hlimit, hle, hflat, ?_⟩
  intro r hr
  let u : Sender := { s with
    entries := rest, pending := [(.ofString entry.path, .ofString entry.archiveName)] }
  have hstart : Sender.step tar fs s = .next u := by
    simp only [Sender.step, hpending, hentries]
    rfl
  have hdir : Metadata.file n ≠ .dir := by simp
  have hvisit : Sender.step tar fs u = _ := Sender.step_path (s := u) rfl hmetadata hdir hadd
  rw [← ha] at happend
  exact .next hstart (.next (hvisit.trans (Sender.appendPath_ok happend)) hr)

/-- What a huge file becomes: its header and its bytes, which fill whole blocks. -/
theorem huge_appendPath {data : Bytes} (hdata : data.length = hugeSize.toNat) (name : Path)
    (hname : name.length ≤ 100) (hzero : name.contains 0 = false) :
    ∃ a, Ustar.tar.appendPath name (.file hugeSize data none) = a ∧ a.err = none ∧
      a.writes.flatten.length = 512 + hugeSize.toNat := by
  have hfits : Ustar.fits ⟨name, .regular, data, []⟩ = true := by
    rw [Ustar.fits_iff]
    refine ⟨hname, hzero, by simp, rfl, ?_⟩
    rw [hdata]
    exact hugeSize.toNat_lt
  have hpadding : (Ustar.padding hugeSize.toNat).length = 0 := by decide
  have hheader := Ustar.length_header hfits
  have happend : Ustar.tar.appendPath name (.file hugeSize data none) =
      ⟨[.write (Ustar.header ⟨name, .regular, data, []⟩), .write data, .flush,
        .write (Ustar.padding data.length)], none⟩ := by
    simp only [Ustar.tar, Ustar.appendPath, Ustar.promised_of_length hdata, hfits, if_true]
  refine ⟨_, happend, rfl, ?_⟩
  simp only [Append.writes, List.map_cons, List.map_nil, WriteOp.bytes, List.flatten_cons,
    List.flatten_nil, List.append_nil, List.length_append, List.length_nil, hheader, hdata,
    hpadding]
  omega

def hugeLimits : FileCopyLimits := ⟨0xFFFFFFFFFFFFFFFF, 100⟩

def hugeEntries : List FileCopyEntry := [⟨"/srv/a", "a"⟩, ⟨"/srv/b", "b"⟩]

theorem huge_sends {data : Bytes} (hdata : data.length = hugeSize.toNat) :
    ∃ sent, SendsArchive Ustar.tar (huge data hdata) hugeLimits hugeEntries sent ∧
      sent.result = .ok () ∧ sent.writes.flatten.length = 2 * (512 + hugeSize.toNat) + 1024 := by
  have hsize : hugeSize.toNat = 2 ^ 63 - 2 ^ 20 := by decide
  have hlimit : archiveByteLimit hugeLimits = 2 ^ 64 - 1 := by decide
  have hadd₁ : (CopyBudget.new hugeLimits).add hugeSize.toNat =
      .ok ⟨hugeLimits, 2 ^ 63 - 2 ^ 20, 1⟩ := rfl
  have hadd₂ : (CopyBudget.mk hugeLimits (2 ^ 63 - 2 ^ 20) 1).add hugeSize.toNat =
      .ok ⟨hugeLimits, 2 ^ 64 - 2 ^ 21, 2⟩ := rfl
  obtain ⟨a, ha, herrA, hlenA⟩ := huge_appendPath hdata (Path.ofString "a") (by decide) (by decide)
  obtain ⟨b, hb, herrB, hlenB⟩ := huge_appendPath hdata (Path.ofString "b") (by decide) (by decide)
  have hstart : (Sender.init hugeLimits hugeEntries).writer.written = 0 := rfl
  have hmax : (Sender.init hugeLimits hugeEntries).writer.limit = 2 ^ 64 - 1 := hlimit
  obtain ⟨s₁, hp₁, he₁, hb₁, hl₁, hw₁, hf₁, hr₁⟩ :=
    entry_file Ustar.tar (huge data hdata) (s := .init hugeLimits hugeEntries)
      rfl rfl rfl ha hadd₁ herrA (by
        rw [hlenA, hstart, hmax, hsize]
        omega)
  have hlen₁ : s₁.writer.written = 512 + hugeSize.toNat := by
    unfold LimitedWriter.written at hstart ⊢
    rw [hf₁, List.length_append, hlenA, hstart, Nat.zero_add]
  have hmax₁ : s₁.writer.limit = 2 ^ 64 - 1 := hl₁.trans hlimit
  obtain ⟨s₂, hp₂, he₂, hb₂, hl₂, hw₂, hf₂, hr₂⟩ :=
    entry_file Ustar.tar (huge data hdata) (s := s₁)
      hp₁ he₁ rfl hb (hb₁ ▸ hadd₂) herrB (by
        rw [hlenB, hlen₁, hmax₁, hsize]
        omega)
  have hlen₂ : s₂.writer.written = 2 * (512 + hugeSize.toNat) := by
    unfold LimitedWriter.written at hlen₁ ⊢
    rw [hf₂, List.length_append, hlenB, hlen₁]
    omega
  have hfits : TarLib.trailer.length ≤ s₂.writer.limit - s₂.writer.written := by
    rw [hlen₂, hl₂, hmax₁, hsize, TarLib.trailer, List.length_replicate]
    omega
  have hwrite := LimitedWriter.writeAll_of_le hfits
  have hdone : Sender.step Ustar.tar (huge data hdata) s₂ =
      .done ⟨.ok (), (s₂.writer.push TarLib.trailer).ops, s₂.log⟩ := by
    rw [Sender.step_finish hp₂ he₂, Sender.finish_ok hwrite]
  have hreturns := hr₁ _ (hr₂ _ (Loop.Returns.done hdone))
  refine ⟨⟨.ok (), (s₂.writer.push TarLib.trailer).ops, s₂.log⟩, ?_, rfl, ?_⟩
  · have hpre : sendPrecheck hugeLimits hugeEntries = .ok () := rfl
    simpa only [SendsArchive, hpre] using hreturns
  · have hpush := LimitedWriter.push_written s₂.writer TarLib.trailer
    rw [hlen₂, TarLib.trailer, List.length_replicate] at hpush
    exact hpush

end Agreement

/-- With limits of 2⁶⁴ - 1 the wire limit cannot leave a margin over the archive limit: two files
of almost 2⁶³ bytes, whatever is in them, are sent without an error, and where the compressor
stores them as they are the receiver's first `take` cuts their stream. -/
theorem wire_limit_saturates :
    Ustar.tar.Lawful ∧ Raw.zstd.Lawful ∧
    (∃ data : Bytes, data.length = Agreement.hugeSize.toNat) ∧
    ∀ (data : Bytes) (hdata : data.length = Agreement.hugeSize.toNat),
      RegularForest (Agreement.huge data hdata) Agreement.hugeEntries ∧
      ∃ sent, SendsArchive Ustar.tar (Agreement.huge data hdata) Agreement.hugeLimits
          Agreement.hugeEntries sent ∧ sent.result = .ok () ∧
        Stream.take ⟨archiveWriter Raw.zstd .zstd sent.writes.flatten, none⟩
            (wireByteLimit Agreement.hugeLimits) ≠
          ⟨archiveWriter Raw.zstd .zstd sent.writes.flatten, none⟩ := by
  refine ⟨Ustar.tar_lawful, Raw.zstd_lawful, ⟨List.replicate _ 0, List.length_replicate⟩, ?_⟩
  intro data hdata
  obtain ⟨sent, hsends, hok, hlen⟩ := Agreement.huge_sends hdata
  refine ⟨Agreement.huge_regular hdata _, sent, hsends, hok, ?_⟩
  have hsize : Agreement.hugeSize.toNat = 2 ^ 63 - 2 ^ 20 := by decide
  have hlimit : wireByteLimit Agreement.hugeLimits = 2 ^ 64 - 1 := by decide
  have hlong : 2 ^ 64 - 1 < (Raw.compress sent.writes.flatten).length := by
    have := (Raw.length_compress sent.writes.flatten).1
    rw [hlen, hsize, Raw.blockSize] at this
    omega
  intro htake
  have hlen' := congrArg (fun s : Stream => s.bytes.length) htake
  simp only [Stream.take, hlimit, archiveWriter, Raw.zstd] at hlen'
  rw [if_pos (by omega), List.length_take] at hlen'
  omega

end Hush.FileCopy
