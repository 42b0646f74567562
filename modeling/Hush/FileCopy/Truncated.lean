import Hush.FileCopy.Download
import Hush.FileCopy.Serving
import Hush.FileCopy.Upload

/-!
# Downloads that fail on the server

A failure after the plan ends the stream. The client takes that for the end of the archive
wherever an archive could end.
-/

namespace Hush.FileCopy
open Hush.Lib

/-- The bytes end where an archive can end: after whole members, and whatever of a trailer the
reader takes for one. -/
def EndsBetween (tar : TarLib) (bytes : Bytes) (ms : List Member) : Prop :=
  ∃ tail, bytes = tar.encodeAll ms ++ tail ∧ (∀ m ∈ ms, tar.Appends m) ∧
    tail <+: TarLib.trailer ∧ tar.read ⟨tail, none⟩ = ([], none)

section EndsBetween

variable {tar : TarLib} {bytes : Bytes} {ms : List Member}

theorem endsBetween_encodeAll (ht : tar.Lawful) (h : ∀ m ∈ ms, tar.Appends m) :
    EndsBetween tar (tar.encodeAll ms) ms :=
  ⟨[], (List.append_nil _).symm, h, List.nil_prefix, ht.read_nil⟩

theorem EndsBetween.read (ht : tar.Lawful) (h : EndsBetween tar bytes ms) :
    tar.read ⟨bytes, none⟩ = (ms.map .whole, none) := by
  obtain ⟨tail, rfl, happends, _, hread⟩ := h
  rw [TarLib.read_encodeAll ht happends, hread, List.append_nil]

/-- The reader does not notice a failure exactly if the bytes end where an archive can. -/
theorem Broken.ends_iff (ht : tar.Lawful) (h : Broken tar bytes) :
    (tar.read ⟨bytes, none⟩).2 = none ↔ ∃ ms, EndsBetween tar bytes ms := by
  constructor
  · intro hend
    obtain ⟨ms, cut, rfl, happends, hcut⟩ := h
    rw [TarLib.read_encodeAll ht happends] at hend
    rcases hcut with (rfl | ⟨m, hm, hcut⟩) | hcut
    · exact ⟨ms, [], rfl, happends, List.nil_prefix, ht.read_nil⟩
    · by_cases hnil : cut = []
      · exact ⟨ms, [], by simp [hnil], happends, List.nil_prefix, ht.read_nil⟩
      · by_cases hwhole : cut = tar.encode m
        · refine ⟨ms ++ [m], [], by simp [hwhole], ?_, List.nil_prefix, ht.read_nil⟩
          intro m' hm'
          rcases List.mem_append.mp hm' with hm' | hm'
          · exact happends m' hm'
          · rw [List.mem_singleton.mp hm']
            exact hm
        · exact absurd hend (ht.read_cut m cut hm hcut hnil hwhole)
    · exact ⟨ms, cut, rfl, happends, hcut, Prod.ext (ht.read_trailer_cut cut hcut) hend⟩
  · rintro ⟨ms, hms⟩
    rw [hms.read ht]

end EndsBetween

/-- The length of the data in the member of a path. -/
def dataAt (fs : Fs) (e : Path × Path) : Nat :=
  match fs.symlinkMetadata e.1 with
  | .ok .dir => 0
  | _ => ((fs.source e.1).member e.2).elim 0 (·.data.length)

section Appended

variable {tar : TarLib} {fs : StaticFs} {limits : FileCopyLimits} {e : Path × Path}
  {made : List (Path × Path)} {sent : Sent}

/-- A path that was appended has become a member, and all of that but the padding is flushed. -/
theorem memberAt_member (ht : tar.Lawful) (herr : (memberAt tar fs e).err = none) :
    ∃ m, tar.Appends m ∧ (memberAt tar fs e).writes.flatten = tar.encode m ∧
      (memberAt tar fs e).Flushes (dataAt fs e) := by
  by_cases hdir : fs.symlinkMetadata e.1 = .ok .dir
  · simp only [memberAt, dataAt, hdir] at herr ⊢
    exact ⟨.directory e.2, Or.inl ⟨rfl, herr⟩, ht.appendDir_ok e.2 herr,
      ht.appendDir_flushes e.2 herr⟩
  · have hmember : memberAt tar fs e = tar.appendPath e.2 (fs.source e.1) := by
      unfold memberAt
      split
      · contradiction
      · rfl
    have hdata : dataAt fs e = ((fs.source e.1).member e.2).elim 0 (·.data.length) := by
      unfold dataAt
      split
      · contradiction
      · rfl
    rw [hmember] at herr ⊢
    obtain ⟨m, hm, happends, hflat⟩ := appendPath_member ht (fs.fits e.1) herr
    rw [hdata, hm]
    exact ⟨m, happends, hflat, ht.appendPath_flushes e.2 _ m hm herr⟩

theorem bytesAt_members (ht : tar.Lawful) (h : ∀ e ∈ made, (memberAt tar fs e).err = none) :
    ∃ ms, (∀ m ∈ ms, tar.Appends m) ∧ bytesAt tar fs made = tar.encodeAll ms := by
  induction made with
  | nil => exact ⟨[], nofun, rfl⟩
  | cons e made ih =>
    obtain ⟨herr, hrest⟩ := List.forall_mem_cons.mp h
    obtain ⟨ms, hms, hbytes⟩ := ih hrest
    obtain ⟨m, hm, hflat, -⟩ := memberAt_member ht herr
    refine ⟨m :: ms, List.forall_mem_cons.mpr ⟨hm, hms⟩, ?_⟩
    rw [TarLib.encodeAll_cons, ← hflat, ← hbytes]
    rfl

theorem delivered_nothing (ht : tar.Lawful) (limits : FileCopyLimits)
    (h : sent.Appended tar fs []) :
    BufWriter.delivered (afterDrop tar limits sent) = [] := by
  have hprefix := delivered_afterDrop ht limits sent
  rw [Sent.writes, h.2.1] at hprefix
  exact List.prefix_nil.mp hprefix

/-- Where the sender fails between members, all of them are delivered but the padding of the last
one, which is in the buffer. -/
theorem delivered_members (ht : tar.Lawful) (limits : FileCopyLimits)
    (h : sent.Appended tar fs (made ++ [e])) :
    ∃ ms m front padding, (∀ m ∈ ms, tar.Appends m) ∧ tar.Appends m ∧
      BufWriter.delivered (afterDrop tar limits sent) = tar.encodeAll ms ++ front ∧
      tar.encode m = front ++ padding ∧ dataAt fs e ≤ front.length ∧
      padding.length = paddingLength (dataAt fs e) := by
  obtain ⟨-, hops, htaken⟩ := h
  obtain ⟨hmade, he⟩ := List.forall_mem_append.mp htaken
  obtain ⟨ms, hms, hbytes⟩ := bytesAt_members ht hmade
  obtain ⟨m, hm, hflat, front, padding, hmember, hdata, hpadding⟩ :=
    memberAt_member ht (he e List.mem_cons_self)
  refine ⟨ms, m, (front.map WriteOp.bytes).flatten, padding, hms, hm, ?_, ?_, hdata, hpadding⟩
  · have hflushed : ∀ bufs : List Bytes, bufs.flatten.length < streamBuffer →
        BufWriter.delivered (opsAt tar fs made ++ front ++ .flush :: bufs.map .write) =
          tar.encodeAll ms ++ (front.map WriteOp.bytes).flatten := by
      intro bufs hbufs
      rw [BufWriter.delivered_of_flush _ hbufs, List.map_append, List.flatten_append, bytes_opsAt,
        hbytes]
    have hlen : padding.length < 512 := by
      rw [hpadding, paddingLength]
      exact Nat.mod_lt _ (by decide)
    rw [opsAt_concat, hmember] at hops
    rcases afterDrop_cases ht limits sent with hdrop | ⟨chunk, hdrop, hchunk⟩
    · have hall := hflushed [padding] (by
        rw [List.flatten_singleton, streamBuffer]
        omega)
      rw [hdrop, hops, ← hall]
      simp
    · have hall := hflushed [padding, chunk] (by
        simp only [List.flatten_cons, List.flatten_nil, List.append_nil, List.length_append,
          streamBuffer]
        omega)
      rw [hdrop, hops, ← hall]
      simp
  · rw [← hflat, Append.writes, hmember]
    simp [WriteOp.bytes]

/-- That is where an archive can end exactly if the last member has no padding. -/
theorem endsBetween_appended_iff (ht : tar.Lawful) (limits : FileCopyLimits)
    (h : sent.Appended tar fs made) :
    (∃ ms, EndsBetween tar (BufWriter.delivered (afterDrop tar limits sent)) ms) ↔
      ∀ e ∈ made.getLast?, 512 ∣ dataAt fs e := by
  rcases List.eq_nil_or_concat' made with rfl | ⟨made, e, rfl⟩
  · rw [delivered_nothing ht limits h]
    exact ⟨fun _ => by simp, fun _ => ⟨[], [], rfl, by simp, List.nil_prefix, ht.read_nil⟩⟩
  · obtain ⟨ms, m, front, padding, hms, hm, hdelivered, hencode, hdata, hpadding⟩ :=
      delivered_members ht limits h
    rw [hdelivered, List.getLast?_concat]
    simp only [Option.mem_def, Option.some.injEq, forall_eq']
    constructor
    · rintro ⟨ms', hends⟩
      have hread := congrArg Prod.snd (hends.read ht)
      rw [TarLib.read_encodeAll ht hms] at hread
      by_contra hdvd
      -- Otherwise the stream ends in the last member, and the reader says so.
      have hfront : front ≠ [] := by
        rintro rfl
        simp only [List.length_nil] at hdata
        omega
      have hwhole : front ≠ tar.encode m := by
        intro hall
        have hlen := congrArg List.length (hall.trans hencode)
        rw [List.length_append, hpadding, paddingLength] at hlen
        omega
      exact ht.read_cut m front hm ⟨padding, hencode.symm⟩ hfront hwhole hread
    · intro hdvd
      have hnone : padding = [] := by
        apply List.eq_nil_of_length_eq_zero
        rw [hpadding, paddingLength]
        omega
      rw [hnone, List.append_nil] at hencode
      have hall : tar.encodeAll ms ++ front = tar.encodeAll (ms ++ [m]) := by simp [hencode]
      rw [hall]
      refine ⟨ms ++ [m], endsBetween_encodeAll ht ?_⟩
      exact List.forall_mem_append.mpr ⟨hms, List.forall_mem_singleton.mpr hm⟩

end Appended

/-- Which broken archives a client refuses. -/
theorem receiveArchive_refused_iff {tar : TarLib} (ht : tar.Lawful) {bytes : Bytes}
    (h : Broken tar bytes) (zstd : Zstd) (client : FileCopyLimits) (d : Destination)
    (destination : Path) :
    (receiveArchive tar zstd d ⟨bytes, none⟩ destination .none client).result ≠ .ok () ↔
      client.disabled = true ∨
      ∀ ms, EndsBetween tar (bytes.take (archiveByteLimit client)) ms →
        ¬ client.Allows (ms.map (·.data.length)) ∨
        ∃ err, (d.unpackAll destination (ms.map .whole)).result = .error err := by
  have hbroken := h.mono (List.take_prefix (archiveByteLimit client) bytes)
  have hsizes : ∀ ms : List Member,
      (ms.map Item.whole).map (·.size) = ms.map (·.data.length) := by
    intro ms
    simp [Item.whole, Function.comp_def]
  unfold receiveArchive
  cases hdisabled : client.disabled with
  | true => simp
  | false =>
  simp only [Bool.false_eq_true, if_false, false_or, archiveEntries_none, ne_eq,
    unpackArchiveLimited_ok_iff]
  constructor
  · intro hrefused ms hms
    rw [hms.read ht, hsizes] at hrefused
    by_cases hallows : client.Allows (ms.map (·.data.length))
    · right
      cases hresult : (d.unpackAll destination (ms.map .whole)).result with
      | error err => exact ⟨err, rfl⟩
      | ok => exact absurd ⟨hallows, rfl, hresult⟩ hrefused
    · exact Or.inl hallows
  · rintro hrefuses ⟨hallows, hend, hok⟩
    obtain ⟨ms, hms⟩ := (hbroken.ends_iff ht).mp hend
    rw [hms.read ht] at hallows hok
    rw [hsizes] at hallows
    rcases hrefuses ms hms with hexceeds | ⟨err, herr⟩
    · exact hexceeds hallows
    · rw [hok] at herr
      cases herr

namespace Truncated

def request (entries : List FileCopyEntry) : FileCopyRequest := ⟨.download, entries, "", .none⟩

/-- A server that runs as alice, and whose sending fails. -/
theorem alice_serves {entries : List FileCopyEntry} {limits : FileCopyLimits} {sent : Sent}
    {err : String} (hsent : SendsArchive Ustar.tar Upload.project limits entries sent)
    (herr : sent.result = .error err)
    (hserve : serveFileCopy Unanswered.host "alice" (request entries) limits
      ⟨fun _ => .ok (), fun _ => .error err, .ok ()⟩ =
        ⟨[.fileCopyReady ⟨"", entries⟩], .error err⟩) :
    Unanswered.host.ServesDownload Ustar.tar Evil.zstd Upload.project "alice" limits .none
      (request entries) ⟨[.fileCopyReady ⟨"", entries⟩], .error err⟩
      (BufWriter.delivered (afterDrop Ustar.tar limits sent)) := by
  refine ⟨fun _ => .error err, hserve.symm, ?_⟩
  intro plan hplan
  cases hplan
  exact .failed hsent herr fun _ => rfl

/-- The notes, twice. -/
def twice : List FileCopyEntry :=
  [⟨"/home/alice/project/notes", "a"⟩, ⟨"/home/alice/project/notes", "b"⟩]

def project : List FileCopyEntry := [⟨"/home/alice/project", "project"⟩]

/-- What is sent of the notes, once: 517 bytes, without the padding. -/
theorem twice_sends : ∃ sent, SendsArchive Ustar.tar Upload.project ⟨5, 100⟩ twice sent ∧
    sent.result = .error "file copy exceeds the 5 byte limit" ∧
    sent.Appended Ustar.tar Upload.project
      [(.ofString "/home/alice/project/notes", .ofString "a")] ∧
    (BufWriter.delivered (afterDrop Ustar.tar ⟨5, 100⟩ sent)).length = 517 := by
  have hrun : ((Loop.run (Sender.step Ustar.tar Upload.project) 4 (.init ⟨5, 100⟩ twice)).map
        fun sent => (sent.result, sent.log.head?, sent.ops == opsAt Ustar.tar Upload.project
            [(.ofString "/home/alice/project/notes", .ofString "a")],
          (BufWriter.delivered (afterDrop Ustar.tar ⟨5, 100⟩ sent)).length)) =
      some (.error "file copy exceeds the 5 byte limit",
        some (.ofString "/home/alice/project/notes", .ofString "a"), true, 517) := by
    decide +kernel
  obtain ⟨sent, hsent, hresult⟩ := Loop.Returns.of_run hrun
  simp only [Prod.mk.injEq] at hresult
  obtain ⟨herr, hfirst, hops, hlen⟩ := hresult
  refine ⟨sent, hsent, herr, ⟨?_, eq_of_beq hops, ?_⟩, hlen⟩
  · obtain ⟨rest, hlog⟩ := List.head?_eq_some_iff.mp hfirst
    rw [hlog]
    exact List.prefix_append [_] rest
  · rw [List.forall_mem_singleton]
    decide +kernel

/-- What is sent of the directory, before its file is beyond the budget. -/
theorem project_sends : ∃ sent, SendsArchive Ustar.tar Upload.project ⟨4, 100⟩ project sent ∧
    sent.result = .error "file copy exceeds the 4 byte limit" ∧
    BufWriter.delivered (afterDrop Ustar.tar ⟨4, 100⟩ sent) =
      Ustar.tar.encodeAll [.directory (.ofString "project")] := by
  have hrun : ((Loop.run (Sender.step Ustar.tar Upload.project) 3 (.init ⟨4, 100⟩ project)).map
        fun sent => (sent.result, BufWriter.delivered (afterDrop Ustar.tar ⟨4, 100⟩ sent))) =
      some (.error "file copy exceeds the 4 byte limit",
        Ustar.tar.encodeAll [.directory (.ofString "project")]) := by
    decide +kernel
  obtain ⟨sent, hsent, hresult⟩ := Loop.Returns.of_run hrun
  obtain ⟨herr, hdelivered⟩ := Prod.mk.inj hresult
  exact ⟨sent, hsent, herr, hdelivered⟩

end Truncated

end Hush.FileCopy
