import Hush.FileCopy.Send

/-! What the sender has written at any moment: whole members, and where it fails a part. -/
namespace Hush.FileCopy
open Hush.Lib

/-- The writer has passed on exactly these members. -/
structure Archived (tar : TarLib) (limits : FileCopyLimits) (w : LimitedWriter)
    (ms : List Member) : Prop where
  bytes : w.writes.flatten = tar.encodeAll ms
  appends : ∀ m ∈ ms, tar.Appends m
  limit : w.limit = archiveByteLimit limits
  written : w.written ≤ w.limit

/-- The bytes are whole members, and then the beginning of another one or of the trailer. -/
def Broken (tar : TarLib) (bytes : Bytes) : Prop :=
  ∃ ms cut, bytes = tar.encodeAll ms ++ cut ∧ (∀ m ∈ ms, tar.Appends m) ∧
    (tar.Partial cut ∨ cut <+: TarLib.trailer)

section Prefix

variable {tar : TarLib} {bytes cut : Bytes} {ms : List Member}

/-- A beginning of whole members is whole members and a part of one more. -/
theorem prefix_encodeAll (h : bytes <+: tar.encodeAll ms ++ cut) :
    (∃ ms' part, bytes = tar.encodeAll ms' ++ part ∧ (∀ m ∈ ms', m ∈ ms) ∧
      ∃ m ∈ ms, part <+: tar.encode m) ∨
    ∃ part, bytes = tar.encodeAll ms ++ part ∧ part <+: cut := by
  induction ms generalizing bytes with
  | nil => exact Or.inr ⟨bytes, rfl, h⟩
  | cons m ms ih =>
    rw [TarLib.encodeAll_cons, List.append_assoc] at h
    rcases List.prefix_or_prefix_of_prefix h (List.prefix_append _ _) with hshort | ⟨rest, rfl⟩
    · exact Or.inl ⟨[], bytes, rfl, nofun, m, List.mem_cons_self, hshort⟩
    · rw [List.prefix_append_right_inj] at h
      rcases ih h with ⟨ms', part, rfl, hms, m', hm', hpart⟩ | ⟨part, rfl, hpart⟩
      · refine Or.inl ⟨m :: ms', part, by simp, ?_, m', List.mem_cons_of_mem _ hm', hpart⟩
        intro m'' hm''
        rcases List.mem_cons.mp hm'' with rfl | hm''
        · exact List.mem_cons_self
        · exact List.mem_cons_of_mem _ (hms m'' hm'')
      · exact Or.inr ⟨part, by simp, hpart⟩

theorem Broken.mono (h : Broken tar bytes) {bytes' : Bytes} (hp : bytes' <+: bytes) :
    Broken tar bytes' := by
  obtain ⟨ms, cut, rfl, happends, hcut⟩ := h
  rcases prefix_encodeAll hp with ⟨ms', part, rfl, hms, m, hm, hpart⟩ | ⟨part, rfl, hpart⟩
  · exact ⟨ms', part, rfl, fun m hm => happends m (hms m hm),
      Or.inl (Or.inr ⟨m, happends m hm, hpart⟩)⟩
  · refine ⟨ms, part, rfl, happends, ?_⟩
    rcases hcut with hcut | hcut
    · exact Or.inl (hcut.mono hpart)
    · exact Or.inr (hpart.trans hcut)

end Prefix

section Append

variable {tar : TarLib} {limits : FileCopyLimits} {w w' : LimitedWriter} {ms : List Member}
  {m : Member} {a : Append} {err : String}

theorem Archived.new : Archived tar limits (.new (archiveByteLimit limits)) [] :=
  ⟨rfl, nofun, rfl, Nat.zero_le _⟩

theorem Archived.append (h : Archived tar limits w ms) (hw : w.append a = (w', none))
    (ha : a.writes.flatten = tar.encode m) (hm : tar.Appends m) :
    Archived tar limits w' (ms ++ [m]) := by
  obtain ⟨_, hflat, hlimit, hle⟩ := LimitedWriter.append_ok hw h.written
  refine ⟨by simp [hflat, h.bytes, ha], ?_, hlimit.trans h.limit, hle⟩
  intro m' hm'
  rcases List.mem_append.mp hm' with hm' | hm'
  · exact h.appends m' hm'
  · rw [List.mem_singleton.mp hm']
    exact hm

theorem Archived.broken (h : Archived tar limits w ms) : Broken tar w.writes.flatten :=
  ⟨ms, [], by simp [h.bytes], h.appends, Or.inl (Or.inl rfl)⟩

theorem Archived.append_broken (h : Archived tar limits w ms) (hw : w.append a = (w', some err))
    (ha : tar.Partial a.writes.flatten) : Broken tar w'.writes.flatten := by
  obtain ⟨cut, hflat, hprefix⟩ := LimitedWriter.append_err hw h.written
  exact ⟨ms, cut, by rw [hflat, h.bytes], h.appends, Or.inl (ha.mono hprefix)⟩

end Append

section Lawful

variable {tar : TarLib} (ht : tar.Lawful)
include ht

theorem appendDir_cut (name : Path) : tar.Partial (tar.appendDir name).writes.flatten := by
  by_cases herr : (tar.appendDir name).err = none
  · rw [ht.appendDir_ok name herr]
    exact Or.inr ⟨.directory name, Or.inl ⟨rfl, herr⟩, List.prefix_rfl⟩
  · exact ht.appendDir_err name herr

theorem appendPath_member {name : Path} {source : Source} (hs : source.Fits)
    (herr : (tar.appendPath name source).err = none) :
    ∃ m, source.member name = some m ∧ tar.Appends m ∧
      (tar.appendPath name source).writes.flatten = tar.encode m := by
  cases hm : source.member name with
  | none => exact absurd herr (ht.appendPath_reports name source hs hm)
  | some m =>
    have hflat := ht.appendPath_ok name source m hm herr
    obtain rfl := Source.member_path hm
    exact ⟨m, rfl, Or.inr ⟨source, hm, herr⟩, hflat⟩

theorem appendPath_cut {name : Path} {source : Source} (hs : source.Fits) :
    tar.Partial (tar.appendPath name source).writes.flatten := by
  by_cases herr : (tar.appendPath name source).err = none
  · obtain ⟨m, _, hm, hflat⟩ := appendPath_member ht hs herr
    rw [hflat]
    exact Or.inr ⟨m, hm, List.prefix_rfl⟩
  · exact ht.appendPath_err name source hs herr

theorem memberAt_cut (fs : StaticFs) (e : Path × Path) :
    tar.Partial (memberAt tar fs e).writes.flatten := by
  unfold memberAt
  split
  · exact appendDir_cut ht e.2
  · exact appendPath_cut ht (fs.fits e.1)

end Lawful

namespace Sender

variable {tar : TarLib} {fs : StaticFs} {limits : FileCopyLimits} {s t : Sender} {r : Sent}
  {w : LimitedWriter} {ms : List Member} {source name : Path}

/-- The member that a visit adds: a directory, or what the source becomes. -/
def Visits (fs : StaticFs) (source name : Path) (metadata : Metadata) (m : Member) : Prop :=
  fs.symlinkMetadata source = .ok metadata ∧
    ((metadata = .dir ∧ m = .directory name) ∨
      (metadata ≠ .dir ∧ (fs.source source).member name = some m))

theorem Visits.path {metadata : Metadata} {m : Member} (h : Visits fs source name metadata m) :
    m.path = name := by
  rcases h.2 with ⟨_, rfl⟩ | ⟨_, hm⟩
  · rfl
  · exact Source.member_path hm

/-- A visit that goes on has charged one entry and written its member. -/
theorem Visited.archives (hv : Visited tar fs s source name t) (ht : tar.Lawful)
    (h : Archived tar limits s.writer ms) :
    ∃ metadata m, Visits fs source name metadata m ∧
      s.budget.add (metadataLen metadata) = .ok t.budget ∧
      Archived tar limits t.writer (ms ++ [m]) := by
  cases hv with
  | directory hmetadata hbudget hw hread =>
    obtain ⟨herr, _⟩ := LimitedWriter.append_ok hw h.written
    exact ⟨.dir, .directory name, ⟨hmetadata, Or.inl ⟨rfl, rfl⟩⟩, hbudget,
      h.append hw (ht.appendDir_ok name herr) (Or.inl ⟨rfl, herr⟩)⟩
  | @path metadata _ _ hmetadata hdir hbudget hw =>
    obtain ⟨herr, _⟩ := LimitedWriter.append_ok hw h.written
    obtain ⟨m, hm, happends, hflat⟩ := appendPath_member ht (fs.fits source) herr
    exact ⟨metadata, m, ⟨hmetadata, Or.inr ⟨hdir, hm⟩⟩, hbudget, h.append hw hflat happends⟩

/-- A visit that fails leaves at most a part of its member. -/
theorem Failed.broken (hf : Failed tar fs s source name w) (ht : tar.Lawful)
    (h : Archived tar limits s.writer ms) : Broken tar w.writes.flatten := by
  cases hf with
  | unwritten => exact h.broken
  | unlisted _ hw =>
    obtain ⟨herr, _⟩ := LimitedWriter.append_ok hw h.written
    exact (h.append hw (ht.appendDir_ok name herr) (Or.inl ⟨rfl, herr⟩)).broken
  | cut hw => exact h.append_broken hw (memberAt_cut ht fs (source, name))

/-- The end adds the trailer, or a part of it. -/
theorem finish_cases (h : Archived tar limits s.writer ms) (hf : s.finish = .done r) :
    (r.result = .ok () ∧ r.writes.flatten = tar.encodeAll ms ++ TarLib.trailer ∧
      r.writes.flatten.length ≤ archiveByteLimit limits) ∨
    ((∃ err, r.result = .error err) ∧ Broken tar r.writes.flatten) := by
  unfold finish at hf
  split at hf
  · next w err hw =>
    cases hf
    obtain ⟨cut, hflat, hprefix⟩ := LimitedWriter.writeAll_err hw
    rw [h.bytes] at hflat
    exact Or.inr ⟨⟨_, rfl⟩, ms, cut, hflat, h.appends, Or.inr hprefix⟩
  · next w hw =>
    cases hf
    obtain ⟨rfl, hle⟩ := LimitedWriter.writeAll_ok hw h.written
    have hflat : (s.writer.push TarLib.trailer).writes.flatten =
        tar.encodeAll ms ++ TarLib.trailer := by
      simp [h.bytes]
    rw [LimitedWriter.push_limit, h.limit] at hle
    exact Or.inl ⟨rfl, hflat, hle⟩

/-- Whole members have been written, under the names of the paths visited. -/
theorem archived_step (ht : tar.Lawful) (h : Archived tar limits s.writer ms)
    (hnames : ms.map (·.path) = s.log.map Prod.snd) (hs : step tar fs s = .next t) :
    ∃ ms, Archived tar limits t.writer ms ∧ ms.map (·.path) = t.log.map Prod.snd := by
  rcases step_next hs with ⟨source, name, rest, _, hv⟩ | ⟨entry, rest, _, rfl⟩
  · obtain ⟨_, m, hm, _, h'⟩ := hv.archives ht h
    refine ⟨ms ++ [m], h', ?_⟩
    rw [hv.log_eq, List.map_append, List.map_append, hnames, List.map_singleton, hm.path]
    rfl
  · exact ⟨ms, h, hnames⟩

theorem archived_reaches {entries : List FileCopyEntry} (ht : tar.Lawful)
    (h : Loop.Reaches (step tar fs) (.init limits entries) s) :
    ∃ ms, Archived tar limits s.writer ms ∧ ms.map (·.path) = s.log.map Prod.snd :=
  h.invariant
    (P := fun s => ∃ ms, Archived tar limits s.writer ms ∧ ms.map (·.path) = s.log.map Prod.snd)
    ⟨[], .new, rfl⟩ fun ⟨_, hs, hnames⟩ hstep => archived_step ht hs hnames hstep

theorem broken_done (ht : tar.Lawful) (h : Archived tar limits s.writer ms)
    (hs : step tar fs s = .done r) : Broken tar r.writes.flatten := by
  rcases step_done hs with ⟨_, _, _, _, _, _, hfailed, rfl⟩ | hf
  · exact hfailed.broken ht h
  · rcases finish_cases h hf with ⟨_, hflat, _⟩ | ⟨_, hbroken⟩
    · exact ⟨ms, TarLib.trailer, hflat, h.appends, Or.inr List.prefix_rfl⟩
    · exact hbroken

end Sender

section Sent

variable {tar : TarLib} {fs : StaticFs} {limits : FileCopyLimits} {entries : List FileCopyEntry}
  {sent : Sent}

theorem SendsArchive.broken (ht : tar.Lawful) (h : SendsArchive tar fs limits entries sent) :
    Broken tar sent.writes.flatten := by
  unfold SendsArchive at h
  split at h
  · subst h
    exact ⟨[], [], rfl, nofun, Or.inl (Or.inl rfl)⟩
  · obtain ⟨t, hreach, hdone⟩ := h.last
    obtain ⟨ms, harchived, -⟩ := Sender.archived_reaches ht hreach
    exact Sender.broken_done ht harchived hdone

/-- The reader of a complete archive finds the names of the paths visited. -/
theorem SendsArchive.read_names (ht : tar.Lawful) (h : SendsArchive tar fs limits entries sent)
    (hok : sent.result = .ok ()) :
    ∃ ms : List Member, tar.read ⟨sent.writes.flatten, none⟩ = (ms.map .whole, none) ∧
      ms.map (·.path) = sent.log.map Prod.snd := by
  unfold SendsArchive at h
  split at h
  · subst h
    cases hok
  · obtain ⟨t, hreach, hdone⟩ := h.last
    obtain ⟨ms, harchived, hnames⟩ := Sender.archived_reaches ht hreach
    rcases Sender.step_done hdone with ⟨_, _, _, _, _, _, _, rfl⟩ | hf
    · cases hok
    · rcases Sender.finish_cases harchived hf with ⟨_, hflat, _⟩ | ⟨⟨err, herr⟩, _⟩
      · refine ⟨ms, ?_, by rw [hnames, Sender.finish_log hf]⟩
        rw [hflat, TarLib.read_archive ht harchived.appends]
      · rw [hok] at herr
        cases herr

end Sent

end Hush.FileCopy
