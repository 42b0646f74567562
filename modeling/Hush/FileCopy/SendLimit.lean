import Hush.FileCopy.Gnu
import Hush.FileCopy.Send
import Mathlib.Data.List.Nodup

/-! When the archive of a forest within the limits is within the byte limit too. -/
namespace Hush.FileCopy
open Hush.Lib

/-- What is assumed of the tar writer: a member that it takes is a header and data in whole
blocks, with a long name in a member before it. -/
structure TarLib.Sized (tar : TarLib) : Prop where
  appendDir : ∀ name, (tar.appendDir name).err = none →
    (tar.appendDir name).writes.flatten.length = Gnu.entryLength name 0
  appendPath : ∀ name (size : UInt64) data, data.length = size.toNat →
    (tar.appendPath name (.file size data none)).err = none →
    (tar.appendPath name (.file size data none)).writes.flatten.length =
      Gnu.entryLength name size.toNat

/-- Files and directories with their source and member names. The children of a directory stand
in the order in which the stack gives them back. -/
inductive Forest
  | nil
  | file (source name : Path) (data : Bytes) (rest : Forest)
  | dir (source name : Path) (children rest : Forest)

namespace Forest

def roots : Forest → List (Path × Path)
  | .nil => []
  | .file source name _ rest | .dir source name _ rest => (source, name) :: rest.roots

def names : Forest → List Path
  | .nil => []
  | .file _ name _ rest => name :: rest.names
  | .dir _ name children rest => name :: (children.names ++ rest.names)

/-- What each node is charged. -/
def sizes : Forest → List Nat
  | .nil => []
  | .file _ _ data rest => data.length :: rest.sizes
  | .dir _ _ children rest => 0 :: (children.sizes ++ rest.sizes)

def length : Forest → Nat
  | .nil => 0
  | .file _ name data rest => Gnu.entryLength name data.length + rest.length
  | .dir _ name children rest => Gnu.entryLength name 0 + (children.length + rest.length)

def archiveLength (f : Forest) : Nat := f.length + TarLib.trailer.length

/-- The forest is in the filesystem, and the tar writer takes its members. -/
def Holds (tar : TarLib) (fs : Fs) : Forest → Prop
  | .nil => True
  | .file source name data rest =>
    (∃ size : UInt64, data.length = size.toNat ∧
      fs.symlinkMetadata source = .ok (.file size) ∧ fs.source source = .file size data none ∧
      (tar.appendPath name (.file size data none)).err = none) ∧
    rest.Holds tar fs
  | .dir source name children rest =>
    (fs.symlinkMetadata source = .ok .dir ∧ fs.statDir source = .ok () ∧
      (tar.appendDir name).err = none) ∧
    (∃ names, fs.readDir source = .ok (names, none) ∧
      children.roots = (Sender.children source name names).reverse) ∧
    children.Holds tar fs ∧ rest.Holds tar fs

/-- Empty directories. -/
def dirs : List (Path × Path) → Forest
  | [] => .nil
  | (source, name) :: rest => .dir source name .nil (dirs rest)

theorem roots_dirs (l : List (Path × Path)) : (dirs l).roots = l := by
  induction l with
  | nil => rfl
  | cons e rest ih => rw [dirs, roots, ih]

theorem sizes_dirs (l : List (Path × Path)) : (dirs l).sizes = List.replicate l.length 0 := by
  induction l with
  | nil => rfl
  | cons e rest ih => rw [dirs, sizes, sizes, ih, List.nil_append, List.length_cons,
      List.replicate_succ]

theorem length_dirs {l : List (Path × Path)} {n : Nat}
    (h : ∀ e ∈ l, Gnu.entryLength e.2 0 = n) : (dirs l).length = l.length * n := by
  induction l with
  | nil => simp [dirs, length]
  | cons e rest ih =>
    rw [List.forall_mem_cons] at h
    rw [dirs, length, length, h.1, ih h.2, Nat.zero_add, List.length_cons, Nat.succ_mul,
      Nat.add_comm]

theorem holds_dirs {tar : TarLib} {fs : Fs} {l : List (Path × Path)}
    (h : ∀ e ∈ l, fs.symlinkMetadata e.1 = .ok .dir ∧ fs.statDir e.1 = .ok () ∧
      (tar.appendDir e.2).err = none ∧ fs.readDir e.1 = .ok ([], none)) :
    (dirs l).Holds tar fs := by
  induction l with
  | nil => trivial
  | cons e rest ih =>
    rw [List.forall_mem_cons] at h
    obtain ⟨⟨hmetadata, hstat, htaken, hread⟩, hrest⟩ := h
    exact ⟨⟨hmetadata, hstat, htaken⟩, ⟨[], hread, rfl⟩, trivial, ih hrest⟩

theorem length_le {f : Forest} (h : ∀ name ∈ f.names, name.length ≤ 100) :
    f.length ≤ f.sizes.sum + 1024 * f.sizes.length := by
  have hentry : ∀ (name : Path) (n : Nat), name.length ≤ 100 →
      Gnu.entryLength name n ≤ n + 1024 := by
    intro name n hname
    rw [Gnu.entryLength, if_neg (Nat.not_lt.mpr hname), Gnu.padded]
    omega
  induction f with
  | nil => exact Nat.zero_le _
  | file source name data rest ih =>
    simp only [names, List.forall_mem_cons] at h
    have := hentry name data.length h.1
    have := ih h.2
    simp only [length, sizes, List.sum_cons, List.length_cons]
    omega
  | dir source name children rest ihc ih =>
    simp only [names, List.forall_mem_cons, List.forall_mem_append] at h
    have := hentry name 0 h.1
    have := ihc h.2.1
    have := ih h.2.2
    simp only [length, sizes, List.sum_cons, List.sum_append, List.length_cons,
      List.length_append]
    omega

/-- The byte limit is enough for names that fit a header, unless it saturates. -/
theorem archiveLength_le {f : Forest} {limits : FileCopyLimits}
    (hnames : ∀ name ∈ f.names, name.length ≤ 100)
    (hcount : f.sizes.length ≤ limits.maxEntries.toNat)
    (hbytes : f.sizes.sum ≤ limits.maxBytes.toNat)
    (hsmall : limits.maxBytes.toNat + limits.maxEntries.toNat * 1024 + streamBuffer ≤ u64Max) :
    f.archiveLength ≤ archiveByteLimit limits := by
  have hlength := length_le hnames
  have htrailer : TarLib.trailer.length = 1024 := List.length_replicate
  rw [archiveLength, htrailer, archiveByteLimit, satMul, satAdd, satAdd]
  simp only [streamBuffer] at hsmall ⊢
  omega

end Forest

/-- The copy failed at the byte limit. -/
def LimitError (result : Except String Unit) : Prop :=
  ∃ context, result = .error (context ++ limitReachedMessage)

section Run

variable {tar : TarLib} {fs : Fs} {limits : FileCopyLimits} {s t : Sender} {sizes : List Nat}
  {pending : List (Path × Path)} {entries : List FileCopyEntry} {source name : Path}

/-- Where the loop stands after nodes of these sizes. -/
structure Sender.At (limits : FileCopyLimits) (sizes : List Nat) (pending : List (Path × Path))
    (entries : List FileCopyEntry) (s : Sender) : Prop where
  spent : s.budget.Spent limits sizes
  limit_eq : s.writer.limit = archiveByteLimit limits
  written_le : s.writer.written ≤ s.writer.limit
  pending_eq : s.pending = pending
  entries_eq : s.entries = entries

/-- The loop writes so many bytes and gets to a state with `P`, or it fails at the limit. -/
structure Advances (tar : TarLib) (fs : Fs) (limits : FileCopyLimits) (added : Nat)
    (P : Sender → Prop) (s : Sender) : Prop where
  fits : s.writer.written + added ≤ archiveByteLimit limits →
    ∃ t, P t ∧ t.writer.written = s.writer.written + added ∧
      ∀ r, Loop.Returns (Sender.step tar fs) t r → Loop.Returns (Sender.step tar fs) s r
  fails : archiveByteLimit limits < s.writer.written + added →
    ∃ r, Loop.Returns (Sender.step tar fs) s r ∧ LimitError r.result

theorem Advances.trans {P Q : Sender → Prop} {m n : Nat} (h : Advances tar fs limits m P s)
    (h' : ∀ t, P t → Advances tar fs limits n Q t) : Advances tar fs limits (m + n) Q s := by
  constructor
  · intro hfit
    obtain ⟨t, ht, hwritten, hrun⟩ := h.fits (by omega)
    obtain ⟨u, hu, hwritten', hrun'⟩ := (h' t ht).fits (by omega)
    exact ⟨u, hu, by omega, fun r hr => hrun r (hrun' r hr)⟩
  · intro hlimit
    by_cases hfit : s.writer.written + m ≤ archiveByteLimit limits
    · obtain ⟨t, ht, hwritten, hrun⟩ := h.fits hfit
      obtain ⟨r, hr, herr⟩ := (h' t ht).fails (by omega)
      exact ⟨r, hrun r hr, herr⟩
    · exact h.fails (Nat.not_le.mp hfit)

theorem Advances.next {P : Sender → Prop} {n : Nat} (h : Sender.step tar fs s = .next t)
    (hwriter : t.writer = s.writer) (ht : Advances tar fs limits n P t) :
    Advances tar fs limits n P s := by
  constructor
  · intro hfit
    rw [← hwriter] at hfit ⊢
    obtain ⟨u, hu, hwritten, hrun⟩ := ht.fits hfit
    exact ⟨u, hu, hwritten, fun r hr => .next h (hrun r hr)⟩
  · intro hlimit
    rw [← hwriter] at hlimit
    obtain ⟨r, hr, herr⟩ := ht.fails hlimit
    exact ⟨r, .next h hr, herr⟩

theorem Advances.refl {P : Sender → Prop} (h : P s)
    (hle : s.writer.written ≤ archiveByteLimit limits) : Advances tar fs limits 0 P s :=
  ⟨fun _ => ⟨s, h, rfl, fun _ hr => hr⟩, fun hlt => absurd hle (Nat.not_le.mpr hlt)⟩

/-- A step that appends a member goes on with the new writer, or fails as the writer does. -/
theorem advances_append {P : Sender → Prop} {a : Append} (ha : a.err = none)
    (hlimit : s.writer.limit = archiveByteLimit limits) (hle : s.writer.written ≤ s.writer.limit)
    (hnext : ∀ w, s.writer.append a = (w, none) → w.limit = s.writer.limit →
      w.written ≤ w.limit → ∃ t, Sender.step tar fs s = .next t ∧ t.writer = w ∧ P t)
    (hdone : ∀ w err, s.writer.append a = (w, some err) →
      ∃ r context, Sender.step tar fs s = .done r ∧ r.result = .error (context ++ err)) :
    Advances tar fs limits a.writes.flatten.length P s := by
  rcases LimitedWriter.append_cases hle ha with
    ⟨hfit, w, hw, hwlimit, hwritten⟩ | ⟨hlt, w, hw⟩
  · obtain ⟨t, ht, rfl, hP⟩ := hnext w hw hwlimit (by omega)
    exact ⟨fun _ => ⟨t, hP, hwritten, fun _ hr => .next ht hr⟩, fun hover => by omega⟩
  · obtain ⟨r, context, hr, hresult⟩ := hdone w _ hw
    exact ⟨fun hfit => by omega, fun _ => ⟨r, .done hr, context, hresult⟩⟩

/-- A file is archived if the budget allows it. -/
theorem advances_file (ht : tar.Sized) {size : UInt64} {data : Bytes}
    (hs : s.At limits sizes ((source, name) :: pending) entries)
    (hdata : data.length = size.toNat) (hmetadata : fs.symlinkMetadata source = .ok (.file size))
    (hsource : fs.source source = .file size data none)
    (htaken : (tar.appendPath name (.file size data none)).err = none)
    (hallows : limits.Allows (sizes ++ [data.length])) :
    Advances tar fs limits (Gnu.entryLength name data.length)
      (Sender.At limits (sizes ++ [data.length]) pending entries) s := by
  obtain ⟨budget, hadd⟩ : ∃ budget, s.budget.add data.length = .ok budget :=
    ⟨_, (CopyBudget.add_ok_iff hs.spent).mpr ⟨hallows, rfl⟩⟩
  have hspent := ((CopyBudget.add_ok_iff hs.spent).mp hadd).2
  have hstep : Sender.step tar fs s = Sender.appendPath tar fs
      ⟨entries, pending, budget, s.writer, s.log ++ [(source, name)]⟩ source name := by
    rw [hdata] at hadd
    rw [Sender.step_path hs.pending_eq hmetadata nofun hadd, hs.entries_eq]
  rw [hdata, ← ht.appendPath name size data hdata htaken]
  refine advances_append htaken hs.limit_eq hs.written_le ?_ ?_
  · intro w hw hwlimit hle
    rw [← hsource] at hw
    rw [← hdata]
    exact ⟨_, hstep.trans (Sender.appendPath_ok hw), rfl, hspent, hwlimit.trans hs.limit_eq, hle,
      rfl, rfl⟩
  · intro w err hw
    rw [← hsource] at hw
    exact ⟨_, _, hstep.trans (Sender.appendPath_err hw), rfl⟩

/-- A directory is archived if the budget allows it, and its children are on the stack. -/
theorem advances_dir (ht : tar.Sized) {names : List FileName}
    (hs : s.At limits sizes ((source, name) :: pending) entries)
    (hmetadata : fs.symlinkMetadata source = .ok .dir) (hstat : fs.statDir source = .ok ())
    (htaken : (tar.appendDir name).err = none) (hread : fs.readDir source = .ok (names, none))
    (hallows : limits.Allows (sizes ++ [0])) :
    Advances tar fs limits (Gnu.entryLength name 0) (Sender.At limits (sizes ++ [0])
      ((Sender.children source name names).reverse ++ pending) entries) s := by
  obtain ⟨budget, hadd⟩ : ∃ budget, s.budget.add 0 = .ok budget :=
    ⟨_, (CopyBudget.add_ok_iff hs.spent).mpr ⟨hallows, rfl⟩⟩
  have hspent := ((CopyBudget.add_ok_iff hs.spent).mp hadd).2
  have hstep : Sender.step tar fs s = Sender.appendDirectory tar fs
      ⟨entries, pending, budget, s.writer, s.log ++ [(source, name)]⟩ source name := by
    rw [Sender.step_directory hs.pending_eq hmetadata hadd, hs.entries_eq]
  rw [← ht.appendDir name htaken]
  refine advances_append htaken hs.limit_eq hs.written_le ?_ ?_
  · intro w hw hwlimit hle
    exact ⟨_, hstep.trans (Sender.appendDirectory_ok hstat hw hread), rfl, hspent,
      hwlimit.trans hs.limit_eq, hle, rfl, rfl⟩
  · intro w err hw
    exact ⟨_, _, hstep.trans (Sender.appendDirectory_err hstat hw), rfl⟩

/-- A forest on top of the stack is archived if the budget allows it. -/
theorem Forest.advances (ht : tar.Sized) {f : Forest} (hf : f.Holds tar fs)
    (hs : s.At limits sizes (f.roots ++ pending) entries)
    (hallows : limits.Allows (sizes ++ f.sizes)) :
    Advances tar fs limits f.length (Sender.At limits (sizes ++ f.sizes) pending entries) s := by
  induction f generalizing s sizes pending with
  | nil =>
    rw [Forest.sizes, List.append_nil]
    exact .refl hs (hs.limit_eq ▸ hs.written_le)
  | file source name data rest ih =>
    obtain ⟨⟨size, hdata, hmetadata, hsource, htaken⟩, hrest⟩ := hf
    rw [Forest.sizes, List.append_cons] at hallows ⊢
    exact (advances_file ht hs hdata hmetadata hsource htaken hallows.of_append).trans
      fun t hs => ih hrest hs hallows
  | dir source name children rest ihc ih =>
    obtain ⟨⟨hmetadata, hstat, htaken⟩, ⟨names, hread, hroots⟩, hchildren, hrest⟩ := hf
    rw [Forest.sizes, List.append_cons, ← List.append_assoc] at hallows ⊢
    refine (advances_dir ht hs hmetadata hstat htaken hread hallows.of_append.of_append).trans
      fun t hs => ?_
    rw [← hroots] at hs
    exact (ihc hchildren hs hallows.of_append).trans fun t hs => ih hrest hs hallows

/-- With nothing on the stack the next entry goes there. -/
theorem Sender.At.start {entry : FileCopyEntry} (hs : s.At limits sizes [] (entry :: entries))
    (tar : TarLib) (fs : Fs) :
    ∃ t, Sender.step tar fs s = .next t ∧ t.writer = s.writer ∧
      t.At limits sizes [(.ofString entry.path, .ofString entry.archiveName)] entries := by
  have hnext : Sender.step tar fs s = .next { s with
      entries := entries, pending := [(.ofString entry.path, .ofString entry.archiveName)] } := by
    simp only [Sender.step, hs.pending_eq, hs.entries_eq]
  exact ⟨_, hnext, rfl, hs.spent, hs.limit_eq, hs.written_le, rfl, rfl⟩

/-- The entries, one after the other. -/
theorem Forest.advances_entries (ht : tar.Sized) {f : Forest} (hf : f.Holds tar fs)
    (hroots : f.roots = entries.map fun e => (.ofString e.path, .ofString e.archiveName))
    (hs : s.At limits sizes [] entries) (hallows : limits.Allows (sizes ++ f.sizes)) :
    Advances tar fs limits f.length (Sender.At limits (sizes ++ f.sizes) [] []) s := by
  induction f generalizing s sizes entries with
  | nil =>
    obtain rfl : entries = [] := List.map_eq_nil_iff.mp hroots.symm
    rw [Forest.sizes, List.append_nil]
    exact .refl hs (hs.limit_eq ▸ hs.written_le)
  | file source name data rest ih =>
    obtain ⟨hfile, hrest⟩ := hf
    obtain ⟨entry, entries, rfl, hentry, hroots⟩ := List.map_eq_cons_iff.mp hroots.symm
    obtain ⟨t, hnext, hwriter, ht'⟩ := hs.start tar fs
    rw [Forest.sizes, List.append_cons] at hallows ⊢
    rw [hentry] at ht'
    exact .next hnext hwriter
      (.trans (Forest.advances ht (f := .file source name data .nil) ⟨hfile, trivial⟩ ht'
        hallows.of_append) fun t hs => ih hrest hroots.symm hs hallows)
  | dir source name children rest ihc ih =>
    obtain ⟨hdir, hnames, hchildren, hrest⟩ := hf
    obtain ⟨entry, entries, rfl, hentry, hroots⟩ := List.map_eq_cons_iff.mp hroots.symm
    obtain ⟨t, hnext, hwriter, ht'⟩ := hs.start tar fs
    rw [Forest.sizes, List.append_cons, ← List.append_assoc] at hallows ⊢
    rw [hentry] at ht'
    have htree := Forest.advances ht (f := .dir source name children .nil)
      ⟨hdir, hnames, hchildren, trivial⟩ ht' (by simpa [Forest.sizes] using hallows.of_append)
    rw [Forest.length, Forest.length, Nat.add_zero, Forest.sizes, Forest.sizes, List.append_nil,
      List.append_cons] at htree
    rw [Forest.length, ← Nat.add_assoc]
    exact .next hnext hwriter (htree.trans fun t hs => ih hrest hroots.symm hs hallows)

/-- The trailer is the last thing to be written. -/
theorem Sender.At.finish (hs : s.At limits sizes [] []) (tar : TarLib) (fs : Fs) :
    ∃ r, Loop.Returns (Sender.step tar fs) s r ∧
      (s.writer.written + TarLib.trailer.length ≤ archiveByteLimit limits → r.result = .ok ()) ∧
      (archiveByteLimit limits < s.writer.written + TarLib.trailer.length →
        LimitError r.result) := by
  have hstep : Sender.step tar fs s = s.finish := Sender.step_finish hs.pending_eq hs.entries_eq
  rcases LimitedWriter.writeAll_cases TarLib.trailer hs.written_le with
    ⟨hfit, hw⟩ | ⟨hlt, w, hw⟩
  · rw [hs.limit_eq] at hfit
    exact ⟨_, .done (hstep.trans (Sender.finish_ok hw)), fun _ => rfl,
      fun hlt => absurd hfit (Nat.not_le.mpr hlt)⟩
  · rw [hs.limit_eq] at hlt
    exact ⟨_, .done (hstep.trans (Sender.finish_err hw)),
      fun hfit => absurd hfit (Nat.not_le.mpr hlt), fun _ => ⟨_, rfl⟩⟩

end Run

theorem LimitError.ne_ok {result : Except String Unit} (h : LimitError result) :
    result ≠ .ok () := by
  obtain ⟨context, rfl⟩ := h
  simp

theorem Sender.At.init (limits : FileCopyLimits) (entries : List FileCopyEntry) :
    (Sender.init limits entries).At limits [] [] entries :=
  ⟨CopyBudget.spent_new, rfl, Nat.zero_le _, rfl, rfl⟩

/-- After the checks the copy ends as its loop does. -/
theorem sendsArchive_iff {tar : TarLib} {fs : Fs} {limits : FileCopyLimits}
    {entries : List FileCopyEntry} {sent : Sent} (hdisabled : limits.disabled = false)
    (hne : entries ≠ [])
    (hsent : Loop.Returns (Sender.step tar fs) (.init limits entries) sent) (sent' : Sent) :
    SendsArchive tar fs limits entries sent' ↔ sent' = sent := by
  have hpre : sendPrecheck limits entries = .ok () := by
    simp [sendPrecheck, hne, hdisabled]
  simp only [SendsArchive, hpre]
  exact ⟨fun h => h.unique hsent, fun h => h ▸ hsent⟩

/-- The copy of a forest within the limits: it succeeds if the archive is short enough, and
fails at the byte limit if not. -/
theorem Forest.sends {tar : TarLib} (ht : tar.Sized) {fs : Fs} {limits : FileCopyLimits}
    (hdisabled : limits.disabled = false) {entries : List FileCopyEntry} (hne : entries ≠ [])
    {f : Forest} (hf : f.Holds tar fs)
    (hroots : f.roots = entries.map fun e => (.ofString e.path, .ofString e.archiveName))
    (hcount : f.sizes.length ≤ limits.maxEntries.toNat)
    (hbytes : f.sizes.sum ≤ limits.maxBytes.toNat) :
    ∃ sent, (∀ sent', SendsArchive tar fs limits entries sent' ↔ sent' = sent) ∧
      (f.archiveLength ≤ archiveByteLimit limits → sent.result = .ok ()) ∧
      (archiveByteLimit limits < f.archiveLength → LimitError sent.result) := by
  have hrun := Forest.advances_entries ht hf hroots (Sender.At.init limits entries)
    ⟨Or.inl hcount, Or.inl hbytes⟩
  have hzero : (Sender.init limits entries).writer.written = 0 := rfl
  by_cases hfit : f.length ≤ archiveByteLimit limits
  · obtain ⟨s, hs, hwritten, hreturns⟩ := hrun.fits (by omega)
    obtain ⟨sent, hsent, hok, herr⟩ := hs.finish tar fs
    rw [hwritten, hzero, Nat.zero_add] at hok herr
    exact ⟨sent, sendsArchive_iff hdisabled hne (hreturns _ hsent), hok, herr⟩
  · obtain ⟨sent, hsent, herr⟩ := hrun.fails (by omega)
    refine ⟨sent, sendsArchive_iff hdisabled hne hsent, fun hle => ?_, fun _ => herr⟩
    exact absurd (Nat.le_trans (Nat.le_add_right _ _) hle) hfit

/-- A forest within the limits is copied without a limit error, exactly if its archive is
within the byte limit that is derived from them. -/
theorem send_within_limits_iff {tar : TarLib} (ht : tar.Sized) {fs : Fs} {limits : FileCopyLimits}
    (hdisabled : limits.disabled = false) {entries : List FileCopyEntry} (hne : entries ≠ [])
    {f : Forest} (hf : f.Holds tar fs)
    (hroots : f.roots = entries.map fun e => (.ofString e.path, .ofString e.archiveName))
    (hcount : f.sizes.length ≤ limits.maxEntries.toNat)
    (hbytes : f.sizes.sum ≤ limits.maxBytes.toNat) :
    ∃ sent, (∀ sent', SendsArchive tar fs limits entries sent' ↔ sent' = sent) ∧
      (¬ LimitError sent.result ↔ f.archiveLength ≤ archiveByteLimit limits) ∧
      (sent.result = .ok () ↔ f.archiveLength ≤ archiveByteLimit limits) := by
  obtain ⟨sent, hsent, hok, herr⟩ := Forest.sends ht hdisabled hne hf hroots hcount hbytes
  refine ⟨sent, hsent, ⟨fun hno => ?_, fun hle herr => herr.ne_ok (hok hle)⟩,
    ⟨fun hresult => ?_, hok⟩⟩
  · exact Nat.not_lt.mp fun hlt => hno (herr hlt)
  · exact Nat.not_lt.mp fun hlt => (herr hlt).ne_ok hresult

namespace Gnu

theorem tar_sized : tar.Sized where
  appendDir := by
    intro name herr
    have hwrites : (tar.appendDir name).writes.flatten = encode (.directory name) :=
      (extend_writes _ _).trans
        (congrArg (extension name ++ ·) (Ustar.tar_lawful.appendDir_ok (name.take 100) herr))
    rw [hwrites, length_encode (Nat.zero_le _)]
    rfl
  appendPath := by
    intro name size data hdata herr
    have hmember : (Source.file size data none).member (name.take 100) =
        some (short ⟨name, .regular, data, []⟩) := by
      simp [Source.member, hdata, short]
    have hwrites : (tar.appendPath name (.file size data none)).writes.flatten =
        encode ⟨name, .regular, data, []⟩ :=
      (extend_writes _ _).trans
        (congrArg (extension name ++ ·) (Ustar.tar_lawful.appendPath_ok _ _ _ hmember herr))
    rw [hwrites, length_encode (Nat.zero_le _), ← hdata]

end Gnu

/-- A file wherever one looks. -/
def oneNote : Fs where
  symlinkMetadata := fun _ => .ok (.file 2)
  statDir := fun _ => .ok ()
  readDir := fun _ => .ok ([], none)
  source := fun _ => .file 2 [104, 105] none

def Forest.note : Forest := .file (.ofString "notes") (.ofString "notes") [104, 105] .nil

theorem send_within_limits_note :
    ∃ sent, (∀ sent', SendsArchive Gnu.tar oneNote ⟨2, 1⟩ [⟨"notes", "notes"⟩] sent' ↔
      sent' = sent) ∧ sent.result = .ok () := by
  have hf : Forest.note.Holds Gnu.tar oneNote := ⟨⟨2, rfl, rfl, rfl, by decide⟩, trivial⟩
  have hdisabled : (⟨2, 1⟩ : FileCopyLimits).disabled = false := by decide
  have hfits : Forest.note.archiveLength ≤ archiveByteLimit ⟨2, 1⟩ :=
    Forest.archiveLength_le (by decide) (by decide) (by decide) (by decide)
  obtain ⟨sent, hsent, -, hok⟩ := send_within_limits_iff Gnu.tar_sized hdisabled
    (List.cons_ne_nil ⟨"notes", "notes"⟩ []) hf rfl (by decide) (by decide)
  exact ⟨sent, hsent, hok.mpr hfits⟩

namespace Wide

/-- One of the 64 characters from the digit zero on. -/
def digit (i : Nat) : UInt8 := .ofNat (48 + i % 64)

theorem digit_ne (i : Nat) : Path.slash ≠ digit i ∧ digit i ≠ Path.dot := by
  have hall : ∀ k : Fin 64,
      Path.slash ≠ UInt8.ofNat (48 + k) ∧ UInt8.ofNat (48 + k) ≠ Path.dot := by decide
  exact hall ⟨i % 64, Nat.mod_lt _ (by decide)⟩

def child (i : Nat) : FileName where
  bytes := [digit (i / 64), digit i]
  ne_nil := List.cons_ne_nil _ _
  no_slash := by simp [digit_ne]
  ne_dot := by simp
  ne_dotdot := by simp [digit_ne]

def children (n : Nat) : List FileName := (List.range n).map child

def source : Path := .ofString "d"

/-- A name of 101 bytes. -/
def archiveName : String := String.ofList (List.replicate 101 'a')

/-- A directory with so many empty ones in it. -/
def fs (n : Nat) : Fs where
  symlinkMetadata := fun _ => .ok .dir
  statDir := fun _ => .ok ()
  readDir := fun p => .ok (if p = source then children n else [], none)
  source := fun _ => .unreadable "Is a directory (os error 21)"

def pairs (n : Nat) : List (Path × Path) :=
  (Sender.children source (.ofString archiveName) (children n)).reverse

def forest (n : Nat) : Forest := .dir source (.ofString archiveName) (.dirs (pairs n)) .nil

variable {n : Nat}

theorem digit_inj {i j : Nat} (h : digit i = digit j) : i % 64 = j % 64 := by
  have hnat := congrArg UInt8.toNat h
  simp only [digit, UInt8.toNat_ofNat'] at hnat
  omega

theorem children_nodup (h : n ≤ 64 * 64) : (children n).Nodup := by
  refine List.Nodup.map_on ?_ List.nodup_range
  intro i hi j hj heq
  obtain ⟨hhigh, hlow⟩ : digit (i / 64) = digit (j / 64) ∧ digit i = digit j := by
    simpa [child] using heq
  have := digit_inj hhigh
  have := digit_inj hlow
  rw [List.mem_range] at hi hj
  omega

theorem ofString_archiveName : Path.ofString archiveName = List.replicate 101 97 := by
  decide +kernel

theorem length_archiveName : (Path.ofString archiveName).length = 101 := by
  rw [ofString_archiveName, List.length_replicate]

theorem join_child {p : Path} (h : p.getLast? ≠ none) (hslash : p.getLast? ≠ some Path.slash)
    (i : Nat) : p.join (child i).bytes = p ++ Path.slash :: (child i).bytes := by
  have hlast : (p.getLast?.isSome && p.getLast? != some Path.slash) = true := by
    simp [Option.isSome_iff_ne_none, h, hslash]
  rw [Path.join, Path.isAbsolute_fileName, if_neg Bool.false_ne_true, if_pos hlast]

theorem mem_pairs {e : Path × Path} (h : e ∈ pairs n) :
    ∃ i, e = (source ++ Path.slash :: (child i).bytes,
      Path.ofString archiveName ++ Path.slash :: (child i).bytes) := by
  simp only [pairs, Sender.children, children, List.map_map, List.mem_reverse, List.mem_map] at h
  obtain ⟨i, -, rfl⟩ := h
  have hlast : (Path.ofString archiveName).getLast? = some 97 := by
    rw [ofString_archiveName, List.getLast?_replicate]
    rfl
  refine ⟨i, ?_⟩
  simp only [Function.comp_apply]
  rw [join_child (by decide) (by decide), join_child (by simp [hlast]) (by rw [hlast]; decide)]

theorem length_pairs : (pairs n).length = n := by
  simp [pairs, Sender.children, children]

theorem appendDir_err {name : Path} (h : name.take 100 = (Path.ofString archiveName).take 100) :
    (Gnu.tar.appendDir name).err = none := by
  have hfits : Ustar.fits (.directory (List.replicate 100 97)) = true := by
    rw [Ustar.fits_iff]
    simp [Member.directory]
  change (Ustar.tar.appendDir (name.take 100)).err = none
  rw [h, ofString_archiveName, List.take_replicate]
  exact Ustar.appendMember_err.mpr hfits

theorem forest_holds : (forest n).Holds Gnu.tar (fs n) := by
  refine ⟨⟨rfl, rfl, appendDir_err rfl⟩, ⟨children n, ?_, Forest.roots_dirs _⟩,
    Forest.holds_dirs ?_, trivial⟩
  · simp only [fs, if_true]
  · intro e he
    obtain ⟨i, rfl⟩ := mem_pairs he
    have hlong : 100 ≤ (Path.ofString archiveName).length := by
      rw [length_archiveName]
      decide
    have hne : source ++ Path.slash :: (child i).bytes ≠ source := by simp
    refine ⟨rfl, rfl, appendDir_err (List.take_append_of_le_length hlong), ?_⟩
    simp only [fs, if_neg hne]

theorem forest_sizes : (forest n).sizes = List.replicate (n + 1) 0 := by
  rw [forest, Forest.sizes, Forest.sizes_dirs, length_pairs, Forest.sizes, List.append_nil,
    ← List.replicate_succ]

theorem forest_archiveLength : (forest n).archiveLength = (n + 1) * 1536 + 1024 := by
  have hentry : ∀ name : Path, 100 < name.length → name.length < 512 →
      Gnu.entryLength name 0 = 1536 := by
    intro name hlong hshort
    rw [Gnu.entryLength, if_pos hlong, Gnu.padded, Gnu.padded]
    omega
  have hroot := hentry (.ofString archiveName) (by rw [length_archiveName]; decide)
    (by rw [length_archiveName]; decide)
  have hchildren : (Forest.dirs (pairs n)).length = n * 1536 := by
    have hall : ∀ e ∈ pairs n, Gnu.entryLength e.2 0 = 1536 := by
      intro e he
      obtain ⟨i, rfl⟩ := mem_pairs he
      apply hentry <;> simp [length_archiveName, child]
    rw [Forest.length_dirs hall, length_pairs]
  have htrailer : TarLib.trailer.length = 1024 := List.length_replicate
  rw [Forest.archiveLength, htrailer, forest, Forest.length, hroot, hchildren, Forest.length]
  omega

end Wide

/-- The limits allow 2047 entries, and there are as many directories. Their long names make
each of them 1536 bytes of the archive instead of the 1024 that the byte limit reckons with. -/
theorem send_limit_reached :
    Gnu.tar.Sized ∧ (Wide.forest 2046).Holds Gnu.tar (Wide.fs 2046) ∧
    (Wide.children 2046).Nodup ∧ (Wide.forest 2046).sizes = List.replicate 2047 0 ∧
    ∃ sent, SendsArchive Gnu.tar (Wide.fs 2046) ⟨1, 2047⟩ [⟨"d", Wide.archiveName⟩] sent ∧
      LimitError sent.result := by
  have hsizes : (Wide.forest 2046).sizes = List.replicate 2047 0 := Wide.forest_sizes
  have hdisabled : (⟨1, 2047⟩ : FileCopyLimits).disabled = false := by decide
  have hcount : (Wide.forest 2046).sizes.length ≤ 2047 := by
    rw [hsizes, List.length_replicate]
  have hbytes : (Wide.forest 2046).sizes.sum ≤ 1 := by
    rw [hsizes, List.sum_replicate_nat]
    decide
  have hlimit : archiveByteLimit ⟨1, 2047⟩ < (Wide.forest 2046).archiveLength := by
    rw [Wide.forest_archiveLength]
    decide
  obtain ⟨sent, hsent, -, herr⟩ := Forest.sends Gnu.tar_sized hdisabled
    (List.cons_ne_nil ⟨"d", Wide.archiveName⟩ []) Wide.forest_holds rfl hcount hbytes
  exact ⟨Gnu.tar_sized, Wide.forest_holds, Wide.children_nodup (by decide), hsizes, sent,
    (hsent sent).mpr rfl, herr hlimit⟩

end Hush.FileCopy
