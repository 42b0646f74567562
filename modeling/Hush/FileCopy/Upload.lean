import Hush.FileCopy.Archive
import Hush.FileCopy.Ustar

/-! An upload reads what was asked for, whatever plan the server returns. -/
namespace Hush.FileCopy
open Hush.Lib

/-- The member's name lies under the archive name's one component. -/
def Contained (archiveName : String) (name : Path) : Prop :=
  ∃ (c : List UInt8) (rest : List (List UInt8)),
    (Path.ofString archiveName).components = [.normal c] ∧
    name.components = .normal c :: rest.map .normal

theorem Contained.join {archiveName : String} {name : Path} (h : Contained archiveName name)
    (n : FileName) : Contained archiveName (name.join n.bytes) := by
  obtain ⟨c, rest, hname, hcomponents⟩ := h
  refine ⟨c, rest ++ [n.bytes], hname, ?_⟩
  rw [Path.components_join, hcomponents]
  simp

/-- A relative path, without a root and without `..`. -/
theorem Contained.safe {archiveName : String} {name : Path} (h : Contained archiveName name) :
    name.isAbsolute = false ∧ .rootDir ∉ name.components ∧ .parentDir ∉ name.components := by
  obtain ⟨c, rest, _, hcomponents⟩ := h
  have hroot : Path.Component.rootDir ∉ name.components := by simp [hcomponents]
  refine ⟨?_, hroot, by simp [hcomponents]⟩
  cases habs : name.isAbsolute with
  | false => rfl
  | true =>
    exfalso
    apply hroot
    simp [Path.components, Path.start, habs]

/-- A visit for this entry of the plan: a path under the one requested, named under the one
returned. -/
def VisitOk (fs : Fs) (pair : FileCopyEntry × FileCopyEntry) (e : Path × Path) : Prop :=
  Descends fs (.ofString pair.1.path) e.1 ∧ Contained pair.2.archiveName e.2

/-- The log goes through the entries in order, each visit for its entry. -/
def InOrder (fs : Fs) (pairs : List (FileCopyEntry × FileCopyEntry)) (log : List (Path × Path)) :
    Prop :=
  ∃ tagged : List (Nat × Path × Path), tagged.map Prod.snd = log ∧
    (tagged.map Prod.fst).Pairwise (· ≤ ·) ∧
    ∀ tag ∈ tagged, ∃ pair, pairs[tag.1]? = some pair ∧ VisitOk fs pair tag.2

namespace Upload

/-- After `k` entries have been started: the log is in order up to the last of these, and
the stack holds visits for it. -/
structure Invariant (fs : Fs) (pairs : List (FileCopyEntry × FileCopyEntry)) (s : Sender)
    (k : Nat) (tagged : List (Nat × Path × Path)) : Prop where
  entries : s.entries = (pairs.drop k).map Prod.snd
  log : tagged.map Prod.snd = s.log
  sorted : (tagged.map Prod.fst).Pairwise (· ≤ ·)
  started : ∀ tag ∈ tagged, tag.1 < k
  visits : ∀ tag ∈ tagged, ∃ pair, pairs[tag.1]? = some pair ∧ VisitOk fs pair tag.2
  pending : ∀ e ∈ s.pending, ∃ i pair, i + 1 = k ∧ pairs[i]? = some pair ∧ VisitOk fs pair e

variable {tar : TarLib} {fs : Fs} {pairs : List (FileCopyEntry × FileCopyEntry)}
  {s t : Sender} {k : Nat} {tagged : List (Nat × Path × Path)} {source name : Path}

theorem Invariant.inOrder (h : Invariant fs pairs s k tagged) : InOrder fs pairs s.log :=
  ⟨tagged, h.log, h.sorted, h.visits⟩

/-- The log with one more visit for the entry started last. -/
theorem Invariant.logged (h : Invariant fs pairs s k tagged) {i : Nat}
    {pair : FileCopyEntry × FileCopyEntry} {e : Path × Path} (hi : i + 1 = k)
    (hpair : pairs[i]? = some pair) (he : VisitOk fs pair e) :
    ((tagged ++ [(i, e)]).map Prod.fst).Pairwise (· ≤ ·) ∧
    (∀ tag ∈ tagged ++ [(i, e)], tag.1 < k) ∧
    ∀ tag ∈ tagged ++ [(i, e)], ∃ pair, pairs[tag.1]? = some pair ∧ VisitOk fs pair tag.2 := by
  refine ⟨?_, ?_, ?_⟩
  · rw [List.map_append, List.pairwise_append]
    refine ⟨h.sorted, by simp, ?_⟩
    intro j hj i' hi'
    obtain ⟨tag, htag, rfl⟩ := List.mem_map.mp hj
    have := h.started tag htag
    simp only [List.map_cons, List.map_nil, List.mem_singleton] at hi'
    omega
  · intro tag htag
    rcases List.mem_append.mp htag with htag | htag
    · exact h.started tag htag
    · simp only [List.mem_singleton] at htag
      subst htag
      simp only
      omega
  · intro tag htag
    rcases List.mem_append.mp htag with htag | htag
    · exact h.visits tag htag
    · simp only [List.mem_singleton] at htag
      subst htag
      exact ⟨pair, hpair, he⟩

theorem invariant_visit {rest : List (Path × Path)} (h : Invariant fs pairs s k tagged)
    (hp : s.pending = (source, name) :: rest)
    (hv : Sender.Visited tar fs { s with pending := rest } source name t) :
    ∃ tagged', Invariant fs pairs t k tagged' := by
  obtain ⟨i, pair, hi, hpair, hok⟩ := h.pending (source, name) (by simp [hp])
  obtain ⟨hsorted, hstarted, hvisits⟩ := h.logged hi hpair hok
  refine ⟨tagged ++ [(i, source, name)], ?_, ?_, hsorted, hstarted, hvisits, ?_⟩
  · rw [hv.entries_eq, h.entries]
  · rw [hv.log_eq, ← h.log]
    simp
  · intro e he
    rcases hv.pending he with he | ⟨names, hd, hr, n, hn, rfl⟩
    · exact h.pending e (by simp [hp, he])
    · -- a child of the directory is a visit for the same entry
      exact ⟨i, pair, hi, hpair, .child hok.1 hd hr hn, hok.2.join n⟩

/-- Starting the next entry puts its root on the empty stack. -/
theorem invariant_start (hpairs : ∀ pair ∈ pairs, pair.1.path = pair.2.path ∧
      ∃ c, (Path.ofString pair.2.archiveName).components = [.normal c])
    (h : Invariant fs pairs s k tagged) {entry : FileCopyEntry} {rest : List FileCopyEntry}
    (he : s.entries = entry :: rest) :
    Invariant fs pairs { s with
      entries := rest, pending := [(.ofString entry.path, .ofString entry.archiveName)] }
      (k + 1) tagged := by
  have hdrop := h.entries
  rw [he] at hdrop
  cases hk : pairs[k]? with
  | none =>
    rw [List.drop_eq_nil_of_le (by simpa using hk)] at hdrop
    cases hdrop
  | some pair =>
    obtain ⟨hlt, hget⟩ := List.getElem?_eq_some_iff.mp hk
    rw [List.drop_eq_getElem_cons hlt, hget, List.map_cons, List.cons.injEq] at hdrop
    obtain ⟨rfl, hrest⟩ := hdrop
    refine ⟨hrest, h.log, h.sorted, ?_, h.visits, ?_⟩
    · intro tag htag
      have := h.started tag htag
      omega
    · intro e hmem
      rw [List.mem_singleton] at hmem
      subst hmem
      obtain ⟨hpath, c, hc⟩ := hpairs pair (List.mem_of_getElem? hk)
      refine ⟨k, pair, rfl, hk, ?_, c, [], hc, hc⟩
      rw [← hpath]
      exact .root

theorem invariant_step (hpairs : ∀ pair ∈ pairs, pair.1.path = pair.2.path ∧
      ∃ c, (Path.ofString pair.2.archiveName).components = [.normal c])
    (h : Invariant fs pairs s k tagged) (hs : Sender.step tar fs s = .next t) :
    ∃ k' tagged', Invariant fs pairs t k' tagged' := by
  rcases Sender.step_next hs with ⟨source, name, rest, hp, hv⟩ | ⟨entry, rest, he, rfl⟩
  · obtain ⟨tagged', h'⟩ := invariant_visit h hp hv
    exact ⟨k, tagged', h'⟩
  · exact ⟨k + 1, tagged, invariant_start hpairs h he⟩

/-- The result's log is the last state's, with the path whose visit failed if one did. -/
theorem inOrder_done (h : Invariant fs pairs s k tagged) {r : Sent}
    (hs : Sender.step tar fs s = .done r) : InOrder fs pairs r.log := by
  rcases Sender.step_done hs with ⟨source, name, rest, err, w, hp, _, rfl⟩ | hf
  · obtain ⟨i, pair, hi, hpair, hok⟩ := h.pending (source, name) (by simp [hp])
    obtain ⟨hsorted, _, hvisits⟩ := h.logged hi hpair hok
    exact ⟨tagged ++ [(i, source, name)], by simp [h.log], hsorted, hvisits⟩
  · rw [Sender.finish_log hf]
    exact h.inOrder

theorem invariant_init (limits : FileCopyLimits) (requested : List FileCopyEntry)
    (plan : FileCopyPlan) (hlen : requested.length = plan.entries.length) :
    Invariant fs (requested.zip plan.entries) (.init limits plan.entries) 0 [] := by
  refine ⟨?_, rfl, List.Pairwise.nil, nofun, nofun, nofun⟩
  simp [Sender.init, List.map_snd_zip, hlen]

end Upload

/-- The two filesystems have the same answers to whatever is asked about this path. -/
structure Fs.SameAt (fs fs' : Fs) (p : Path) : Prop where
  symlinkMetadata : fs'.symlinkMetadata p = fs.symlinkMetadata p
  statDir : fs'.statDir p = fs.statDir p
  readDir : fs'.readDir p = fs.readDir p
  source : fs'.source p = fs.source p

section Congr

variable {tar : TarLib} {fs fs' : Fs} {s : Sender}

/-- A visit asks about its path only. -/
theorem Sender.visit_congr {source : Path} (h : fs.SameAt fs' source) (name : Path) :
    visit tar fs' s source name = visit tar fs s source name := by
  simp only [visit, appendDirectory, appendPath, h.symlinkMetadata, h.statDir, h.readDir,
    h.source]

theorem Sender.step_congr (h : ∀ e ∈ s.pending, fs.SameAt fs' e.1) :
    step tar fs' s = step tar fs s := by
  unfold step
  split
  · next source name rest hp =>
    have hsame : fs.SameAt fs' source := h (source, name) (by simp [hp])
    exact visit_congr hsame name
  · rfl
  · rfl

theorem sendsArchive_congr {limits : FileCopyLimits} {entries : List FileCopyEntry} {sent : Sent}
    (h : ∀ s, Loop.Reaches (Sender.step tar fs) (.init limits entries) s →
      ∀ e ∈ s.pending, fs.SameAt fs' e.1) :
    SendsArchive tar fs' limits entries sent ↔ SendsArchive tar fs limits entries sent := by
  unfold SendsArchive
  split
  · rfl
  · exact Loop.returns_congr fun t ht => Sender.step_congr (h t ht)

end Congr

section Accepted

variable {requested : List FileCopyEntry} {plan : FileCopyPlan} {tar : TarLib} {fs : Fs}
  {limits : FileCopyLimits} (h : validateUploadPlan requested plan = .ok ())
include h

theorem Upload.invariant_reaches {s : Sender}
    (hs : Loop.Reaches (Sender.step tar fs) (.init limits plan.entries) s) :
    ∃ k tagged, Upload.Invariant fs (requested.zip plan.entries) s k tagged := by
  obtain ⟨hlen, hpairs⟩ := validateUploadPlan_ok h
  refine hs.invariant
    (P := fun s => ∃ k tagged, Upload.Invariant fs (requested.zip plan.entries) s k tagged)
    ⟨0, [], Upload.invariant_init limits requested plan hlen⟩ ?_
  rintro s t ⟨k, tagged, hi⟩ hstep
  exact Upload.invariant_step hpairs hi hstep

theorem Upload.inOrder_sends {sent : Sent} (hsent : SendsArchive tar fs limits plan.entries sent) :
    InOrder fs (requested.zip plan.entries) sent.log := by
  unfold SendsArchive at hsent
  split at hsent
  · subst hsent
    exact ⟨[], rfl, List.Pairwise.nil, nofun⟩
  · obtain ⟨t, ht, hdone⟩ := hsent.last
    obtain ⟨k, tagged, hi⟩ := Upload.invariant_reaches h ht
    exact Upload.inOrder_done hi hdone

end Accepted

/-- If the client accepts the server's plan, then at every moment of the archiving, and when
it ends, what has been visited are the requested paths and what lies under them through real
directories, entry by entry in the requested order, and what has been written are their members
under the names of these visits. Nothing else is read: a filesystem that differs elsewhere gives
the same archive. Every name of a visit is relative, without a root or `..`, and starts with the
one component of its entry's name, and these are the names that a reader of the archive finds. -/
theorem upload_cannot_be_redirected {requested : List FileCopyEntry} {plan : FileCopyPlan}
    (h : validateUploadPlan requested plan = .ok ()) (tar : TarLib) (fs : Fs)
    (limits : FileCopyLimits) :
    (∀ s, Loop.Reaches (Sender.step tar fs) (.init limits plan.entries) s →
      InOrder fs (requested.zip plan.entries) s.log ∧ s.writer.ops = opsAt tar fs s.log) ∧
    (∀ sent, SendsArchive tar fs limits plan.entries sent →
      InOrder fs (requested.zip plan.entries) sent.log ∧ sent.Holds tar fs ∧
      (tar.Lawful → (∀ p, (fs.source p).Fits) → sent.result = .ok () →
        ∃ ms : List Member, tar.read ⟨sent.writes.flatten, none⟩ = (ms.map .whole, none) ∧
          ms.map (·.path) = sent.log.map Prod.snd)) ∧
    (∀ fs' : Fs, (∀ entry ∈ requested, ∀ p, Descends fs (.ofString entry.path) p →
        fs.SameAt fs' p) →
      ∀ sent, SendsArchive tar fs' limits plan.entries sent ↔
        SendsArchive tar fs limits plan.entries sent) ∧
    (∀ archiveName name, Contained archiveName name →
      name.isAbsolute = false ∧ .rootDir ∉ name.components ∧ .parentDir ∉ name.components ∧
      ∃ c, (Path.ofString archiveName).components = [.normal c] ∧
        name.components.head? = some (.normal c)) := by
  refine ⟨?_, ?_, ?_, ?_⟩
  · intro s hs
    obtain ⟨k, tagged, hi⟩ := Upload.invariant_reaches h hs
    exact ⟨hi.inOrder, (Sender.wrote_reaches hs).ops_eq⟩
  · intro sent hsent
    refine ⟨Upload.inOrder_sends h hsent, hsent.holds, fun ht hfits hok => ?_⟩
    have hstatic : SendsArchive tar (StaticFs.mk fs hfits) limits plan.entries sent := hsent
    exact hstatic.read_names ht hok
  · intro fs' hsame sent
    apply sendsArchive_congr
    intro s hs e he
    -- What is on the stack is a visit for some entry, so it descends from a requested path.
    obtain ⟨k, tagged, hi⟩ := Upload.invariant_reaches h hs
    obtain ⟨i, pair, _, hpair, hvisit⟩ := hi.pending e he
    have hmem : pair.1 ∈ requested := (List.of_mem_zip (List.mem_of_getElem? hpair)).1
    exact hsame pair.1 hmem e.1 hvisit.1
  · intro archiveName name hname
    obtain ⟨habs, hroot, hparent⟩ := hname.safe
    obtain ⟨c, rest, hc, hcomponents⟩ := hname
    exact ⟨habs, hroot, hparent, c, hc, by simp [hcomponents]⟩

namespace Upload

def notes : FileName :=
  ⟨Path.ofString "notes", by decide, by decide, by decide, by decide⟩

/-- A directory with one file in it. -/
def project : StaticFs where
  symlinkMetadata := fun p =>
    if p = .ofString "/home/alice/project" then .ok .dir
    else if p = .ofString "/home/alice/project/notes" then .ok (.file 5)
    else .error "No such file or directory (os error 2)"
  statDir := fun _ => .ok ()
  readDir := fun p =>
    if p = .ofString "/home/alice/project" then .ok ([notes], none)
    else .error "No such file or directory (os error 2)"
  source := fun p =>
    if p = .ofString "/home/alice/project/notes" then .file 5 (Path.ofString "hello") none
    else .unreadable "No such file or directory (os error 2)"
  fits := by
    intro p
    split
    · exact ⟨by decide, fun _ => rfl⟩
    · trivial

end Upload

/-- The server renames the one directory; its file is read, under the new name, and both are in
the archive under it. -/
theorem upload_cannot_be_redirected_project :
    validateUploadPlan [⟨"/home/alice/project", "project"⟩]
      ⟨"/srv", [⟨"/home/alice/project", "copy"⟩]⟩ = .ok () ∧
    ∃ sent, SendsArchive Ustar.tar Upload.project ⟨100, 100⟩
        [⟨"/home/alice/project", "copy"⟩] sent ∧ sent.result = .ok () ∧
      sent.log = [(.ofString "/home/alice/project", .ofString "copy"),
        (.ofString "/home/alice/project/notes", .ofString "copy/notes")] ∧
      InOrder Upload.project
        [(⟨"/home/alice/project", "project"⟩, ⟨"/home/alice/project", "copy"⟩)] sent.log ∧
      (Ustar.tar.read ⟨sent.writes.flatten, none⟩).1.map (·.member.path) =
        [.ofString "copy", .ofString "copy/notes"] := by
  have hplan : validateUploadPlan [⟨"/home/alice/project", "project"⟩]
      ⟨"/srv", [⟨"/home/alice/project", "copy"⟩]⟩ = .ok () := by rfl
  have hrun : ((Loop.run (Sender.step Ustar.tar Upload.project) 4
        (.init ⟨100, 100⟩ [⟨"/home/alice/project", "copy"⟩])).map
          fun sent => (sent.result, sent.log)) =
      some (.ok (), [(.ofString "/home/alice/project", .ofString "copy"),
        (.ofString "/home/alice/project/notes", .ofString "copy/notes")]) := by
    decide +kernel
  obtain ⟨sent, hsent, hresult⟩ := Loop.Returns.of_run hrun
  obtain ⟨hok, hlog⟩ := Prod.mk.inj hresult
  have hsends : SendsArchive Ustar.tar Upload.project ⟨100, 100⟩
      [⟨"/home/alice/project", "copy"⟩] sent := hsent
  obtain ⟨-, hends, -⟩ := upload_cannot_be_redirected hplan Ustar.tar Upload.project ⟨100, 100⟩
  obtain ⟨horder, -, hread⟩ := hends sent hsends
  obtain ⟨ms, hitems, hnames⟩ := hread Ustar.tar_lawful Upload.project.fits hok
  refine ⟨hplan, sent, hsends, hok, hlog, horder, ?_⟩
  rw [hlog] at hnames
  rw [hitems, List.map_map]
  exact hnames

end Hush.FileCopy
