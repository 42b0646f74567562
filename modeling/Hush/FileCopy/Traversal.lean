import Hush.FileCopy.SendLimit
import Hush.Lib.PrefixTree
import Mathlib.Algebra.BigOperators.Group.List.Basic

/-! Which paths the sender visits, in which order, and how far the budget lets it go. -/
namespace Hush.FileCopy
open Hush.Lib

instance : DecidableEq FileName := fun a b =>
  decidable_of_iff (a.bytes = b.bytes) ⟨fun h => by cases a; cases b; cases h; rfl, congrArg _⟩

/-- What is assumed of the tar writer: a member that it takes is more than its data. -/
structure TarLib.Covers (tar : TarLib) : Prop where
  appendDir : ∀ name, (tar.appendDir name).err = none →
    0 < (tar.appendDir name).writes.flatten.length
  appendPath : ∀ name source m, source.member name = some m →
    (tar.appendPath name source).err = none →
    m.data.length < (tar.appendPath name source).writes.flatten.length

/-- A finite tree, with each node given by the names that lead to it from the root. Only a
directory has nodes below it, so a symlink is a leaf. -/
structure Tree extends PrefixTree FileName where
  kind : List FileName → Metadata
  dir_of_child : ∀ p n, p ++ [n] ∈ nodes → kind p = .dir

/-- The path of a node below that of the root. -/
def descend (base : Path) (p : List FileName) : Path := p.foldl (fun q n => q.join n.bytes) base

/-- A node's path in the filesystem and its name in the archive. -/
def place (source name : Path) (p : List FileName) : Path × Path :=
  (descend source p, descend name p)

theorem place_concat (source name : Path) (p : List FileName) (n : FileName) :
    place source name (p ++ [n]) =
      ((place source name p).1.join n.bytes, (place source name p).2.join n.bytes) := by
  simp only [place, descend, List.foldl_append, List.foldl_cons, List.foldl_nil]

/-- The names of the node follow the components of the root's path. -/
theorem components_descend (base : Path) (p : List FileName) :
    (descend base p).components = base.components ++ p.map fun n => .normal n.bytes := by
  induction p using List.reverseRecOn with
  | nil => exact (List.append_nil _).symm
  | append_singleton p n ih =>
    have hjoin : descend base (p ++ [n]) = (descend base p).join n.bytes :=
      congrArg Prod.fst (place_concat base base p n)
    rw [hjoin, Path.components_join, ih, List.map_append, List.append_assoc]
    rfl

/-- What the sender charges for a path. -/
def sizeAt (fs : Fs) (e : Path × Path) : Nat :=
  match fs.symlinkMetadata e.1 with
  | .ok metadata => Sender.metadataLen metadata
  | .error _ => 0

def sizesAt (fs : Fs) (log : List (Path × Path)) : List Nat := log.map (sizeAt fs)

/-- The builder finds what the metadata says. -/
def Metadata.Of : Metadata → Source → Prop
  | .file len, .file size data err => size = len ∧ data.length = len.toNat ∧ err = none
  | .other, .symlink _ => True
  | _, _ => False

/-- The path has this metadata, and these children if it is a directory. Nothing fails there. -/
structure Readable (tar : TarLib) (fs : Fs) (e : Path × Path) (metadata : Metadata)
    (names : List FileName) : Prop where
  metadata_eq : fs.symlinkMetadata e.1 = .ok metadata
  taken : (memberAt tar fs e).err = none
  directory : metadata = .dir →
    fs.statDir e.1 = .ok () ∧ fs.readDir e.1 = .ok (names, none)
  leaf : metadata ≠ .dir → names = [] ∧ metadata.Of (fs.source e.1)

/-- The tree is in the filesystem, and the tar writer takes its members. A directory lists its
children in any order. -/
def Tree.Holds (tar : TarLib) (fs : Fs) (source name : Path) (t : Tree) : Prop :=
  ∀ p ∈ t.nodes, ∃ names : List FileName, names.Nodup ∧ (∀ n, n ∈ names ↔ p ++ [n] ∈ t.nodes) ∧
    Readable tar fs (place source name p) (t.kind p) names

section Step

variable {tar : TarLib} {fs : Fs} {limits : FileCopyLimits} {s t : Sender} {source name : Path}
  {metadata : Metadata} {names : List FileName} {rest : List (Path × Path)}

theorem Readable.sizeAt_eq {e : Path × Path} (h : Readable tar fs e metadata names) :
    sizeAt fs e = Sender.metadataLen metadata := by
  simp only [sizeAt, h.metadata_eq]

theorem Readable.memberAt_dir {e : Path × Path} (h : Readable tar fs e .dir names) :
    memberAt tar fs e = tar.appendDir e.2 := by
  simp only [memberAt, h.metadata_eq]

theorem Readable.memberAt_leaf {e : Path × Path} (h : Readable tar fs e metadata names)
    (hleaf : metadata ≠ .dir) : memberAt tar fs e = tar.appendPath e.2 (fs.source e.1) := by
  cases metadata with
  | dir => exact absurd rfl hleaf
  | file len => simp only [memberAt, h.metadata_eq]
  | other => simp only [memberAt, h.metadata_eq]

theorem Metadata.Of.len_lt (ht : tar.Covers) {content : Source} (h : metadata.Of content)
    (htaken : (tar.appendPath name content).err = none) :
    Sender.metadataLen metadata < (tar.appendPath name content).writes.flatten.length := by
  cases metadata with
  | dir => cases content <;> cases h
  | file len =>
    cases content with
    | file size data err =>
      obtain ⟨rfl, hdata, rfl⟩ := h
      have hlt := ht.appendPath name (.file size data none) _ (if_pos hdata) htaken
      rwa [hdata] at hlt
    | symlink | special | unreadable => cases h
  | other =>
    cases content with
    | symlink target => exact ht.appendPath name (.symlink target) _ rfl htaken
    | file | special | unreadable => cases h

/-- A member takes up more than what is charged for it. -/
theorem Readable.sizeAt_lt (ht : tar.Covers) {e : Path × Path}
    (h : Readable tar fs e metadata names) :
    sizeAt fs e < (memberAt tar fs e).writes.flatten.length := by
  have htaken := h.taken
  rw [h.sizeAt_eq]
  by_cases hdir : metadata = .dir
  · subst hdir
    rw [h.memberAt_dir] at htaken ⊢
    exact ht.appendDir _ htaken
  · rw [h.memberAt_leaf hdir] at htaken ⊢
    exact (h.leaf hdir).2.len_lt ht htaken

/-- What has been visited is charged and written, and within the limits. -/
structure Sender.Sound (tar : TarLib) (fs : Fs) (limits : FileCopyLimits) (s : Sender) : Prop where
  spent : s.budget.Spent limits (sizesAt fs s.log)
  allows : limits.Allows (sizesAt fs s.log)
  written_eq : s.writer.writes.flatten = bytesAt tar fs s.log
  covered : s.log.length + (sizesAt fs s.log).sum ≤ s.writer.written
  limit_eq : s.writer.limit = archiveByteLimit limits
  written_le : s.writer.written ≤ s.writer.limit

theorem Sender.sound_init (tar : TarLib) (fs : Fs) (limits : FileCopyLimits)
    (entries : List FileCopyEntry) : (Sender.init limits entries).Sound tar fs limits :=
  ⟨CopyBudget.spent_new, by simp [sizesAt, Sender.init, FileCopyLimits.Allows], rfl,
    Nat.zero_le _, rfl, Nat.zero_le _⟩

/-- Both counters are out of reach of their greatest values. -/
theorem Sender.Sound.within (h : s.Sound tar fs limits) :
    s.log.length ≤ limits.maxEntries.toNat ∧
      (sizesAt fs s.log).sum ≤ limits.maxBytes.toNat := by
  have hcovered := h.covered
  have hwritten := h.written_le
  have hlimit := archiveByteLimit_le limits
  have hallows := h.allows
  rw [h.limit_eq] at hwritten
  simp only [FileCopyLimits.Allows, sizesAt, List.length_map] at hallows hcovered ⊢
  omega

/-- How the visit of a readable path ends. -/
inductive Visits (tar : TarLib) (fs : Fs) (limits : FileCopyLimits) (s : Sender)
    (e : Path × Path) (pending : List (Path × Path)) : Prop
  | goesOn {t : Sender} (hstep : Sender.step tar fs s = .next t) (hsound : t.Sound tar fs limits)
      (hlog : t.log = s.log ++ [e]) (hpending : t.pending = pending)
      (hentries : t.entries = s.entries)
  | overBudget {r : Sent} {err : String} (hstep : Sender.step tar fs s = .done r)
      (hresult : r.result = .error err) (hlog : r.log = s.log ++ [e])
      (hwrites : r.writes = s.writer.writes)
      (hallows : ¬ limits.Allows (sizesAt fs s.log ++ [sizeAt fs e]))
  | limited {r : Sent} (hstep : Sender.step tar fs s = .done r) (hresult : LimitError r.result)
      (hover : archiveByteLimit limits < (bytesAt tar fs (s.log ++ [e])).length)

theorem sizesAt_concat (fs : Fs) (log : List (Path × Path)) (e : Path × Path) :
    sizesAt fs (log ++ [e]) = sizesAt fs log ++ [sizeAt fs e] := by
  simp only [sizesAt, List.map_append, List.map_cons, List.map_nil]

/-- A member that was charged and appended keeps the state sound. -/
theorem Sender.Sound.append (ht : tar.Covers) (hs : s.Sound tar fs limits) {e : Path × Path}
    (he : Readable tar fs e metadata names) {budget : CopyBudget} {w : LimitedWriter}
    (hadd : s.budget.add (sizeAt fs e) = .ok budget)
    (hw : s.writer.append (memberAt tar fs e) = (w, none)) (entries : List FileCopyEntry)
    (pending : List (Path × Path)) :
    Sender.Sound tar fs limits ⟨entries, pending, budget, w, s.log ++ [e]⟩ := by
  obtain ⟨hallows, hspent⟩ := (CopyBudget.add_ok_iff hs.spent).mp hadd
  obtain ⟨-, hflat, hlimit, hle⟩ := LimitedWriter.append_ok hw hs.written_le
  have hsize := he.sizeAt_lt ht
  have hlen := congrArg List.length hflat
  rw [List.length_append] at hlen
  have hcovered := hs.covered
  refine ⟨?_, ?_, ?_, ?_, hlimit.trans hs.limit_eq, hle⟩
  · rw [sizesAt_concat]
    exact hspent
  · rw [sizesAt_concat]
    exact hallows
  · rw [hflat, hs.written_eq, bytesAt_concat]
  · simp only [LimitedWriter.written] at hcovered ⊢
    rw [sizesAt_concat, List.sum_append, List.sum_singleton, List.length_append,
      List.length_singleton, hlen]
    omega

theorem Sender.Sound.length_concat (hs : s.Sound tar fs limits) (e : Path × Path) :
    s.writer.written + (memberAt tar fs e).writes.flatten.length =
      (bytesAt tar fs (s.log ++ [e])).length := by
  rw [bytesAt_concat, List.length_append, ← hs.written_eq]
  rfl

theorem visits (ht : tar.Covers) (hs : s.Sound tar fs limits)
    (hpending : s.pending = (source, name) :: rest)
    (he : Readable tar fs (source, name) metadata names) :
    Visits tar fs limits s (source, name)
      ((Sender.children source name names).reverse ++ rest) := by
  have hmetadata : fs.symlinkMetadata source = .ok metadata := he.metadata_eq
  cases hadd : s.budget.add (Sender.metadataLen metadata) with
  | error err =>
    refine .overBudget (Sender.step_over_budget hpending hmetadata hadd) rfl rfl rfl
      fun hallows => ?_
    rw [he.sizeAt_eq] at hallows
    have hok := (CopyBudget.add_ok_iff hs.spent).mpr ⟨hallows, rfl⟩
    rw [hadd] at hok
    cases hok
  | ok budget =>
    have hcharged : s.budget.add (sizeAt fs (source, name)) = .ok budget := by
      rw [he.sizeAt_eq]
      exact hadd
    have happend := LimitedWriter.append_cases hs.written_le he.taken
    rw [hs.limit_eq, hs.length_concat] at happend
    by_cases hdir : metadata = .dir
    · subst hdir
      obtain ⟨hstat, hread⟩ := he.directory rfl
      have hstep : Sender.step tar fs s = _ := Sender.step_directory hpending hmetadata hadd
      rcases happend with ⟨-, w, hw, -⟩ | ⟨hover, w, hw⟩
      · have hsound := fun pending => hs.append ht he hcharged hw s.entries pending
        rw [he.memberAt_dir] at hw
        exact .goesOn (hstep.trans (Sender.appendDirectory_ok hstat hw hread)) (hsound _) rfl rfl
          rfl
      · rw [he.memberAt_dir] at hw
        exact .limited (hstep.trans (Sender.appendDirectory_err hstat hw)) ⟨_, rfl⟩ hover
    · obtain ⟨rfl, -⟩ := he.leaf hdir
      have hstep : Sender.step tar fs s = _ := Sender.step_path hpending hmetadata hdir hadd
      rcases happend with ⟨-, w, hw, -⟩ | ⟨hover, w, hw⟩
      · have hsound := hs.append ht he hcharged hw s.entries rest
        rw [he.memberAt_leaf hdir] at hw
        exact .goesOn (hstep.trans (Sender.appendPath_ok hw)) hsound rfl rfl rfl
      · rw [he.memberAt_leaf hdir] at hw
        exact .limited (hstep.trans (Sender.appendPath_err hw)) ⟨_, rfl⟩ hover

end Step

section Walk

variable {tar : TarLib} {fs : Fs} {limits : FileCopyLimits} {s : Sender} {source name : Path}
  {log : List (Path × Path)} {t : Tree} {visited pending : List (List FileName)}

/-- The loop is in the tree: these nodes of it are visited, and those are on the stack. -/
structure Sender.Walks (tar : TarLib) (fs : Fs) (limits : FileCopyLimits) (source name : Path)
    (log : List (Path × Path)) (t : Tree) (visited pending : List (List FileName)) (s : Sender) :
    Prop where
  sound : s.Sound tar fs limits
  traversed : t.Traversed visited pending
  pending_eq : s.pending = pending.map (place source name)
  log_eq : s.log = log ++ visited.map (place source name)

/-- The copy ends at this path, after those of the log: its member is beyond the archive limit, or
it is beyond the budget and then those of the log have been appended. -/
inductive Stops (tar : TarLib) (fs : Fs) (limits : FileCopyLimits) (r : Sent)
    (log : List (Path × Path)) (e : Path × Path) : Prop
  | limited (hlimit : LimitError r.result)
      (hover : archiveByteLimit limits < (bytesAt tar fs (log ++ [e])).length)
  | refused {err : String} (hresult : r.result = .error err) (hlog : r.log = log ++ [e])
      (hwrites : r.writes.flatten = bytesAt tar fs log)
      (hwithin : log.length ≤ limits.maxEntries.toNat ∧
        (sizesAt fs log).sum ≤ limits.maxBytes.toNat)
      (hover : ¬ limits.Allows (sizesAt fs log ++ [sizeAt fs e]))

/-- A node that is read and goes on leaves the loop in the tree, with one node more visited. -/
theorem Sender.Walks.visit {p : List FileName} (ht : tar.Covers) (hold : t.Holds tar fs source name)
    (h : s.Walks tar fs limits source name log t visited (p :: pending)) :
    (∃ u children, Sender.step tar fs s = .next u ∧ u.entries = s.entries ∧
      u.Walks tar fs limits source name log t (visited ++ [p]) (children ++ pending)) ∨
    ∃ r, Sender.step tar fs s = .done r ∧ Stops tar fs limits r s.log (place source name p) := by
  obtain ⟨hp, -⟩ := List.forall_mem_cons.mp h.traversed.pending_mem
  obtain ⟨names, hnodup, hnames, hread⟩ := hold p hp
  have hpending : s.pending = place source name p :: pending.map (place source name) := by
    rw [h.pending_eq, List.map_cons]
  cases visits ht h.sound hpending hread with
  | @goesOn u hstep hsound hlog hstack hentries =>
    refine Or.inl ⟨u, (names.map fun n => p ++ [n]).reverse, hstep, hentries, hsound, ?_, ?_, ?_⟩
    · exact h.traversed.visit hnodup hnames (List.reverse_perm _)
    · rw [hstack, List.map_append, List.map_reverse, List.map_map, Sender.children]
      congr 3
      funext n
      exact (place_concat source name p n).symm
    · rw [hlog, h.log_eq, List.map_append, List.append_assoc]
      rfl
  | overBudget hstep hresult hlog hwrites hallows =>
    have hflat := congrArg List.flatten hwrites
    rw [h.sound.written_eq] at hflat
    exact Or.inr ⟨_, hstep, .refused hresult hlog hflat h.sound.within hallows⟩
  | limited hstep hresult hover => exact Or.inr ⟨_, hstep, .limited hresult hover⟩

/-- The copy ends at one of these paths, after the log and some of the others. -/
def StopsWithin (tar : TarLib) (fs : Fs) (limits : FileCopyLimits) (log places : List (Path × Path))
    (r : Sent) : Prop :=
  ∃ appended e more, places.Perm (appended ++ e :: more) ∧ Stops tar fs limits r (log ++ appended) e

/-- The loop gets through the tree, or it ends at one of its nodes. -/
theorem Sender.Walks.run (ht : tar.Covers) (hold : t.Holds tar fs source name)
    (h : s.Walks tar fs limits source name log t visited pending) :
    (∃ u order, Loop.Reaches (Sender.step tar fs) s u ∧ u.entries = s.entries ∧
      u.Walks tar fs limits source name log t order []) ∨
    ∃ r, Loop.Returns (Sender.step tar fs) s r ∧
      StopsWithin tar fs limits log (t.nodes.map (place source name)) r := by
  -- The induction is on the number of nodes that are not visited yet.
  induction hleft : t.nodes.length - visited.length generalizing s visited pending with
  | zero =>
    cases pending with
    | nil => exact Or.inl ⟨s, visited, .refl, rfl, h⟩
    | cons p pending =>
      have := h.traversed.length_lt
      rw [List.length_append, List.length_singleton] at this
      omega
  | succ left ih =>
    cases pending with
    | nil => exact Or.inl ⟨s, visited, .refl, rfl, h⟩
    | cons p pending =>
      rcases h.visit ht hold with ⟨u, children, hstep, hentries, hu⟩ | ⟨r, hstep, hstops⟩
      · have hless : t.nodes.length - (visited ++ [p]).length = left := by
          rw [List.length_append, List.length_singleton]
          omega
        rcases ih hu hless with ⟨v, order, hreach, hv, hwalks⟩ | ⟨r, hr, hend⟩
        · exact Or.inl ⟨v, order, .next hstep hreach, hv.trans hentries, hwalks⟩
        · exact Or.inr ⟨r, .next hstep hr, hend⟩
      · obtain ⟨more, hmore⟩ := h.traversed.exists_perm
        have hperm := hmore.map (place source name)
        rw [List.map_append, List.map_cons] at hperm
        exact Or.inr ⟨r, .done hstep, _, _, _, hperm, h.log_eq ▸ hstops⟩

end Walk

section Sources

variable {tar : TarLib} {fs : Fs} {limits : FileCopyLimits} {s : Sender}
  {sources : List (FileCopyEntry × Tree)}

/-- The paths of a source's nodes. -/
def places (e : FileCopyEntry × Tree) (order : List (List FileName)) : List (Path × Path) :=
  order.map (place (.ofString e.1.path) (.ofString e.1.archiveName))

/-- Every node of the source is there once, and none before a directory that contains it. -/
def VisitedOnce (e : FileCopyEntry × Tree) (block : List (Path × Path)) : Prop :=
  ∃ order : List (List FileName), order.Perm e.2.nodes ∧
    (order.Pairwise fun earlier later => ¬ (later <+: earlier ∧ later ≠ earlier)) ∧
    block = places e order

def allPlaces (sources : List (FileCopyEntry × Tree)) : List (Path × Path) :=
  sources.flatMap fun e => places e e.2.nodes

theorem VisitedOnce.perm {e : FileCopyEntry × Tree} {block : List (Path × Path)}
    (h : VisitedOnce e block) : block.Perm (places e e.2.nodes) := by
  obtain ⟨order, hperm, -, rfl⟩ := h
  exact hperm.map _

theorem StopsWithin.append {log front rest : List (Path × Path)} {r : Sent}
    (h : StopsWithin tar fs limits log front r) :
    StopsWithin tar fs limits log (front ++ rest) r := by
  obtain ⟨appended, e, more, hperm, hr⟩ := h
  refine ⟨appended, e, more ++ rest, ?_, hr⟩
  have hrest := hperm.append_right rest
  rwa [List.append_assoc, List.cons_append] at hrest

theorem StopsWithin.after {log block front rest : List (Path × Path)} {r : Sent}
    (hblock : block.Perm front) (h : StopsWithin tar fs limits (log ++ block) rest r) :
    StopsWithin tar fs limits log (front ++ rest) r := by
  obtain ⟨appended, e, more, hperm, hr⟩ := h
  refine ⟨block ++ appended, e, more, ?_, ?_⟩
  · rw [List.append_assoc]
    exact hblock.symm.append hperm
  · rwa [← List.append_assoc]

theorem StopsWithin.ne_ok {log places : List (Path × Path)} {r : Sent}
    (h : StopsWithin tar fs limits log places r) : r.result ≠ .ok () := by
  obtain ⟨_, _, _, -, hstops⟩ := h
  cases hstops with
  | limited hlimit _ => exact hlimit.ne_ok
  | refused hresult => simp [hresult]

/-- The loop gets through all the sources, or it ends at one of their nodes. -/
theorem Sender.Sound.run (ht : tar.Covers)
    (hold : ∀ e ∈ sources, e.2.Holds tar fs (.ofString e.1.path) (.ofString e.1.archiveName))
    (h : s.Sound tar fs limits) (hpending : s.pending = [])
    (hentries : s.entries = sources.map (·.1)) :
    (∃ u blocks, Loop.Reaches (Sender.step tar fs) s u ∧ u.Sound tar fs limits ∧
      u.pending = [] ∧ u.entries = [] ∧ u.log = s.log ++ blocks.flatten ∧
      List.Forall₂ VisitedOnce sources blocks) ∨
    ∃ r, Loop.Returns (Sender.step tar fs) s r ∧
      StopsWithin tar fs limits s.log (allPlaces sources) r := by
  induction sources generalizing s with
  | nil =>
    refine Or.inl ⟨s, [], .refl, h, hpending, hentries, ?_, .nil⟩
    rw [List.flatten_nil, List.append_nil]
  | cons e sources ih =>
    obtain ⟨he, hrest⟩ := List.forall_mem_cons.mp hold
    let u : Sender := { s with
      entries := sources.map (·.1)
      pending := [place (.ofString e.1.path) (.ofString e.1.archiveName) []] }
    have hstep : Sender.step tar fs s = .next u := by
      rw [List.map_cons] at hentries
      simp only [Sender.step, hpending, hentries]
      rfl
    have hu : u.Walks tar fs limits (.ofString e.1.path) (.ofString e.1.archiveName) s.log e.2 []
        [[]] :=
      ⟨⟨h.spent, h.allows, h.written_eq, h.covered, h.limit_eq, h.written_le⟩, .start _, rfl,
        (List.append_nil _).symm⟩
    rcases hu.run ht he with ⟨v, order, hreach, hventries, hv⟩ | ⟨r, hr, hend⟩
    · have hblock : VisitedOnce e (places e order) :=
        ⟨order, hv.traversed.finished, hv.traversed.parentsFirst, rfl⟩
      rcases ih hrest hv.sound hv.pending_eq hventries with
        ⟨w, blocks, hreach', hw, hwpending, hwentries, hlog, hblocks⟩ | ⟨r, hr, hend⟩
      · refine Or.inl ⟨w, places e order :: blocks, .next hstep (hreach.trans hreach'), hw,
          hwpending, hwentries, ?_, .cons hblock hblocks⟩
        rw [hlog, hv.log_eq, List.flatten_cons, List.append_assoc]
        rfl
      · refine Or.inr ⟨r, .next hstep (hreach.of_returns hr), ?_⟩
        rw [hv.log_eq] at hend
        exact hend.after hblock.perm
    · exact Or.inr ⟨r, .next hstep hr, hend.append⟩

def nodeCount (sources : List (FileCopyEntry × Tree)) : Nat :=
  (sources.map fun e => e.2.nodes.length).sum

/-- The bytes of the regular files. -/
def fileBytes (sources : List (FileCopyEntry × Tree)) : Nat :=
  (sources.map fun e => (e.2.nodes.map fun p => Sender.metadataLen (e.2.kind p)).sum).sum

theorem length_allPlaces (sources : List (FileCopyEntry × Tree)) :
    (allPlaces sources).length = nodeCount sources := by
  simp only [allPlaces, nodeCount, places, List.length_flatMap, List.length_map]

theorem sum_allPlaces
    (hold : ∀ e ∈ sources, e.2.Holds tar fs (.ofString e.1.path) (.ofString e.1.archiveName)) :
    (sizesAt fs (allPlaces sources)).sum = fileBytes sources := by
  induction sources with
  | nil => rfl
  | cons e sources ih =>
    obtain ⟨he, hrest⟩ := List.forall_mem_cons.mp hold
    have hsizes : sizesAt fs (places e e.2.nodes) =
        e.2.nodes.map fun p => Sender.metadataLen (e.2.kind p) := by
      rw [sizesAt, places, List.map_map]
      refine List.map_congr_left fun p hp => ?_
      obtain ⟨names, -, -, hread⟩ := he p hp
      exact hread.sizeAt_eq
    have hih := ih hrest
    simp only [sizesAt, allPlaces, fileBytes] at hsizes hih ⊢
    rw [List.flatMap_cons, List.map_append, List.sum_append, hih, hsizes, List.map_cons,
      List.sum_cons]

theorem blocks_perm {blocks : List (List (Path × Path))}
    (h : List.Forall₂ VisitedOnce sources blocks) : blocks.flatten.Perm (allPlaces sources) := by
  induction h with
  | nil => exact .refl _
  | cons he _ ih =>
    rw [List.flatten_cons]
    exact he.perm.append ih

/-- Totals within the limits are within the budget. -/
theorem allows_allPlaces
    (hold : ∀ e ∈ sources, e.2.Holds tar fs (.ofString e.1.path) (.ofString e.1.archiveName))
    (hcount : nodeCount sources ≤ limits.maxEntries.toNat)
    (hbytes : min (fileBytes sources) u64Max ≤ limits.maxBytes.toNat) :
    limits.Allows (sizesAt fs (allPlaces sources)) := by
  have hmax : limits.maxBytes.toNat ≤ u64Max := Nat.le_pred_of_lt limits.maxBytes.toNat_lt
  rw [FileCopyLimits.Allows, sum_allPlaces hold, sizesAt, List.length_map, length_allPlaces]
  omega

/-- If the nodes are all within the budget, then the copy does not end at one that is beyond it. -/
theorem not_allows_of_perm {places appended more : List (Path × Path)} {e : Path × Path}
    (hperm : places.Perm (appended ++ e :: more))
    (hover : ¬ limits.Allows (sizesAt fs appended ++ [sizeAt fs e])) :
    ¬ limits.Allows (sizesAt fs places) := by
  intro hallows
  have hsizes := hperm.map (sizeAt fs)
  have hall : limits.Allows (sizesAt fs appended ++ [sizeAt fs e] ++ sizesAt fs more) := by
    rw [FileCopyLimits.Allows, sizesAt, hsizes.length_eq, hsizes.sum_eq] at hallows
    simpa [FileCopyLimits.Allows, sizesAt] using hallows
  exact hover hall.of_append

theorem length_bytesAt_perm {log log' : List (Path × Path)} (h : log.Perm log') :
    (bytesAt tar fs log).length = (bytesAt tar fs log').length := by
  simp only [bytesAt, List.length_flatMap]
  exact (h.map _).sum_eq

/-- The length of the archive of all the nodes. -/
def archiveLength (tar : TarLib) (fs : Fs) (sources : List (FileCopyEntry × Tree)) : Nat :=
  (bytesAt tar fs (allPlaces sources)).length + TarLib.trailer.length

/-- A copy within the budget and the archive limit succeeds. -/
theorem sendsArchive_ok (ht : tar.Covers) (hdisabled : limits.disabled = false)
    (hne : sources ≠ [])
    (hold : ∀ e ∈ sources, e.2.Holds tar fs (.ofString e.1.path) (.ofString e.1.archiveName))
    (hcount : nodeCount sources ≤ limits.maxEntries.toNat)
    (hbytes : fileBytes sources ≤ limits.maxBytes.toNat)
    (hlength : archiveLength tar fs sources ≤ archiveByteLimit limits) :
    ∃ sent, (∀ sent', SendsArchive tar fs limits (sources.map (·.1)) sent' ↔ sent' = sent) ∧
      sent.result = .ok () ∧ sent.writes.flatten.length = archiveLength tar fs sources := by
  have hne' : sources.map (·.1) ≠ [] := by simpa using hne
  have hinit := Sender.sound_init tar fs limits (sources.map (·.1))
  rcases hinit.run ht hold rfl rfl with
    ⟨u, blocks, hreach, hu, hpending, hentries, hlog, hblocks⟩ |
    ⟨r, hr, appended, e, more, hperm, hstops⟩
  · have hlog : u.log = blocks.flatten := hlog
    have hwritten : u.writer.written + TarLib.trailer.length = archiveLength tar fs sources := by
      rw [archiveLength, ← length_bytesAt_perm (blocks_perm hblocks), ← hlog, ← hu.written_eq]
      rfl
    have hfits : TarLib.trailer.length ≤ u.writer.limit - u.writer.written := by
      rw [hu.limit_eq]
      omega
    have hw := LimitedWriter.writeAll_of_le hfits
    have hfinish : Sender.step tar fs u = u.finish := Sender.step_finish hpending hentries
    refine ⟨_, sendsArchive_iff hdisabled hne'
      (hreach.returns (hfinish.trans (Sender.finish_ok hw))), rfl, ?_⟩
    rw [← hwritten, ← LimitedWriter.push_written]
    rfl
  · exfalso
    cases hstops with
    | limited _ hover =>
      have hall : (bytesAt tar fs (allPlaces sources)).length =
          (bytesAt tar fs (appended ++ [e] ++ more)).length := by
        rw [List.append_assoc]
        exact length_bytesAt_perm hperm
      have hover : archiveByteLimit limits < (bytesAt tar fs (appended ++ [e])).length := hover
      rw [bytesAt_append, List.length_append] at hall
      rw [archiveLength] at hlength
      omega
    | refused _ _ _ _ hover =>
      exact not_allows_of_perm hperm hover
        (allows_allPlaces hold hcount (Nat.le_trans (Nat.min_le_left _ _) hbytes))

/-- Every node is archived once, after the directories that contain it, if all of them are within
the budget; otherwise the copy ends with those archived that are. -/
theorem archive_visits_once {entries : List FileCopyEntry} (ht : tar.Covers)
    (hdisabled : limits.disabled = false) (hne : sources ≠ [])
    (hentries : entries = sources.map (·.1))
    (hold : ∀ e ∈ sources, e.2.Holds tar fs (.ofString e.1.path) (.ofString e.1.archiveName)) :
    ∃ sent, (∀ sent', SendsArchive tar fs limits entries sent' ↔ sent' = sent) ∧
      (¬ LimitError sent.result →
        (sent.result = .ok () ↔ nodeCount sources ≤ limits.maxEntries.toNat ∧
          min (fileBytes sources) u64Max ≤ limits.maxBytes.toNat) ∧
        (sent.result = .ok () →
          (∃ blocks, List.Forall₂ VisitedOnce sources blocks ∧ sent.log = blocks.flatten) ∧
          sent.writes.flatten = bytesAt tar fs sent.log ++ TarLib.trailer) ∧
        (sent.result ≠ .ok () →
          ∃ appended e, sent.log = appended ++ [e] ∧
            sent.writes.flatten = bytesAt tar fs appended ∧
            appended.length ≤ limits.maxEntries.toNat ∧
            (sizesAt fs appended).sum ≤ limits.maxBytes.toNat)) := by
  subst hentries
  have hne' : sources.map (·.1) ≠ [] := by simpa using hne
  have hinit := Sender.sound_init tar fs limits (sources.map (·.1))
  rcases hinit.run ht hold rfl rfl with
    ⟨u, blocks, hreach, hu, hpending, hentries, hlog, hblocks⟩ | ⟨r, hr, hend⟩
  · have hfinish : Sender.step tar fs u = u.finish := Sender.step_finish hpending hentries
    have hlog : u.log = blocks.flatten := hlog
    rcases LimitedWriter.writeAll_cases TarLib.trailer hu.written_le with
      ⟨-, hw⟩ | ⟨-, w, hw⟩
    · refine ⟨_, sendsArchive_iff hdisabled hne'
        (hreach.returns (hfinish.trans (Sender.finish_ok hw))), fun _ => ⟨?_, ?_, ?_⟩⟩
      · refine ⟨fun _ => ?_, fun _ => rfl⟩
        obtain ⟨hcount, hbytes⟩ := hu.within
        have hperm := blocks_perm hblocks
        rw [hlog, hperm.length_eq, length_allPlaces] at hcount
        rw [hlog, sizesAt, (hperm.map (sizeAt fs)).sum_eq, ← sizesAt, sum_allPlaces hold] at hbytes
        exact ⟨hcount, Nat.le_trans (Nat.min_le_left _ _) hbytes⟩
      · intro _
        have hflat : (u.writer.push TarLib.trailer).writes.flatten =
            bytesAt tar fs u.log ++ TarLib.trailer := by
          rw [LimitedWriter.push_writes, List.flatten_append, List.flatten_singleton,
            hu.written_eq]
        exact ⟨⟨blocks, hblocks, hlog⟩, hflat⟩
      · intro herr
        exact absurd rfl herr
    · refine ⟨_, sendsArchive_iff hdisabled hne'
        (hreach.returns (hfinish.trans (Sender.finish_err hw))), fun hlimit => ?_⟩
      exact absurd ⟨_, rfl⟩ hlimit
  · refine ⟨r, sendsArchive_iff hdisabled hne' hr, fun hlimit => ?_⟩
    obtain ⟨appended, e, more, hperm, hstops⟩ := hend
    cases hstops with
    | limited hlimited _ => exact absurd hlimited hlimit
    | refused hresult hlog hwrites hwithin hover =>
      refine ⟨?_, ?_, fun _ => ⟨appended, e, hlog, hwrites, hwithin⟩⟩
      · rw [hresult]
        refine ⟨nofun, fun hle => ?_⟩
        exact absurd (allows_allPlaces hold hle.1 hle.2) (not_allows_of_perm hperm hover)
      · rw [hresult]
        nofun

end Sources

theorem Ustar.tar_covers : Ustar.tar.Covers where
  appendDir := by
    intro name herr
    rw [Ustar.tar_lawful.appendDir_ok name herr]
    exact Nat.succ_pos _
  appendPath := by
    intro name source m hm herr
    have hwrites : (Ustar.tar.appendPath name source).writes.flatten = Ustar.encode m :=
      Ustar.tar_lawful.appendPath_ok name source m hm herr
    rw [hwrites, Ustar.encode, Ustar.header]
    simp only [List.length_append, List.length_cons]
    omega

namespace Shelf

def note : FileName := ⟨[110], by decide, by decide, by decide, by decide⟩

def link : FileName := ⟨[108], by decide, by decide, by decide, by decide⟩

def nodes : List (List FileName) := [[], [note], [link]]

theorem eq_root_of_child {p : List FileName} {n : FileName} (h : p ++ [n] ∈ nodes) : p = [] := by
  have hlen : ∀ q ∈ nodes, q.length ≤ 1 := by decide
  have hle := hlen _ h
  rw [List.length_append, List.length_singleton] at hle
  exact List.eq_nil_of_length_eq_zero (by omega)

/-- A directory with a file and a symlink to it. -/
def tree : Tree where
  nodes := nodes
  nodup := by decide
  root_mem := List.mem_cons_self
  closed := fun p n h => by
    rw [eq_root_of_child h]
    exact List.mem_cons_self
  kind := fun p => if p = [] then .dir else if p = [note] then .file 2 else .other
  dir_of_child := fun p n h => if_pos (eq_root_of_child h)

def fs : Fs where
  symlinkMetadata := fun p => .ok (if p = .ofString "d" then .dir
    else if p = .ofString "d/n" then .file 2 else .other)
  statDir := fun _ => .ok ()
  readDir := fun _ => .ok ([link, note], none)
  source := fun p =>
    if p = .ofString "d/n" then .file 2 [104, 105] none else .symlink (.ofString "n")

def sources : List (FileCopyEntry × Tree) := [(⟨"d", "d"⟩, tree)]

theorem tree_holds : tree.Holds Ustar.tar fs (.ofString "d") (.ofString "d") := by
  intro p hp
  simp only [tree, nodes, List.mem_cons, List.not_mem_nil, or_false] at hp
  rcases hp with rfl | rfl | rfl
  · refine ⟨[link, note], by decide, fun n => ?_, rfl, by decide +kernel, fun _ => ⟨rfl, rfl⟩,
      fun h => absurd rfl h⟩
    simp [tree, nodes, or_comm]
  · refine ⟨[], List.nodup_nil, fun n => ?_, rfl, by decide +kernel, nofun,
      fun _ => ⟨rfl, rfl, rfl, rfl⟩⟩
    simp [tree, nodes]
  · refine ⟨[], List.nodup_nil, fun n => ?_, rfl, by decide +kernel, nofun,
      fun _ => ⟨rfl, trivial⟩⟩
    simp [tree, nodes]

end Shelf

/-- The three nodes and the two bytes are just within the limits. -/
theorem archive_visits_shelf :
    ∃ sent, (∀ sent', SendsArchive Ustar.tar Shelf.fs ⟨2, 3⟩ [⟨"d", "d"⟩] sent' ↔ sent' = sent) ∧
      sent.result = .ok () ∧
      ∃ blocks, List.Forall₂ VisitedOnce Shelf.sources blocks ∧ sent.log = blocks.flatten := by
  have hdisabled : (⟨2, 3⟩ : FileCopyLimits).disabled = false := by decide
  have hold : ∀ e ∈ Shelf.sources,
      e.2.Holds Ustar.tar Shelf.fs (.ofString e.1.path) (.ofString e.1.archiveName) := by
    intro e he
    rw [List.mem_singleton.mp he]
    exact Shelf.tree_holds
  have hentries : [⟨"d", "d"⟩] = Shelf.sources.map (·.1) := rfl
  obtain ⟨sent, hsent, hmain⟩ := archive_visits_once Ustar.tar_covers hdisabled
    (List.cons_ne_nil _ _) hentries hold
  have hrun : (Loop.run (Sender.step Ustar.tar Shelf.fs) 5 (.init ⟨2, 3⟩ [⟨"d", "d"⟩])).map
      (·.result.toBool) = some true := by
    decide +kernel
  obtain ⟨sent', hreturns, hresult⟩ := Loop.Returns.of_run hrun
  obtain rfl : sent' = sent := (hsent sent').mp hreturns
  have hok : sent'.result = .ok () := by
    cases herr : sent'.result with
    | ok => rfl
    | error err =>
      rw [herr] at hresult
      cases hresult
  obtain ⟨-, harchived, -⟩ := hmain fun hlimit => hlimit.ne_ok hok
  exact ⟨sent', hsent, hok, (harchived hok).1⟩

end Hush.FileCopy
