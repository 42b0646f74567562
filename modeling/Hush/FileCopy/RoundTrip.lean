import Hush.FileCopy.Agreement
import Hush.FileCopy.Download
import Hush.FileCopy.Traversal
import Hush.Lib.FileTree
import Mathlib.Data.List.Perm.Basic

/-!
# What a copy leaves behind

The sender archives a forest and the receiver unpacks it, its files first and its directories
last. Below the destination there is then the same forest.
-/

namespace Hush.FileCopy
open Hush.Lib

/-- What there is below the destination. -/
abbrev Disk := FileTree FileName Bytes Path

/-- What a member becomes when it is unpacked. -/
def Member.node (m : Member) : Option (Node Bytes Path) :=
  match m.type with
  | .directory => some .dir
  | .regular => some (.file m.data)
  | .symlink => some (.symlink m.link)
  | .other => none

/-- What the sender's filesystem has at a path. -/
def Fs.node (fs : Fs) (p : Path) : Option (Node Bytes Path) :=
  match fs.symlinkMetadata p with
  | .ok .dir => some .dir
  | .ok _ => ((fs.source p).member p).bind Member.node
  | .error _ => none

/-- A symlink's target that does not lead out of the directory it is in. -/
def StaysInside (target : Path) : Prop :=
  target.isAbsolute = false ∧ .parentDir ∉ target.components

instance (target : Path) : Decidable (StaysInside target) := inferInstanceAs (Decidable (_ ∧ _))

/-- The node at these names of a forest is what the entry, which is whole, becomes. -/
structure Item.Lands (forest : Disk) (item : Item) (names : List FileName) : Prop where
  ne_nil : names ≠ []
  components_eq : item.member.path.components = names.map fun n => .normal n.bytes
  whole : item = .whole item.member
  node_eq : item.member.node = forest names
  node_ne : forest names ≠ none
  contained : ∀ target, forest names = some (.symlink target) → StaysInside target

/-- The tar library unpacks entries onto a disk: one that nothing is in the way of is taken, and
is then in its place. -/
structure Destination.Stores (d : Destination) (root : Path) (disk : List Item → Disk) : Prop where
  unpack : ∀ done item names node, names ≠ [] →
    item.member.path.components = (names.map fun n => .normal n.bytes) →
    item = .whole item.member → item.member.node = some node →
    (∀ target, node = .symlink target → StaysInside target) → (disk done).Takes names node →
    (d.unpackInRaw done root item).2 = none ∧ disk (done ++ [item]) = (disk done).put names node

/-- Limits that are no stricter. -/
def FileCopyLimits.Within (limits limits' : FileCopyLimits) : Prop :=
  limits.maxBytes.toNat ≤ limits'.maxBytes.toNat ∧
    limits.maxEntries.toNat ≤ limits'.maxEntries.toNat

theorem FileCopyLimits.Within.refl (limits : FileCopyLimits) : limits.Within limits :=
  ⟨Nat.le_refl _, Nat.le_refl _⟩

section Within

variable {limits limits' : FileCopyLimits} (h : limits.Within limits')
include h

theorem FileCopyLimits.Within.allows {sizes : List Nat} (hallows : limits.Allows sizes) :
    limits'.Allows sizes := by
  obtain ⟨hbytes, hentries⟩ := h
  have hmaxEntries : limits'.maxEntries.toNat ≤ u64Max :=
    Nat.le_pred_of_lt limits'.maxEntries.toNat_lt
  have hmaxBytes : limits'.maxBytes.toNat ≤ u64Max := Nat.le_pred_of_lt limits'.maxBytes.toNat_lt
  unfold FileCopyLimits.Allows at hallows ⊢
  omega

theorem FileCopyLimits.Within.archiveByteLimit_le :
    archiveByteLimit limits ≤ archiveByteLimit limits' := by
  obtain ⟨hbytes, hentries⟩ := h
  unfold archiveByteLimit satAdd satMul
  omega

theorem FileCopyLimits.Within.disabled (hdisabled : limits.disabled = false) :
    limits'.disabled = false := by
  obtain ⟨hbytes, hentries⟩ := h
  simp only [FileCopyLimits.disabled, Bool.or_eq_false_iff, beq_eq_false_iff_ne, ne_eq,
    ← UInt64.toNat_inj, UInt64.toNat_zero] at hdisabled ⊢
  omega

end Within

section Receive

variable {d : Destination} {root destination : Path} {disk : List Item → Disk} {forest : Disk}
  {items : List Item} {keys done : List (List FileName)}

/-- Entries of a forest are unpacked in whatever order they come. -/
theorem Destination.Stores.fill (h : d.Stores root disk) (hfits : forest.Fits (disk []))
    (hlands : List.Forall₂ (Item.Lands forest) items keys) {out : Unpacked}
    (hnodup : (done ++ keys).Nodup) (hfilled : forest.Filled (disk []) done (disk out.entries)) :
    ∃ out', tryEach (d.unpack root) out items = (out', none) ∧
      forest.Filled (disk []) (done ++ keys) (disk out'.entries) := by
  induction hlands generalizing out done with
  | nil =>
    rw [List.append_nil]
    exact ⟨out, rfl, hfilled⟩
  | @cons item names items keys hitem hitems ih =>
    have hassoc : done ++ names :: keys = (done ++ [names]) ++ keys := by simp
    rw [hassoc] at hnodup ⊢
    have hnew : names ∉ done := by
      intro hmem
      have hdisjoint := (List.nodup_append.mp (List.nodup_append.mp hnodup).1).2.2
      exact hdisjoint names hmem names (List.mem_singleton.mpr rfl) rfl
    obtain ⟨node, hnode⟩ := Option.ne_none_iff_exists'.mp hitem.node_ne
    have htakes := hfilled.takes hfits hnode hnew
    obtain ⟨herr, hput⟩ := h.unpack out.entries item names node hitem.ne_nil hitem.components_eq
      hitem.whole (hitem.node_eq.trans hnode)
      (fun target htarget => hitem.contained target (by rw [hnode, htarget])) htakes
    have hstep : (d.unpack root out item).2 = none := by
      simp only [Destination.unpack, herr, Option.map_none]
    have hentries : (d.unpack root out item).1.entries = out.entries ++ [item] := rfl
    have hnext : forest.Filled (disk []) (done ++ [names])
        (disk (d.unpack root out item).1.entries) := by
      rw [hentries, hput]
      exact hfilled.put hfits hnode hnew
    obtain ⟨out', htry, hfilled'⟩ := ih hnodup hnext
    refine ⟨out', ?_, hfilled'⟩
    rw [tryEach, show d.unpack root out item = ((d.unpack root out item).1, none) from
      Prod.ext rfl hstep]
    exact htry

/-- All the entries of a forest are unpacked, and the disk has the forest. -/
theorem Destination.Stores.unpackAll (h : d.Stores root disk) (hfits : forest.Fits (disk []))
    {created : List Path} (hprepare : d.prepare destination = (created, .ok root))
    (hlands : List.Forall₂ (Item.Lands forest) items keys) (hnodup : keys.Nodup)
    (hkeys : ∀ names, forest names ≠ none → names ∈ keys) :
    (d.unpackAll destination items).result = .ok () ∧
      disk (d.unpackAll destination items).out.entries = forest.overlay (disk []) := by
  obtain ⟨keys', hlands', hperm⟩ := List.perm_comp_forall₂ files_directories_perm hlands
  have hnodup' : keys'.Nodup := hperm.nodup_iff.mpr hnodup
  -- The keys are cut where the files end.
  obtain ⟨front, back, rfl, hfront, hback⟩ : ∃ front back, keys' = front ++ back ∧
      List.Forall₂ (Item.Lands forest) (files items) front ∧
      List.Forall₂ (Item.Lands forest) (sortDirectories (directories items)) back :=
    ⟨keys'.take (files items).length, keys'.drop (files items).length,
      (List.take_append_drop _ _).symm,
      (List.forall₂_take_append _ _ _ hlands'.flip).flip,
      (List.forall₂_drop_append _ _ _ hlands'.flip).flip⟩
  have hwhole : ∀ item ∈ items, item = .whole item.member :=
    ((List.forall₂_and_left _ _).mp (hlands.imp fun _ _ hland => ⟨hland.whole, hland⟩)).1
  have hpath : (directories items).findSome? (·.pathErr) = none := by
    rw [List.findSome?_eq_none_iff]
    intro item hitem
    rw [hwhole item (List.mem_of_mem_filter hitem)]
    rfl
  have hstart : forest.Filled (disk []) [] (disk (⟨[], created⟩ : Unpacked).entries) :=
    .start forest (disk [])
  have hnodupFront : ([] ++ front).Nodup := (List.nodup_append.mp hnodup').1
  obtain ⟨out, hfiles, hfilled⟩ := h.fill hfits hfront hnodupFront hstart
  obtain ⟨out', hdirs, hfilled'⟩ := h.fill hfits hback hnodup' hfilled
  have hresult : d.unpackAll destination items = ⟨.ok (), out'⟩ := by
    simp only [Destination.unpackAll, hprepare, hfiles, hpath, hdirs]
  rw [hresult]
  exact ⟨rfl, hfilled'.finished fun names hne => hperm.mem_iff.mpr (hkeys names hne)⟩

end Receive

section Send

variable {tar : TarLib} {fs : Fs} {limits : FileCopyLimits} {e : Path × Path}
  {metadata : Metadata} {names : List FileName} {log : List (Path × Path)}

/-- The member that the sender makes of what is at a path. -/
structure Archives (tar : TarLib) (fs : Fs) (e : Path × Path) (m : Member) : Prop where
  appends : tar.Appends m
  path_eq : m.path = e.2
  bytes_eq : (memberAt tar fs e).writes.flatten = tar.encode m
  node_eq : m.node = fs.node e.1
  node_ne : m.node ≠ none
  size_eq : m.data.length = sizeAt fs e

theorem Metadata.Of.member {content : Source} (h : metadata.Of content) (name : Path) :
    ∃ m, content.member name = some m ∧ m.path = name ∧ m.node ≠ none ∧
      m.data.length = Sender.metadataLen metadata ∧
      ∀ name', (content.member name').bind Member.node = m.node := by
  cases metadata with
  | dir => cases content <;> cases h
  | file len =>
    cases content with
    | file size data err =>
      obtain ⟨rfl, hdata, rfl⟩ := h
      refine ⟨⟨name, .regular, data, []⟩, if_pos hdata, rfl, ?_, hdata, fun name' => ?_⟩
      · simp [Member.node]
      · simp [Source.member, hdata, Member.node]
    | symlink | special | unreadable => cases h
  | other =>
    cases content with
    | symlink target =>
      exact ⟨⟨name, .symlink, [], target⟩, rfl, rfl, by simp [Member.node], rfl, fun _ => rfl⟩
    | file | special | unreadable => cases h

theorem Readable.archives (ht : tar.Lawful) (h : Readable tar fs e metadata names) :
    ∃ m, Archives tar fs e m := by
  have htaken := h.taken
  by_cases hdir : metadata = .dir
  · subst hdir
    rw [h.memberAt_dir] at htaken
    refine ⟨.directory e.2, Or.inl ⟨rfl, htaken⟩, rfl, ?_, ?_, ?_, ?_⟩
    · rw [h.memberAt_dir]
      exact ht.appendDir_ok e.2 htaken
    · simp only [Fs.node, h.metadata_eq]
      rfl
    · simp [Member.node, Member.directory]
    · rw [h.sizeAt_eq]
      rfl
  · rw [h.memberAt_leaf hdir] at htaken
    obtain ⟨m, hm, hpath, hne, hlen, hnode⟩ := (h.leaf hdir).2.member e.2
    refine ⟨m, Or.inr ⟨fs.source e.1, ?_, ?_⟩, hpath, ?_, ?_, hne, ?_⟩
    · rw [hpath]
      exact hm
    · rw [hpath]
      exact htaken
    · rw [h.memberAt_leaf hdir]
      exact ht.appendPath_ok e.2 _ m hm htaken
    · rw [← hnode e.1]
      cases metadata with
      | dir => exact absurd rfl hdir
      | file len => simp only [Fs.node, h.metadata_eq]
      | other => simp only [Fs.node, h.metadata_eq]
    · rw [hlen, h.sizeAt_eq]

theorem exists_members (h : ∀ e ∈ log, ∃ m, Archives tar fs e m) :
    ∃ ms, List.Forall₂ (Archives tar fs) log ms := by
  induction log with
  | nil => exact ⟨[], .nil⟩
  | cons e log ih =>
    obtain ⟨⟨m, hm⟩, hlog⟩ := List.forall_mem_cons.mp h
    obtain ⟨ms, hms⟩ := ih hlog
    exact ⟨m :: ms, .cons hm hms⟩

theorem encodeAll_members {ms : List Member} (h : List.Forall₂ (Archives tar fs) log ms) :
    (∀ m ∈ ms, tar.Appends m) ∧ bytesAt tar fs log = tar.encodeAll ms ∧
      (ms.map Item.whole).map (·.size) = sizesAt fs log := by
  induction h with
  | nil => simp [bytesAt, sizesAt]
  | cons hm _ ih =>
    obtain ⟨happends, hbytes, hsizes⟩ := ih
    refine ⟨List.forall_mem_cons.mpr ⟨hm.appends, happends⟩, ?_, ?_⟩
    · rw [TarLib.encodeAll_cons, ← hm.bytes_eq, ← hbytes]
      rfl
    · simp only [List.map_cons, hsizes, sizesAt, ← hm.size_eq]
      rfl

/-- A copy that succeeds has archived every node of the sources, within the limits. -/
theorem SendsArchive.archived {sources : List (FileCopyEntry × Tree)} {sent : Sent}
    (hc : tar.Covers)
    (hold : ∀ e ∈ sources, e.2.Holds tar fs (.ofString e.1.path) (.ofString e.1.archiveName))
    (hsent : SendsArchive tar fs limits (sources.map (·.1)) sent) (hok : sent.result = .ok ()) :
    limits.disabled = false ∧ ∃ blocks, List.Forall₂ VisitedOnce sources blocks ∧
      sent.writes.flatten = bytesAt tar fs blocks.flatten ++ TarLib.trailer ∧
      sent.writes.flatten.length ≤ archiveByteLimit limits ∧
      limits.Allows (sizesAt fs blocks.flatten) := by
  have hprecheck : sendPrecheck limits (sources.map (·.1)) = .ok () := by
    cases hpre : sendPrecheck limits (sources.map (·.1)) with
    | ok => rfl
    | error err =>
      simp only [SendsArchive, hpre] at hsent
      rw [hsent] at hok
      cases hok
  have hdisabled : limits.disabled = false := by
    cases hdis : limits.disabled with
    | false => rfl
    | true =>
      simp only [sendPrecheck, hdis, if_true] at hprecheck
      split at hprecheck <;> cases hprecheck
  have hreturns : Loop.Returns (Sender.step tar fs) (.init limits (sources.map (·.1))) sent := by
    simpa only [SendsArchive, hprecheck] using hsent
  refine ⟨hdisabled, ?_⟩
  rcases (Sender.sound_init tar fs limits (sources.map (·.1))).run hc hold rfl rfl with
    ⟨u, blocks, hreach, hu, hpending, hentries, hlog, hblocks⟩ | ⟨r, hr, hend⟩
  · have hlog : u.log = blocks.flatten := hlog
    have hfinish : Sender.step tar fs u = u.finish := Sender.step_finish hpending hentries
    rcases LimitedWriter.writeAll_cases TarLib.trailer hu.written_le with ⟨-, hw⟩ | ⟨-, w, hw⟩
    · have hdone := hreach.returns (hfinish.trans (Sender.finish_ok hw))
      obtain rfl := hreturns.unique hdone
      obtain ⟨-, hle⟩ := LimitedWriter.writeAll_ok hw hu.written_le
      rw [LimitedWriter.push_limit, hu.limit_eq] at hle
      have hflat : (u.writer.push TarLib.trailer).writes.flatten =
          bytesAt tar fs blocks.flatten ++ TarLib.trailer := by
        rw [LimitedWriter.push_writes, List.flatten_append, List.flatten_singleton,
          hu.written_eq, hlog]
      exact ⟨blocks, hblocks, hflat, hle, hlog ▸ hu.allows⟩
    · have hdone := hreach.returns (hfinish.trans (Sender.finish_err hw))
      obtain rfl := hreturns.unique hdone
      cases hok
  · obtain rfl := hreturns.unique hr
    exact absurd hok hend.ne_ok

end Send

section Forest

variable {fs : Fs} {sources : List (FileCopyEntry × Tree)} {name : FileCopyEntry → FileName}
  {src : FileCopyEntry × Tree} {q : List FileName} {node : Node Bytes Path}

/-- The forest that the sources are, each under its own name. -/
def copied (fs : Fs) (name : FileCopyEntry → FileName) (sources : List (FileCopyEntry × Tree)) :
    Disk
  | [] => none
  | n :: p =>
    match sources.find? fun src => name src.1 = n with
    | some src => if p ∈ src.2.nodes then fs.node (descend (.ofString src.1.path) p) else none
    | none => none

theorem copied_of_mem (hnodup : (sources.map fun src => name src.1).Nodup) (hsrc : src ∈ sources)
    {p : List FileName} (hp : p ∈ src.2.nodes) :
    copied fs name sources (name src.1 :: p) = fs.node (descend (.ofString src.1.path) p) := by
  obtain ⟨found, hfound⟩ : ∃ found,
      sources.find? (fun src' => name src'.1 = name src.1) = some found := by
    rw [← Option.isSome_iff_exists, List.find?_isSome]
    exact ⟨src, hsrc, by simp⟩
  have hname : name found.1 = name src.1 := by simpa using List.find?_some hfound
  obtain rfl : found = src :=
    List.inj_on_of_nodup_map hnodup (List.mem_of_find?_eq_some hfound) hsrc hname
  simp only [copied, hfound, if_pos hp]

theorem exists_of_copied (h : copied fs name sources q = some node) :
    ∃ src ∈ sources, ∃ p ∈ src.2.nodes, q = name src.1 :: p ∧
      fs.node (descend (.ofString src.1.path) p) = some node := by
  cases q with
  | nil => cases h
  | cons n p =>
    simp only [copied] at h
    split at h
    · next src hfound =>
      split at h
      · next hp =>
        have hname : name src.1 = n := by simpa using List.find?_some hfound
        exact ⟨src, List.mem_of_find?_eq_some hfound, p, hp, by rw [hname], h⟩
      · cases h
    · cases h

/-- The sources can be read, are archived under names of their own, and have no symlink that
leads out of them. -/
structure Copyable (tar : TarLib) (fs : Fs) (name : FileCopyEntry → FileName)
    (sources : List (FileCopyEntry × Tree)) : Prop where
  holds : ∀ src ∈ sources,
    src.2.Holds tar fs (.ofString src.1.path) (.ofString src.1.archiveName)
  named : ∀ src ∈ sources, Path.ofString src.1.archiveName = (name src.1).bytes
  nodup : (sources.map fun src => name src.1).Nodup
  links : ∀ q target, copied fs name sources q = some (.symlink target) → StaysInside target

/-- The destination can be prepared, and nothing on its disk is in the way of the forest. -/
structure Destination.Ready (d : Destination) (destination : Path) (disk : List Item → Disk)
    (forest : Disk) : Prop where
  prepared : ∃ created root, d.prepare destination = (created, .ok root) ∧ d.Stores root disk
  root : disk [] [] = some .dir
  free : ∀ q node, forest q = some node →
    disk [] q = none ∨ (disk [] q = some .dir ↔ node = .dir)

variable {tar : TarLib}

/-- Above a node there are the directories of its source, and the destination. -/
theorem Copyable.fits (h : Copyable tar fs name sources) {d : Destination} {destination : Path}
    {disk : List Item → Disk} (hready : d.Ready destination disk (copied fs name sources)) :
    (copied fs name sources).Fits (disk []) := by
  refine ⟨fun q r hq hr hne => ?_, hready.free⟩
  obtain ⟨node, hnode⟩ := Option.ne_none_iff_exists'.mp hq
  obtain ⟨src, hsrc, p, hp, rfl, -⟩ := exists_of_copied hnode
  cases r with
  | nil => exact Or.inr hready.root
  | cons n r =>
    obtain ⟨rfl, hprefix⟩ := List.cons_prefix_cons.mp hr
    have hmem : r ∈ src.2.nodes := PrefixTree.mem_of_isPrefix hp hprefix
    -- Something of the source is below it, so it is a directory.
    obtain ⟨rest, rfl⟩ := hprefix
    cases rest with
    | nil => exact absurd (by rw [List.append_nil]) hne
    | cons m rest =>
      have hchild : r ++ [m] ∈ src.2.nodes :=
        PrefixTree.mem_of_isPrefix hp ⟨rest, by simp⟩
      obtain ⟨_, -, -, hread⟩ := h.holds src hsrc r hmem
      have hmetadata : fs.symlinkMetadata (descend (.ofString src.1.path) r) = .ok .dir := by
        rw [← src.2.dir_of_child r m hchild]
        exact hread.metadata_eq
      left
      rw [copied_of_mem h.nodup hsrc hmem]
      simp only [Fs.node, hmetadata]

/-- The place in the forest of a path that is visited. -/
def PlaceOf (name : FileCopyEntry → FileName) (sources : List (FileCopyEntry × Tree))
    (e : Path × Path) (q : List FileName) : Prop :=
  ∃ src ∈ sources, ∃ p ∈ src.2.nodes,
    e = place (.ofString src.1.path) (.ofString src.1.archiveName) p ∧ q = name src.1 :: p

/-- The places of all that is visited are those of the forest. -/
theorem exists_keys {blocks : List (List (Path × Path))} (name : FileCopyEntry → FileName)
    (h : List.Forall₂ VisitedOnce sources blocks) :
    ∃ keys, List.Forall₂ (PlaceOf name sources) blocks.flatten keys ∧
      keys.Perm (sources.flatMap fun src => src.2.nodes.map (name src.1 :: ·)) := by
  induction h with
  | nil => exact ⟨[], .nil, .refl _⟩
  | @cons src block sources blocks hblock _ ih =>
    obtain ⟨keys, hkeys, hperm⟩ := ih
    obtain ⟨order, horder, -, rfl⟩ := hblock
    refine ⟨order.map (name src.1 :: ·) ++ keys, ?_, ?_⟩
    · rw [List.flatten_cons]
      refine List.rel_append ?_ (hkeys.imp fun e q ⟨src', hsrc', hplace⟩ =>
        ⟨src', List.mem_cons_of_mem _ hsrc', hplace⟩)
      rw [places, List.forall₂_map_left_iff, List.forall₂_map_right_iff, List.forall₂_same]
      exact fun p hp => ⟨src, List.mem_cons_self, p, horder.mem_iff.mp hp, rfl, rfl⟩
    · rw [List.flatMap_cons]
      exact (horder.map _).append hperm

theorem nodup_keys (hnodup : (sources.map fun src => name src.1).Nodup) :
    (sources.flatMap fun src => src.2.nodes.map (name src.1 :: ·)).Nodup := by
  refine List.nodup_flatMap.mpr ⟨fun src _ => ?_, ?_⟩
  · exact src.2.nodup.map fun p q h => (List.cons.inj h).2
  · refine (List.pairwise_map.mp hnodup).imp fun hne q hq hq' => ?_
    obtain ⟨p, -, rfl⟩ := List.mem_map.mp hq
    obtain ⟨p', -, heq⟩ := List.mem_map.mp hq'
    exact hne (List.cons.inj heq).1.symm

theorem mem_keys (hq : copied fs name sources q ≠ none) :
    q ∈ sources.flatMap fun src => src.2.nodes.map (name src.1 :: ·) := by
  obtain ⟨node, hnode⟩ := Option.ne_none_iff_exists'.mp hq
  obtain ⟨src, hsrc, p, hp, rfl, -⟩ := exists_of_copied hnode
  exact List.mem_flatMap.mpr ⟨src, hsrc, List.mem_map_of_mem hp⟩

/-- The member of a path that is visited lands in its place. -/
theorem Archives.lands {e : Path × Path} {m : Member} (h : Archives tar fs e m)
    (hcopyable : Copyable tar fs name sources) (hplace : PlaceOf name sources e q) :
    (Item.whole m).Lands (copied fs name sources) q := by
  obtain ⟨src, hsrc, p, hp, rfl, rfl⟩ := hplace
  have hnode : m.node = copied fs name sources (name src.1 :: p) := by
    rw [copied_of_mem hcopyable.nodup hsrc hp]
    exact h.node_eq
  refine ⟨List.cons_ne_nil _ _, ?_, rfl, hnode, ?_, hcopyable.links _⟩
  · have hpath : m.path = descend (name src.1).bytes p := by
      rw [h.path_eq, ← hcopyable.named src hsrc]
      rfl
    simp only [Item.whole, hpath, components_descend, Path.components_fileName]
    rfl
  · rw [← hnode]
    exact h.node_ne

theorem Copyable.lands (h : Copyable tar fs name sources) {log : List (Path × Path)}
    {ms : List Member} {keys : List (List FileName)} (hms : List.Forall₂ (Archives tar fs) log ms)
    (hkeys : List.Forall₂ (PlaceOf name sources) log keys) :
    List.Forall₂ (Item.Lands (copied fs name sources)) (ms.map .whole) keys := by
  induction hms generalizing keys with
  | nil =>
    cases hkeys
    exact .nil
  | cons hm _ ih =>
    cases hkeys with
    | cons hplace hrest => exact .cons (hm.lands h hplace) (ih hrest)

theorem Copyable.archives (h : Copyable tar fs name sources) (ht : tar.Lawful)
    {blocks : List (List (Path × Path))} (hblocks : List.Forall₂ VisitedOnce sources blocks) :
    ∀ e ∈ blocks.flatten, ∃ m, Archives tar fs e m := by
  intro e he
  have he := (blocks_perm hblocks).mem_iff.mp he
  obtain ⟨src, hsrc, he⟩ := List.mem_flatMap.mp he
  obtain ⟨p, hp, rfl⟩ := List.mem_map.mp he
  obtain ⟨_, -, -, hread⟩ := h.holds src hsrc p hp
  exact hread.archives ht

end Forest

/-- A forest that the sender has archived within its limits is unpacked under limits that are no
stricter, and then it is below the destination as it was at the source: every directory, every
file with its bytes and every symlink with its target, and nothing else there has changed. -/
theorem receiveArchive_copied {tar : TarLib} {zstd : Zstd} (ht : tar.Lawful) (hc : tar.Covers)
    (hz : zstd.Lawful) {fs : Fs} {limits limits' : FileCopyLimits}
    (hlimits : limits.Within limits') {sources : List (FileCopyEntry × Tree)}
    {name : FileCopyEntry → FileName} (hcopyable : Copyable tar fs name sources) {sent : Sent}
    (hsent : SendsArchive tar fs limits (sources.map (·.1)) sent) (hok : sent.result = .ok ())
    {compression : FileCopyCompression} {wire : Bytes}
    (hwire : wire = archiveWriter zstd compression sent.writes.flatten)
    (hmax : wire.length ≤ u64Max) {d : Destination} {destination : Path}
    {disk : List Item → Disk} (hready : d.Ready destination disk (copied fs name sources)) :
    (receiveArchive tar zstd d ⟨wire, none⟩ destination compression limits').result = .ok () ∧
      disk (receiveArchive tar zstd d ⟨wire, none⟩ destination compression limits').out.entries =
        (copied fs name sources).overlay (disk []) := by
  subst hwire
  obtain ⟨hdisabled, blocks, hblocks, hflat, hlen, hallows⟩ :=
    hsent.archived hc hcopyable.holds hok
  have hlen : sent.writes.flatten.length ≤ archiveByteLimit limits' :=
    Nat.le_trans hlen hlimits.archiveByteLimit_le
  obtain ⟨keys, hkeys, hperm⟩ := exists_keys name hblocks
  obtain ⟨ms, hms⟩ := exists_members (hcopyable.archives ht hblocks)
  obtain ⟨happends, hbytes, hsizes⟩ := encodeAll_members hms
  have hread : tar.read ⟨sent.writes.flatten, none⟩ = (ms.map .whole, none) := by
    rw [hflat, hbytes, TarLib.read_archive ht happends]
  have hreceive : receiveArchive tar zstd d
      ⟨archiveWriter zstd compression sent.writes.flatten, none⟩ destination compression limits' =
        d.unpackAll destination (ms.map .whole) := by
    simp only [receiveArchive, archiveEntries, hlimits.disabled hdisabled, Bool.false_eq_true,
      if_false, Stream.take_of_le (length_archiveWriter hz hlen hmax),
      archiveReader_archiveWriter hz compression sent.writes.flatten, Stream.take_of_le hlen, hread]
    apply unpackArchiveLimited_of_allows
    rw [hsizes]
    exact hlimits.allows hallows
  obtain ⟨created, root, hprepare, hstores⟩ := hready.prepared
  rw [hreceive]
  exact hstores.unpackAll (hcopyable.fits hready) hprepare (hcopyable.lands hms hkeys)
    (hperm.nodup_iff.mpr (nodup_keys hcopyable.nodup)) fun q hq => hperm.mem_iff.mpr (mem_keys hq)

/-! A destination that keeps a disk. -/
namespace Kept

def fileName? (bytes : List UInt8) : Option FileName :=
  if h : bytes ≠ [] ∧ Path.slash ∉ bytes ∧ bytes ≠ [Path.dot] ∧ bytes ≠ [Path.dot, Path.dot] then
    some ⟨bytes, h.1, h.2.1, h.2.2.1, h.2.2.2⟩
  else none

/-- The names of a path that has nothing but names. -/
def relative? (p : Path) : Option (List FileName) :=
  p.components.mapM fun
    | .normal bytes => fileName? bytes
    | _ => none

/-- A target that leads out of its directory is refused. -/
def Refuses : Node Bytes Path → Bool
  | .symlink target => !decide (StaysInside target)
  | .dir | .file _ => false

def unpack (t : Disk) (item : Item) : Option Disk :=
  match relative? item.member.path, item.member.node with
  | some names, some node =>
    if t.Takes names node ∧ Refuses node = false then some (t.put names node) else none
  | _, _ => none

/-- The disk after these entries. -/
def disk (t : Disk) (done : List Item) : Disk :=
  done.foldl (fun t item => (unpack t item).getD t) t

def destination (t : Disk) : Destination :=
  { Plain.destination fun _ => true with
    unpackInRaw := fun done root item =>
      if (unpack (disk t done) item).isSome then Plain.unpackInRaw root item
      else ([], some "File exists (os error 17)") }

theorem relative?_eq {p : Path} {names : List FileName}
    (h : p.components = names.map fun n => .normal n.bytes) : relative? p = some names := by
  rw [relative?, h]
  clear h
  induction names with
  | nil => rfl
  | cons n names ih =>
    have hn : fileName? n.bytes = some n := by
      simp [fileName?, n.ne_nil, n.no_slash, n.ne_dot, n.ne_dotdot]
    simp only [List.map_cons, List.mapM_cons, hn, ih]
    rfl

theorem destination_stores (t : Disk) (root : Path) : (destination t).Stores root (disk t) where
  unpack := by
    intro done item names node hne hcomponents hwhole hnode hinside htakes
    have hrefuses : Refuses node = false := by
      cases node with
      | dir | file => rfl
      | symlink target => simpa [Refuses] using hinside target rfl
    have hunpack : unpack (disk t done) item = some ((disk t done).put names node) := by
      simp only [unpack, relative?_eq hcomponents, hnode]
      exact if_pos ⟨htakes, hrefuses⟩
    refine ⟨?_, ?_⟩
    · simp only [destination, hunpack, Option.isSome_some, if_true, Plain.unpackInRaw]
      split <;> rfl
    · simp only [disk, List.foldl_append, List.foldl_cons, List.foldl_nil] at hunpack ⊢
      rw [hunpack, Option.getD_some]

end Kept

/-! A directory with a file and a symlink in a home directory, and another one to copy it to. -/
namespace Home
open Hush.FileCopy.Shelf (link note nodes tree)

def fs : Fs where
  symlinkMetadata := fun p => .ok (if p = .ofString "/home/alice/d" then .dir
    else if p = .ofString "/home/alice/d/n" then .file 2 else .other)
  statDir := fun _ => .ok ()
  readDir := fun _ => .ok ([link, note], none)
  source := fun p =>
    if p = .ofString "/home/alice/d/n" then .file 2 [104, 105] none else .symlink (.ofString "n")

def entries : List FileCopyEntry := [⟨"/home/alice/d", "d"⟩]

def sources : List (FileCopyEntry × Tree) := [(⟨"/home/alice/d", "d"⟩, tree)]

def name : FileName := ⟨[100], by decide, by decide, by decide, by decide⟩

/-- There is nothing in it but a file that is in nobody's way. -/
def before : Disk := fun q =>
  if q = [] then some .dir else if q = [note] then some (.file [33]) else none

def destination : Destination := Kept.destination before

def disk : List Item → Disk := Kept.disk before

theorem tree_holds : tree.Holds Ustar.tar fs (.ofString "/home/alice/d") (.ofString "d") := by
  intro p hp
  simp only [tree, nodes, List.mem_cons, List.not_mem_nil, or_false] at hp
  rcases hp with rfl | rfl | rfl
  · refine ⟨[link, note], by decide, fun n => ?_, rfl, by decide +kernel, fun _ => ⟨rfl, rfl⟩,
      fun h => absurd rfl h⟩
    simp [tree, nodes, or_comm]
  · refine ⟨[], List.nodup_nil, fun n => ?_, rfl, by decide +kernel, fun h => (by cases h),
      fun _ => ⟨rfl, rfl, rfl, rfl⟩⟩
    simp [tree, nodes]
  · refine ⟨[], List.nodup_nil, fun n => ?_, rfl, by decide +kernel, fun h => (by cases h),
      fun _ => ⟨rfl, trivial⟩⟩
    simp [tree, nodes]

theorem copied_cases {q : List FileName} {node : Node Bytes Path}
    (h : copied fs (fun _ => name) sources q = some node) :
    q = [name] ∧ node = .dir ∨ q = [name, note] ∧ node = .file [104, 105] ∨
      q = [name, link] ∧ node = .symlink (.ofString "n") := by
  obtain ⟨src, hsrc, p, hp, rfl, hnode⟩ := exists_of_copied h
  rw [List.mem_singleton.mp hsrc] at hp hnode
  simp only [tree, nodes, List.mem_cons, List.not_mem_nil, or_false] at hp
  rcases hp with rfl | rfl | rfl
  · exact Or.inl ⟨rfl, (Option.some.inj hnode).symm⟩
  · exact Or.inr (Or.inl ⟨rfl, (Option.some.inj hnode).symm⟩)
  · exact Or.inr (Or.inr ⟨rfl, (Option.some.inj hnode).symm⟩)

theorem copyable : Copyable Ustar.tar fs (fun _ => name) sources where
  holds := by
    intro src hsrc
    rw [List.mem_singleton.mp hsrc]
    exact tree_holds
  named := by
    intro src hsrc
    rw [List.mem_singleton.mp hsrc]
    rfl
  nodup := List.nodup_singleton _
  links := by
    intro q target h
    rcases copied_cases h with ⟨-, hnode⟩ | ⟨-, hnode⟩ | ⟨-, hnode⟩
    · cases hnode
    · cases hnode
    · cases hnode
      decide

theorem ready (path : Path) : destination.Ready path disk (copied fs (fun _ => name) sources) where
  prepared := ⟨[], path, rfl, Kept.destination_stores before _⟩
  root := rfl
  free := by
    intro q node h
    left
    rcases copied_cases h with ⟨rfl, -⟩ | ⟨rfl, -⟩ | ⟨rfl, -⟩ <;> rfl

/-- The archive of the directory. -/
theorem exists_sent : ∃ sent, SendsArchive Ustar.tar fs ⟨2, 3⟩ entries sent ∧
    sent.result = .ok () ∧ sent.writes.flatten.length ≤ u64Max := by
  have hrun : (Loop.run (Sender.step Ustar.tar fs) 5 (.init ⟨2, 3⟩ entries)).map
      (fun sent => (sent.result.toBool, sent.writes.flatten.length)) = some (true, 3072) := by
    decide +kernel
  obtain ⟨sent, hreturns, hresult⟩ := Loop.Returns.of_run hrun
  obtain ⟨hbool, hlen⟩ := Prod.mk.inj hresult
  refine ⟨sent, hreturns, ?_, ?_⟩
  · cases herr : sent.result with
    | ok => rfl
    | error err =>
      rw [herr] at hbool
      cases hbool
  · rw [hlen]
    decide

end Home

end Hush.FileCopy
