import Hush.FileCopy.ReceiveLimit
import Mathlib.Algebra.Order.BigOperators.Group.List
import Mathlib.Algebra.Order.Ring.Nat

/-! What has been unpacked at every point of the extraction, and the order it is unpacked in. -/
namespace Hush.FileCopy
open Hush.Lib

section Handed

variable {d : Destination} {root destination : Path} {limits : FileCopyLimits}
  {s s' : Unpacking} {out out' : Unpacked} {item : Item} {items charged : List Item}
  {archive : List Item × Option String}

/-- The entries charged so far are those unpacked and those put off. -/
structure Unpacking.Charged (limits : FileCopyLimits) (charged : List Item) (s : Unpacking) :
    Prop where
  spent : s.budget.Spent limits (charged.map (·.size))
  allows : limits.Allows (charged.map (·.size))
  perm : (s.out.entries ++ s.directories).Perm charged

theorem Unpacking.charged_init (limits : FileCopyLimits) (created : List Path) :
    Unpacking.Charged limits [] ⟨.new limits, [], [], created⟩ :=
  ⟨CopyBudget.spent_new, allows_nil, .refl _⟩

/-- An entry is charged before anything is done with it. -/
theorem Unpacking.Charged.entry (h : s.Charged limits charged) (d : Destination) (root : Path)
    (item : Item) :
    (∃ err, d.entry root s item = (s, some (.budget err))) ∨
      (d.entry root s item).1.Charged limits (charged ++ [item]) := by
  have hsizes : (charged ++ [item]).map (·.size) = charged.map (·.size) ++ [item.size] := by simp
  by_cases hallows : limits.Allows (charged.map (·.size) ++ [item.size])
  · obtain ⟨budget, hbudget, hentry⟩ := entry_of_allows d root h.spent hallows
    rw [← hsizes] at hbudget hallows
    rw [hentry]
    refine Or.inr ?_
    split
    · refine ⟨hbudget, hallows, ?_⟩
      rw [← List.append_assoc]
      exact h.perm.append_right [item]
    · refine ⟨hbudget, hallows, ?_⟩
      have hswap : (s.out.entries ++ [item] ++ s.directories).Perm
          (s.out.entries ++ s.directories ++ [item]) := by
        rw [List.append_assoc, List.append_assoc]
        exact List.perm_append_comm.append_left _
      exact hswap.trans (h.perm.append_right [item])
  · exact Or.inl (entry_of_not_allows d root h.spent hallows)

/-- The loop charges a beginning of the archive, also if it fails. -/
theorem Unpacking.Charged.entries (h : s.Charged limits charged) (d : Destination) (root : Path)
    (items : List Item) :
    ∃ front, front <+: items ∧
      (tryEach (d.entry root) s items).1.Charged limits (charged ++ front) := by
  refine tryEach_front (P := fun (s : Unpacking) charged => s.Charged limits charged) items h ?_
  intro s charged item hs
  rcases hs.entry d root item with ⟨err, hentry⟩ | hcharged
  · rw [hentry]
    exact Or.inr ⟨nofun, hs⟩
  · exact Or.inl hcharged

/-- The loop over the directories hands on a beginning of them. -/
theorem unpackEach_handed (d : Destination) (root : Path) (out : Unpacked) (items : List Item) :
    ∃ front, front <+: items ∧
      (tryEach (d.unpack root) out items).1.entries = out.entries ++ front := by
  refine tryEach_front (P := fun (u : Unpacked) handed => u.entries = out.entries ++ handed) items
    (List.append_nil _).symm ?_
  intro u handed item hu
  have hentries : (d.unpack root u item).1.entries = u.entries ++ [item] := rfl
  rw [hentries, hu, List.append_assoc]
  exact Or.inl rfl

/-- What has been unpacked, however the extraction ends, is among entries that were charged. -/
theorem unpackArchiveLimited_charged (d : Destination) (archive : List Item × Option String)
    (destination : Path) (limits : FileCopyLimits) :
    ∃ charged, charged <+: archive.1 ∧ limits.Allows (charged.map (·.size)) ∧
      List.Subperm (unpackArchiveLimited d archive destination limits).out.entries charged := by
  unfold unpackArchiveLimited
  split
  · exact ⟨[], List.nil_prefix, allows_nil, List.nil_subperm⟩
  · next created root _ =>
    obtain ⟨charged, hfront, hcharged⟩ :=
      (Unpacking.charged_init limits created).entries d root archive.1
    rw [List.nil_append] at hcharged
    -- At the end of the loop the files are unpacked, and the directories still to come.
    have hloop : List.Subperm (tryEach (d.entry root) ⟨.new limits, [], [], created⟩
        archive.1).1.out.entries charged :=
      (List.sublist_append_left _ _).subperm.trans hcharged.perm.subperm
    refine ⟨charged, hfront, hcharged.allows, ?_⟩
    split
    · next hs =>
      rw [hs] at hloop
      exact hloop
    · next s hs =>
      rw [hs] at hloop hcharged
      split
      · exact hloop
      · exact hloop
      · obtain ⟨front, hsorted, hentries⟩ :=
          unpackEach_handed d root s.out (sortDirectories s.directories)
        have hdirs : List.Subperm (s.out.entries ++ front) charged := by
          refine List.Subperm.trans ?_ hcharged.perm.subperm
          have hperm := List.mergeSort_perm s.directories
            (fun a b => decide (b.member.path ≤ a.member.path))
          exact (List.subperm_append_left _).mpr
            (hsorted.sublist.subperm.trans hperm.subperm)
        split
        · next hout =>
          rw [hout] at hentries
          rw [hentries]
          exact hdirs
        · next hout =>
          rw [hout] at hentries
          rw [hentries]
          exact hdirs

theorem sum_le_of_subperm {l l' : List Item} (h : List.Subperm l l') :
    (l.map (·.size)).sum ≤ (l'.map (·.size)).sum := by
  obtain ⟨m, hperm, hsub⟩ := h
  rw [← (hperm.map (·.size)).sum_eq]
  exact (hsub.map _).sum_le_sum fun _ _ => Nat.zero_le _

/-- The limits count, where the counters do not saturate. -/
theorem le_of_allows (hbytes : limits.maxBytes.toNat < u64Max)
    (hentries : limits.maxEntries.toNat < u64Max ∨ items.length ≤ u64Max)
    (hfront : charged <+: items) (h : limits.Allows (charged.map (·.size))) :
    charged.length ≤ limits.maxEntries.toNat ∧
      (charged.map (·.size)).sum ≤ limits.maxBytes.toNat := by
  have hlen := hfront.length_le
  simp only [FileCopyLimits.Allows, List.length_map] at h
  omega

/-- At every point the entries handed on are within the limits. -/
theorem handed_le (hbytes : limits.maxBytes.toNat < u64Max)
    (hentries : limits.maxEntries.toNat < u64Max ∨ archive.1.length ≤ u64Max)
    {handed : List Item}
    (h : handed <+: (unpackArchiveLimited d archive destination limits).out.entries) :
    handed.length ≤ limits.maxEntries.toNat ∧
      (handed.map (·.size)).sum ≤ limits.maxBytes.toNat := by
  obtain ⟨charged, hfront, hallows, hsub⟩ :=
    unpackArchiveLimited_charged d archive destination limits
  obtain ⟨hlen, hsum⟩ := le_of_allows hbytes hentries hfront hallows
  have hhanded := h.sublist.subperm.trans hsub
  exact ⟨hhanded.length_le.trans hlen, (sum_le_of_subperm hhanded).trans hsum⟩

/-- Within the limits it is not for the limits that the extraction fails. -/
theorem ne_budget_of_allows (hallows : limits.Allows (archive.1.map (·.size))) (e : String) :
    (unpackArchiveLimited d archive destination limits).result ≠ .error (.budget e) := by
  obtain ⟨items, last⟩ := archive
  cases last with
  | none =>
    rw [unpackArchiveLimited_of_allows hallows]
    intro h
    obtain ⟨e', he'⟩ := unpackAll_err h
    cases he'
  | some err =>
    unfold unpackArchiveLimited
    split
    · next hprepare =>
      intro h
      cases h
      obtain ⟨e', he'⟩ := prepare_err hprepare
      cases he'
    · next created root _ =>
      obtain ⟨budget, dirs, hloop, -⟩ := entries_of_allows d root items
        (s := ⟨.new limits, [], [], created⟩) CopyBudget.spent_new hallows
      rw [hloop]
      cases hfiles : tryEach (d.unpack root) ⟨[], created⟩ (files items) with
      | mk out fault =>
      cases fault with
      | none => nofun
      | some fault =>
        intro h
        cases h
        obtain ⟨e', he'⟩ := unpackEach_err hfiles
        cases he'

end Handed

/-! The order. -/

/-- The relative path of these names, with a slash after it or without. -/
def NamesPath (names : List FileName) (p : Path) : Prop :=
  p = [Path.slash].intercalate (names.map (·.bytes)) ∨
    p = [Path.slash].intercalate (names.map (·.bytes)) ++ [Path.slash]

/-- Both are directories with relative normalized paths, the one strictly below the other. -/
def Below (item dir : Item) : Prop :=
  item.member.type = .directory ∧ dir.member.type = .directory ∧
    ∃ names more : List FileName, names ≠ [] ∧ more ≠ [] ∧
      NamesPath names dir.member.path ∧ NamesPath (names ++ more) item.member.path

theorem intercalate_append {sep : Path} {l m : List Path} (hl : l ≠ []) (hm : m ≠ []) :
    sep.intercalate (l ++ m) = sep.intercalate l ++ sep ++ sep.intercalate m := by
  induction l with
  | nil => exact absurd rfl hl
  | cons x l ih =>
    cases l with
    | nil =>
      obtain ⟨y, m, rfl⟩ := List.exists_cons_of_ne_nil hm
      simp [List.intercalate]
    | cons y l =>
      have := ih (List.cons_ne_nil _ _)
      simp_all [List.intercalate]

theorem sorted_sortDirectories (items : List Item) :
    (sortDirectories items).Pairwise fun a b => b.member.path ≤ a.member.path := by
  have hsorted : (sortDirectories items).Pairwise fun a b =>
      decide (b.member.path ≤ a.member.path) = true := by
    refine List.pairwise_mergeSort (fun a b c hab hbc => ?_) (fun a b => ?_) items
    · simp only [decide_eq_true_eq] at *
      exact List.le_trans hbc hab
    · simp only [Bool.or_eq_true, decide_eq_true_eq]
      exact List.le_total _ _
  simp only [decide_eq_true_eq] at hsorted
  exact hsorted

theorem intercalate_ne_nil {names : List FileName} (h : names ≠ []) :
    [Path.slash].intercalate (names.map (·.bytes)) ≠ [] := by
  obtain ⟨name, rest, rfl⟩ := List.exists_cons_of_ne_nil h
  cases rest with
  | nil => simpa [List.intercalate] using name.ne_nil
  | cons next rest => simp [List.intercalate]

/-- The bytes of the directory's path are a beginning of those of what is below it. -/
theorem Below.path_eq {item dir : Item} (h : Below item dir) :
    ∃ rest, rest ≠ [] ∧ item.member.path = dir.member.path ++ rest := by
  obtain ⟨-, -, names, more, hnames, hmore, hdir, hitem⟩ := h
  have hjoin : [Path.slash].intercalate ((names ++ more).map (·.bytes)) =
      [Path.slash].intercalate (names.map (·.bytes)) ++ [Path.slash] ++
        [Path.slash].intercalate (more.map (·.bytes)) := by
    rw [List.map_append]
    exact intercalate_append (by simpa using hnames) (by simpa using hmore)
  have hne := intercalate_ne_nil hmore
  rw [NamesPath, hjoin] at hitem
  rcases hdir with hdir | hdir <;> rcases hitem with hitem | hitem <;> rw [hdir, hitem]
  · exact ⟨_, List.cons_ne_nil _ _, List.append_assoc _ _ _⟩
  · exact ⟨_, List.cons_ne_nil _ _, by rw [List.append_assoc, List.append_assoc]; rfl⟩
  · exact ⟨_, hne, rfl⟩
  · exact ⟨_, by simp, List.append_assoc _ _ _⟩

/-- What is below a directory does not come after it in the order of the paths. -/
theorem Below.not_le {item dir : Item} (h : Below item dir) :
    ¬ item.member.path ≤ dir.member.path := by
  intro hle
  obtain ⟨rest, hrest, hpath⟩ := h.path_eq
  have hge : dir.member.path ≤ item.member.path := by
    rw [hpath]
    exact List.le_append_left
  have heq := congrArg List.length (List.le_antisymm hle hge)
  rw [hpath, List.length_append] at heq
  exact hrest (List.eq_nil_of_length_eq_zero (by omega))

/-- No directory comes after one that contains it. -/
theorem pairwise_files_sortDirectories (items : List Item) :
    (files items ++ sortDirectories (directories items)).Pairwise
      fun earlier later => ¬ Below later earlier := by
  have hfile : ∀ item ∈ files items, item.member.type ≠ .directory := by
    intro item hitem
    simpa using (List.mem_filter.mp hitem).2
  refine List.pairwise_append.mpr ⟨?_, ?_, fun file hmem _ _ h => hfile file hmem h.2.1⟩
  · exact List.pairwise_of_forall_mem_list fun file hmem _ _ h => hfile file hmem h.2.1
  · exact (sorted_sortDirectories (directories items)).imp fun hle h => h.not_le hle

/-- What has been handed on at any point is a beginning of what has been at the end, and within
the limits. Without an error the files come first, and then the directories from the deepest. -/
theorem extraction_in_budget_children_first (d : Destination)
    (archive : List Item × Option String) (destination : Path) (limits : FileCopyLimits)
    (hbytes : limits.maxBytes.toNat < u64Max)
    (hentries : limits.maxEntries.toNat < u64Max ∨ archive.1.length ≤ u64Max) :
    let received := unpackArchiveLimited d archive destination limits
    (∀ handed, handed <+: received.out.entries →
      handed.length ≤ limits.maxEntries.toNat ∧
        (handed.map (·.size)).sum ≤ limits.maxBytes.toNat) ∧
    (archive.1.length ≤ limits.maxEntries.toNat →
      (archive.1.map (·.size)).sum ≤ limits.maxBytes.toNat →
      (∀ err, received.result = .error err → ∃ e, err = .budget e) →
      received.result = .ok () ∧ received.out.entries.Perm archive.1 ∧
        received.out.entries = files archive.1 ++ sortDirectories (directories archive.1) ∧
        received.out.entries.Pairwise fun earlier later => ¬ Below later earlier) := by
  intro received
  refine ⟨fun handed h => handed_le hbytes hentries h, fun hlen hsum hfails => ?_⟩
  have hallows : limits.Allows (archive.1.map (·.size)) := by
    rw [FileCopyLimits.Allows, List.length_map]
    exact ⟨Or.inl hlen, Or.inl hsum⟩
  have hok : received.result = .ok () := by
    cases hresult : received.result with
    | ok => rfl
    | error err =>
      obtain ⟨e, rfl⟩ := hfails err hresult
      exact absurd hresult (ne_budget_of_allows hallows e)
  have hout : received.out.entries =
      files archive.1 ++ sortDirectories (directories archive.1) :=
    unpackArchiveLimited_entries_eq hok
  rw [hout]
  exact ⟨hok, files_directories_perm, rfl, pairwise_files_sortDirectories archive.1⟩

/-- A directory, a file in it and a directory in it. -/
def nested : List Item :=
  [.whole (.directory (.ofString "a/")), .whole ⟨.ofString "a/f", .regular, [1, 2, 3], []⟩,
    .whole (.directory (.ofString "a/b"))]

def smallLimits : FileCopyLimits := ⟨3, 3⟩

theorem extraction_of_nested :
    smallLimits.maxBytes.toNat < u64Max ∧ smallLimits.maxEntries.toNat < u64Max ∧
    (unpackArchiveLimited .willing (nested, none) [] smallLimits).result = .ok () ∧
    (unpackArchiveLimited .willing (nested, none) [] smallLimits).out.entries.Pairwise
      fun earlier later => ¬ Below later earlier := by
  have hallows : smallLimits.Allows (nested.map (·.size)) := by decide
  have hok : (unpackArchiveLimited .willing (nested, none) [] smallLimits).result = .ok () := by
    rw [unpackArchiveLimited_of_allows hallows]
    refine unpackAll_willing [] fun item hitem _ => ?_
    simp only [nested, List.mem_cons, List.not_mem_nil, or_false] at hitem
    rcases hitem with rfl | rfl | rfl <;> rfl
  have hmain := (extraction_in_budget_children_first .willing (nested, none) [] smallLimits
    (by decide) (Or.inl (by decide))).2 (by decide) (by decide) (by simp [hok])
  exact ⟨by decide, by decide, hmain.1, hmain.2.2.2⟩

def emptyFile : Item := .whole ⟨.ofString "f", .regular, [], []⟩

def greatestEntries : FileCopyLimits := ⟨1, .ofNat u64Max⟩

/-- Any number of empty files is unpacked under the greatest limit. -/
theorem unpack_emptyFiles (n : Nat) :
    (unpackArchiveLimited .willing (List.replicate n emptyFile, none) []
      greatestEntries).out.entries.length = n := by
  have hallows : greatestEntries.Allows ((List.replicate n emptyFile).map (·.size)) := by
    refine ⟨Or.inr (by decide), Or.inl ?_⟩
    simp [emptyFile, Item.whole]
  have hok : (Destination.willing.unpackAll [] (List.replicate n emptyFile)).result = .ok () := by
    refine unpackAll_willing [] fun item hitem _ => ?_
    rw [List.eq_of_mem_replicate hitem]
    rfl
  rw [unpackArchiveLimited_of_allows hallows, (unpackAll_entries hok).length_eq,
    List.length_replicate]

/-- The counter of the entries stays at its greatest value, which is not over the limit: of 2⁶⁴
entries all are handed on. -/
theorem extraction_entries_saturate :
    greatestEntries.maxBytes.toNat < u64Max ∧
    greatestEntries.maxEntries.toNat <
      (unpackArchiveLimited .willing (List.replicate (u64Max + 1) emptyFile, none) []
        greatestEntries).out.entries.length := by
  refine ⟨by decide, ?_⟩
  rw [unpack_emptyFiles]
  decide

end Hush.FileCopy
