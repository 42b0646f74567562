import Hush.FileCopy.Plan
import Hush.Lib.LossyPath
import Mathlib.Data.List.Forall2

/-! Where a plan puts what it copies, and that the client accepts every plan the server makes. -/
namespace Hush.FileCopy
open Hush.Lib

/-- One source is copied to a new name. -/
def Renames (isDir : Path → Bool) (destination : Path) (entries : List FileCopyEntry) : Prop :=
  entries.length = 1 ∧ destination.getLast? ≠ some Path.slash ∧ isDir destination = false

/-- The directory that `plan_for_destination` extracts a renamed source into. -/
def parentDir (destination : Path) : Path :=
  match destination.parent with
  | some (c :: rest) => c :: rest
  | some [] | none => Path.ofString "."

theorem destinationLooksLikeDir_iff (path : Path) :
    destinationLooksLikeDir path = true ↔ path.getLast? = some Path.slash := by
  rw [destinationLooksLikeDir, beq_iff_eq, Path.getLast?_display]

theorem planForDestination_ok {isDir : Path → Bool} {destination : Path}
    {entries : List FileCopyEntry} {plan : FileCopyPlan}
    (h : planForDestination isDir destination entries = .ok plan) :
    (Renames isDir destination entries ∧ ∃ entry name, entries = [entry] ∧
      destination.fileName = some name ∧
      plan = ⟨(parentDir destination).display, [{ entry with archiveName := Path.display name }]⟩) ∨
    (¬ Renames isDir destination entries ∧ plan = ⟨destination.display, entries⟩) := by
  match entries with
  | [] => cases h
  | [entry] =>
    simp only [planForDestination] at h
    split at h
    · next hdir =>
      refine .inr ⟨?_, (Except.ok.inj h).symm⟩
      rintro ⟨-, hslash, hisDir⟩
      rw [hisDir, Bool.or_false, destinationLooksLikeDir_iff] at hdir
      exact hslash hdir
    · next hdir =>
      rw [Bool.not_eq_true, Bool.or_eq_false_iff] at hdir
      have hslash : destination.getLast? ≠ some Path.slash := by
        rw [Ne, ← destinationLooksLikeDir_iff, hdir.1]
        simp
      split at h
      · cases h
      · next name hname =>
        exact .inl ⟨⟨rfl, hslash, hdir.2⟩, entry, name, rfl, hname, (Except.ok.inj h).symm⟩
  | first :: second :: rest =>
    refine .inr ⟨?_, (Except.ok.inj h).symm⟩
    rintro ⟨hlen, -⟩
    simp at hlen

theorem entryForPath_ok {path : Path} {entry : FileCopyEntry}
    (h : entryForPath path = .ok entry) :
    ∃ name, path.fileName = some name ∧ entry = ⟨path.display, Path.display name⟩ := by
  unfold entryForPath at h
  split at h
  · cases h
  · next name hname => exact ⟨name, hname, (Except.ok.inj h).symm⟩

theorem exists_name {path : Path} {name : List UInt8} (h : path.fileName = some name) :
    ∃ n : FileName, n.bytes = name := by
  apply Path.exists_fileName (p := path)
  unfold Path.fileName at h
  split at h
  · next hlast =>
    cases h
    exact List.mem_filterMap.mpr ⟨_, List.mem_of_getLast? hlast, rfl⟩
  · cases h

/-- The text of a file name is a safe archive name. -/
theorem isSafeName_display {path : Path} {name : List UInt8} (h : path.fileName = some name) :
    isSafeName (Path.display name) = true := by
  obtain ⟨n, rfl⟩ := exists_name h
  exact isSafeName_iff.mpr ⟨_, Path.components_fileName n.text⟩

theorem validateEntries_of_safe {pairs : List (FileCopyEntry × FileCopyEntry)}
    (h : ∀ pair ∈ pairs, pair.1.path = pair.2.path ∧ isSafeName pair.2.archiveName = true) :
    validateEntries pairs = .ok () := by
  induction pairs with
  | nil => rfl
  | cons pair rest ih =>
    obtain ⟨requested, returned⟩ := pair
    obtain ⟨hpath, hname⟩ := h _ List.mem_cons_self
    rw [validateEntries, if_neg (by simpa using hpath), if_neg (by simp [hname])]
    exact ih fun pair hmem => h pair (List.mem_cons_of_mem _ hmem)

/-- A plan that keeps the sources and gives them safe names is accepted. -/
theorem validateUploadPlan_of_forall₂ {requested : List FileCopyEntry} {plan : FileCopyPlan}
    (h : List.Forall₂ (fun requested returned => requested.path = returned.path ∧
      isSafeName returned.archiveName = true) requested plan.entries) :
    validateUploadPlan requested plan = .ok () := by
  rw [validateUploadPlan, if_neg (by simpa using h.length_eq)]
  apply validateEntries_of_safe
  intro pair hmem
  exact List.forall₂_zip h hmem

theorem safe_of_entryForPath {sources : List Path} {entries : List FileCopyEntry}
    (h : List.Forall₂ (fun source entry => entryForPath source = .ok entry) sources entries) :
    ∀ entry ∈ entries, isSafeName entry.archiveName = true := by
  induction h with
  | nil => simp
  | cons hentry _ ih =>
    obtain ⟨name, hname, rfl⟩ := entryForPath_ok hentry
    exact List.forall_mem_cons.mpr ⟨isSafeName_display hname, ih⟩

/-- A renamed source lands on the destination's text. -/
theorem components_renamed {destination : Path} {name : List UInt8}
    (h : destination.fileName = some name) :
    let landed := ((parentDir destination).text.join (Path.text name)).components
    landed = destination.text.components ∨ landed = .curDir :: destination.text.components := by
  intro landed
  obtain ⟨n, rfl⟩ := exists_name h
  obtain ⟨q, hparent, hcomponents⟩ := Path.components_parent h
  have hlanded : landed = ((parentDir destination).components ++
      [Path.Component.normal n.bytes]).map Path.Component.text := by
    rw [List.map_append, ← Path.components_text]
    exact Path.components_join _ n.text
  rw [hlanded, Path.components_text, hcomponents]
  cases q with
  | cons c rest => simp [parentDir, hparent]
  | nil =>
    have hdir : (parentDir destination).components = [.curDir] := by
      rw [show parentDir destination = Path.ofString "." by simp [parentDir, hparent]]
      decide
    rw [hdir]
    exact .inr rfl

/-- The client accepts every plan that the server makes for entries of real paths, and the plan
puts them where the destination's text says. -/
theorem plan_lands (isDir : Path → Bool) (destination : Path) {sources : List Path}
    {entries : List FileCopyEntry} {plan : FileCopyPlan}
    (hentries : List.Forall₂ (fun source entry => entryForPath source = .ok entry) sources entries)
    (hplan : planForDestination isDir destination entries = .ok plan) :
    validateUploadPlan entries plan = .ok () ∧
    (Renames isDir destination entries → ∃ entry, plan.entries = [entry] ∧
      let landed := (Path.join (Path.ofString plan.extractDir)
        (Path.ofString entry.archiveName)).components
      landed = destination.text.components ∨ landed = .curDir :: destination.text.components) ∧
    (¬ Renames isDir destination entries → plan.extractDir = destination.display ∧
      List.Forall₂ (fun source entry => entry.path = source.display ∧
        ∃ name, source.fileName = some name ∧ entry.archiveName = Path.display name)
        sources plan.entries) ∧
    ∀ s, destination = Path.ofString s → destination.text = destination := by
  refine ⟨?_, ?_, ?_, ?_⟩
  · apply validateUploadPlan_of_forall₂
    rcases planForDestination_ok hplan with ⟨-, entry, name, rfl, hname, rfl⟩ | ⟨-, rfl⟩
    · exact .cons ⟨rfl, isSafeName_display hname⟩ .nil
    · rw [List.forall₂_same]
      intro entry hmem
      exact ⟨rfl, safe_of_entryForPath hentries entry hmem⟩
  · intro hrenames
    rcases planForDestination_ok hplan with ⟨-, entry, name, rfl, hname, rfl⟩ | ⟨hnot, -⟩
    · exact ⟨_, rfl, components_renamed hname⟩
    · exact (hnot hrenames).elim
  · intro hnot
    rcases planForDestination_ok hplan with ⟨hrenames, -⟩ | ⟨-, rfl⟩
    · exact (hnot hrenames).elim
    · refine ⟨rfl, hentries.imp fun source entry hentry => ?_⟩
      obtain ⟨name, hname, rfl⟩ := entryForPath_ok hentry
      exact ⟨rfl, name, hname, rfl⟩
  · rintro s rfl
    exact Path.text_ofString s

theorem plan_lands_renamed :
    ∃ plan, planForDestination (fun _ => false) (Path.ofString "dir/dest.txt")
        [⟨"src.txt", "src.txt"⟩] = .ok plan ∧
      validateUploadPlan [⟨"src.txt", "src.txt"⟩] plan = .ok () := by
  have hentries : List.Forall₂ (fun source entry => entryForPath source = .ok entry)
      [Path.ofString "src.txt"] [⟨"src.txt", "src.txt"⟩] := .cons (by decide) .nil
  refine ⟨⟨"dir", [⟨"src.txt", "dest.txt"⟩]⟩, by decide, ?_⟩
  exact (plan_lands (fun _ => false) (Path.ofString "dir/dest.txt") hentries (by decide)).1

/-- A destination that is not UTF-8 lands elsewhere, at a replacement character. -/
theorem plan_lands_elsewhere :
    entryForPath (Path.ofString "a") = .ok ⟨"a", "a"⟩ ∧
    Renames (fun _ => false) [0xFF] [⟨"a", "a"⟩] ∧
    ∃ plan entry, planForDestination (fun _ => false) [0xFF] [⟨"a", "a"⟩] = .ok plan ∧
      plan.entries = [entry] ∧
      let landed := (Path.join (Path.ofString plan.extractDir)
        (Path.ofString entry.archiveName)).components
      landed ≠ Path.components [0xFF] ∧ landed ≠ .curDir :: Path.components [0xFF] := by
  refine ⟨by decide, ⟨rfl, by decide, rfl⟩, ⟨".", [⟨"a", "�"⟩]⟩, ⟨"a", "�"⟩, by decide, rfl, ?_⟩
  decide

end Hush.FileCopy
