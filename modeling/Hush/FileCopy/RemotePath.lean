import Hush.FileCopy.Landing
import Hush.FileCopy.Server

/-! Where a path that the client gives leads on the server. -/
namespace Hush.FileCopy
open Hush.Lib

/-- The path without a leading `~` or `~/`; a `~name` stays. -/
def underHome (path : List Char) : List Char :=
  match path with
  | ['~'] => []
  | '~' :: '/' :: rest => rest
  | _ => path

/-- The components of a relative path, without the dots that stand for nothing. -/
def bodyComponents (path : List Char) : List Path.Component :=
  (Path.segments (Utf8.encode path)).filterMap Path.component

/-- What resolving a path is to do. -/
structure ResolvesUnderHome (p : Process) (user path : String) : Prop where
  absolute : path.toList.head? = some '/' → p.resolveRemotePath user path = Path.ofString path
  relative : path.toList.head? ≠ some '/' →
    (p.resolveRemotePath user path).components =
      (p.homeDirForUser user).components ++ bodyComponents (underHome path.toList)
  looksLikeDir : destinationLooksLikeDir (p.resolveRemotePath user path) = true ↔
    path = "" ∨ path = "~" ∨ path.toList.getLast? = some '/'
  slashes : ∀ before after, path.toList = before ++ '/' :: '/' :: after →
    (p.resolveRemotePath user path).components =
      (p.resolveRemotePath user (String.ofList (before ++ '/' :: after))).components

theorem underHome_of_ne {path : List Char} (htilde : path ≠ ['~'])
    (hhome : ∀ rest, path ≠ '~' :: '/' :: rest) : underHome path = path := by
  unfold underHome
  split
  · contradiction
  · exact absurd rfl (hhome _)
  · rfl

/-- The home directory is joined with what is under it. -/
theorem resolveRemotePath_relative {p : Process} {user path : String}
    (h : path.toList.head? ≠ some '/') :
    p.resolveRemotePath user path =
      (p.homeDirForUser user).join (Utf8.encode (underHome path.toList)) := by
  unfold Process.resolveRemotePath
  split
  · next heq => simp [heq] at h
  · next heq => rw [heq]; rfl
  · next heq => rw [heq]; rfl
  · next htilde hhome => rw [underHome_of_ne htilde hhome]; rfl

theorem resolveRemotePath_absolute {p : Process} {user path : String}
    (h : path.toList.head? = some '/') :
    p.resolveRemotePath user path = Path.ofString path := by
  obtain ⟨rest, hpath⟩ : ∃ rest, path.toList = '/' :: rest := by
    cases hl : path.toList <;> simp_all
  rw [Process.resolveRemotePath, hpath]
  rfl

theorem encode_slash_cons (cs : List Char) :
    Utf8.encode ('/' :: cs) = Path.slash :: Utf8.encode cs := rfl

theorem isAbsolute_encode (cs : List Char) :
    Path.isAbsolute (Utf8.encode cs) = true ↔ cs.head? = some '/' := by
  cases cs with
  | nil => simp [Utf8.encode, Path.isAbsolute]
  | cons c rest =>
    rw [List.head?_cons, Option.some.injEq]
    refine ⟨fun h => ?_, fun h => by rw [h]; rfl⟩
    have hhead : (String.utf8EncodeChar c).head? = some Path.slash := by
      have hne : String.utf8EncodeChar c ≠ [] := by simp
      rw [Utf8.encode, List.flatMap_cons, Path.isAbsolute, List.head?_append_of_ne_nil _ hne] at h
      exact beq_iff_eq.mp h
    have hmem : UInt8.ofNat '/'.val.toNat ∈ Utf8.encode [c] := by
      rw [Utf8.encode, List.flatMap_singleton]
      exact List.mem_of_mem_head? hhead
    exact (List.mem_singleton.mp ((Utf8.mem_encode_ascii (by decide)).mp hmem)).symm

theorem getLast?_encode (cs : List Char) :
    (Utf8.encode cs).getLast? = some Path.slash ↔ cs.getLast? = some '/' := by
  rw [← Path.getLast?_display, Path.display, Utf8.lossy_encode, String.toList_ofList]

theorem components_absolute {cs : List Char} (h : cs.head? = some '/') :
    Path.components (Utf8.encode cs) = .rootDir :: bodyComponents cs := by
  rw [Path.components, Path.start, if_pos ((isAbsolute_encode cs).mpr h)]
  rfl

/-- One slash more makes no component more. -/
theorem bodyComponents_slashes (before after : List Char) :
    bodyComponents (before ++ '/' :: '/' :: after) = bodyComponents (before ++ '/' :: after) := by
  simp [bodyComponents, Utf8.encode_append, encode_slash_cons, Path.segments_append, Path.segments,
    Path.component]

theorem bodyComponents_slash_cons (cs : List Char) :
    bodyComponents ('/' :: cs) = bodyComponents cs := by
  simp [bodyComponents, encode_slash_cons, Path.segments, Path.component]

theorem bodyComponents_underHome_slashes (before after : List Char) :
    bodyComponents (underHome (before ++ '/' :: '/' :: after)) =
      bodyComponents (underHome (before ++ '/' :: after)) := by
  by_cases htilde : before = ['~']
  · subst htilde
    exact bodyComponents_slash_cons after
  by_cases hhome : ∃ rest, before = '~' :: '/' :: rest
  · obtain ⟨rest, rfl⟩ := hhome
    exact bodyComponents_slashes rest after
  · have hne (tail : List Char) : underHome (before ++ '/' :: tail) = before ++ '/' :: tail := by
      rcases before with _ | ⟨a, _ | ⟨b, rest⟩⟩ <;> apply underHome_of_ne <;> simp_all
    rw [hne, hne, bodyComponents_slashes]

theorem getLast?_join {home : Path} (hhome : home ≠ []) (q : Path) :
    (home.join q).getLast? = some Path.slash ↔ q = [] ∨ q.getLast? = some Path.slash := by
  obtain ⟨last, hlast⟩ : ∃ last, home.getLast? = some last :=
    ⟨_, List.getLast?_eq_some_getLast hhome⟩
  rcases List.eq_nil_or_concat q with rfl | ⟨front, c, rfl⟩
  · by_cases hslash : last = Path.slash <;> simp [Path.join, Path.isAbsolute, hlast, hslash]
  · rw [Path.join]
    split
    · simp
    · split <;> simp [List.getLast?_append, List.getLast?_cons]

theorem underHome_looksLikeDir (path : List Char) :
    underHome path = [] ∨ (underHome path).getLast? = some '/' ↔
      path = [] ∨ path = ['~'] ∨ path.getLast? = some '/' := by
  by_cases htilde : path = ['~']
  · simp [htilde, underHome]
  by_cases hhome : ∃ rest, path = '~' :: '/' :: rest
  · obtain ⟨rest, rfl⟩ := hhome
    rcases List.eq_nil_or_concat rest with rfl | ⟨front, c, rfl⟩ <;>
      simp [underHome, List.getLast?_cons]
  · rw [underHome_of_ne htilde fun rest h => hhome ⟨rest, h⟩]
    simp [htilde]

theorem tilde_prefix_slashes {before after : List Char}
    (h : ['~', '/', '/'] <+: before ++ '/' :: after) :
    ['~', '/', '/'] <+: before ++ '/' :: '/' :: after := by
  rcases before with _ | ⟨a, _ | ⟨b, _ | ⟨c, rest⟩⟩⟩ <;>
    simp only [List.nil_append, List.cons_append, List.cons_prefix_cons] at h ⊢
  · exact absurd h.1 (by decide)
  · exact ⟨h.1, trivial, trivial, List.nil_prefix⟩
  · exact ⟨h.1, h.2.1, trivial, List.nil_prefix⟩
  · exact ⟨h.1, h.2.1, h.2.2.1, List.nil_prefix⟩

section Resolve
variable {p : Process} {user path : String} (habs : (p.homeDirForUser user).isAbsolute = true)

theorem head?_underHome (h : path.toList.head? ≠ some '/') :
    (underHome path.toList).head? = some '/' ↔ ['~', '/', '/'] <+: path.toList := by
  generalize path.toList = path at h
  by_cases htilde : path = ['~']
  · simp [htilde, underHome]
  by_cases hhome : ∃ rest, path = '~' :: '/' :: rest
  · obtain ⟨rest, rfl⟩ := hhome
    cases rest <;> simp [underHome, eq_comm]
  · rw [underHome_of_ne htilde fun rest heq => hhome ⟨rest, heq⟩]
    refine ⟨fun he => absurd he h, ?_⟩
    rintro ⟨rest, rfl⟩
    exact absurd ⟨_, rfl⟩ hhome

include habs

theorem components_resolveRemotePath (h : path.toList.head? ≠ some '/') :
    (p.resolveRemotePath user path).components =
      (if ['~', '/', '/'] <+: path.toList then [.rootDir]
        else (p.homeDirForUser user).components) ++ bodyComponents (underHome path.toList) := by
  rw [resolveRemotePath_relative h]
  split
  · next hprefix =>
    have hhead := (head?_underHome h).mpr hprefix
    rw [Path.join, if_pos ((isAbsolute_encode _).mpr hhead), components_absolute hhead]
    rfl
  · next hprefix =>
    rw [← head?_underHome h, ← isAbsolute_encode, Bool.not_eq_true] at hprefix
    exact Path.components_join_relative (Path.ne_nil_of_isAbsolute habs) hprefix

theorem components_resolveRemotePath_home (h : path.toList.head? ≠ some '/')
    (hok : ¬ ['~', '/', '/'] <+: path.toList ∨
      (p.homeDirForUser user).components = [.rootDir]) :
    (p.resolveRemotePath user path).components =
      (p.homeDirForUser user).components ++ bodyComponents (underHome path.toList) := by
  rw [components_resolveRemotePath habs h]
  split
  · next hprefix => rw [hok.resolve_left (not_not_intro hprefix)]
  · rfl

/-- Whatever the path is, the result ends in a slash where the path or nothing does. -/
theorem looksLikeDir_resolveRemotePath :
    destinationLooksLikeDir (p.resolveRemotePath user path) = true ↔
      path = "" ∨ path = "~" ∨ path.toList.getLast? = some '/' := by
  have hempty : path = "" ↔ path.toList = [] := by simp
  have htilde : path = "~" ↔ path.toList = ['~'] := by rw [← String.toList_inj]; rfl
  rw [destinationLooksLikeDir_iff, hempty, htilde]
  by_cases hroot : path.toList.head? = some '/'
  · rw [resolveRemotePath_absolute hroot, Path.ofString, getLast?_encode]
    cases hpath : path.toList <;> simp_all
  · have hnil : Utf8.encode (underHome path.toList) = [] ↔ underHome path.toList = [] := by
      cases underHome path.toList <;> simp [Utf8.encode]
    rw [resolveRemotePath_relative hroot, getLast?_join (Path.ne_nil_of_isAbsolute habs),
      getLast?_encode, hnil, underHome_looksLikeDir]

theorem components_resolveRemotePath_slashes {before after : List Char}
    (hpath : path.toList = before ++ '/' :: '/' :: after)
    (hok : ¬ ['~', '/', '/'] <+: path.toList ∨
      (p.homeDirForUser user).components = [.rootDir]) :
    (p.resolveRemotePath user path).components =
      (p.resolveRemotePath user (String.ofList (before ++ '/' :: after))).components := by
  have hlist : (String.ofList (before ++ '/' :: after)).toList = before ++ '/' :: after :=
    String.toList_ofList
  have hhead : (before ++ '/' :: after).head? = path.toList.head? := by
    rw [hpath]
    cases before <;> rfl
  by_cases hroot : path.toList.head? = some '/'
  · rw [resolveRemotePath_absolute hroot, resolveRemotePath_absolute (by rw [hlist, hhead, hroot]),
      Path.ofString, Path.ofString, components_absolute hroot,
      components_absolute (by rw [hlist, hhead, hroot]), hlist, hpath, bodyComponents_slashes]
  · have hok' : ¬ ['~', '/', '/'] <+: (String.ofList (before ++ '/' :: after)).toList ∨
        (p.homeDirForUser user).components = [.rootDir] := by
      rw [hlist]
      exact hok.imp_left (mt fun hprefix => hpath ▸ tilde_prefix_slashes hprefix)
    rw [components_resolveRemotePath_home habs hroot hok,
      components_resolveRemotePath_home habs (by rwa [hlist, hhead]) hok', hlist, hpath,
      bodyComponents_underHome_slashes]

/-- A path resolves as it should if and only if it does not start with `~//`, or the home
directory is the root: after `~/`, a second slash makes the rest absolute. -/
theorem remote_path_resolves_iff :
    ResolvesUnderHome p user path ↔
      ¬ ['~', '/', '/'] <+: path.toList ∨ (p.homeDirForUser user).components = [.rootDir] := by
  constructor
  · intro h
    by_cases hprefix : ['~', '/', '/'] <+: path.toList
    · have hhead : path.toList.head? ≠ some '/' := by
        obtain ⟨rest, hrest⟩ := hprefix
        simp [← hrest]
      have heq := h.relative hhead
      rw [components_resolveRemotePath habs hhead, if_pos hprefix,
        List.append_cancel_right_eq] at heq
      exact .inr heq.symm
    · exact .inl hprefix
  · intro hok
    exact {
      absolute := resolveRemotePath_absolute
      relative := fun h => components_resolveRemotePath_home habs h hok
      looksLikeDir := looksLikeDir_resolveRemotePath habs
      slashes := fun _ _ hpath => components_resolveRemotePath_slashes habs hpath hok }

end Resolve

theorem remote_path_under_alice :
    ResolvesUnderHome Unanswered.alice "alice" "~/a//b" :=
  (remote_path_resolves_iff (by decide)).mpr (.inl (by decide))

theorem remote_path_out_of_home :
    (Unanswered.alice.homeDirForUser "alice").isAbsolute = true ∧
      Unanswered.alice.resolveRemotePath "alice" "~/etc/x" = Path.ofString "/home/alice/etc/x" ∧
      Unanswered.alice.resolveRemotePath "alice" "~//etc/x" = Path.ofString "/etc/x" ∧
      ¬ ResolvesUnderHome Unanswered.alice "alice" "~//etc/x" := by
  refine ⟨by decide, by decide, by decide, fun h => ?_⟩
  exact absurd (h.relative (by decide)) (by decide)

end Hush.FileCopy
