import Hush.Lib.Utf8
import Mathlib.Data.List.DropRight

/-! Paths as bytes, with `std::path` on Unix. -/
namespace Hush.Lib

/-- `Path`: any bytes, separated by slashes. -/
abbrev Path := List UInt8

namespace Path

def slash : UInt8 := 0x2F

def dot : UInt8 := 0x2E

def ofString (s : String) : Path := Utf8.encode s.toList

/-- `Path::display` and `Path::to_string_lossy`. -/
def display (p : Path) : String := String.ofList (Utf8.lossy p)

/-- `Path::is_absolute`. -/
def isAbsolute (p : Path) : Bool := p.head? == some slash

/-- `Path::join`: an absolute path replaces the one before it. -/
def join (p q : Path) : Path :=
  if isAbsolute q then q
  else if p.getLast?.isSome && p.getLast? != some slash then p ++ slash :: q
  else p ++ q

inductive Component
  | rootDir
  | curDir
  | parentDir
  | normal (name : List UInt8)
  deriving DecidableEq, Repr

/-- The pieces between the slashes. -/
def segments : Path → List (List UInt8)
  | [] => [[]]
  | c :: rest =>
    if c = slash then [] :: segments rest
    else match segments rest with
      | [] => [[c]]
      | segment :: others => (c :: segment) :: others

/-- Empty and `.` pieces are no components. -/
def component (segment : List UInt8) : Option Component :=
  if segment = [] ∨ segment = [dot] then none
  else if segment = [dot, dot] then some .parentDir
  else some (.normal segment)

/-- The component before the body: the root, or a leading `.`. -/
def start (p : Path) : List Component :=
  if isAbsolute p then [.rootDir]
  else if (segments p).head? = some [dot] then [.curDir]
  else []

/-- `Path::components`. -/
def components (p : Path) : List Component := start p ++ (segments p).filterMap component

/-- `Path::file_name`. -/
def fileName (p : Path) : Option (List UInt8) :=
  match (components p).getLast? with
  | some (.normal name) => some name
  | _ => none

/-- The pieces up to the last one that is a component. -/
def trimSegments (segments : List (List UInt8)) : List (List UInt8) :=
  (segments.reverse.dropWhile fun segment => (component segment).isNone).reverse

/-- `Path::parent`: the path up to the component before the last. -/
def parent (p : Path) : Option Path :=
  match (components p).getLast? with
  | none | some .rootDir => none
  | some .curDir => some []
  | some _ =>
    let body := (segments (p.drop (start p).length))
    some (p.take (start p).length ++
      [slash].intercalate (trimSegments (trimSegments body).dropLast))

example : parent (ofString "/a//b/./") = some (ofString "/a") := by decide

example : parent (ofString "./b") = some (ofString ".") := by decide

/-- The names of a path, without the root and dots. -/
def names (p : Path) : List (List UInt8) :=
  p.components.filterMap fun
    | .normal name => some name
    | _ => none

end Path

/-- A name in a directory. -/
structure FileName where
  bytes : List UInt8
  ne_nil : bytes ≠ []
  no_slash : Path.slash ∉ bytes
  ne_dot : bytes ≠ [Path.dot]
  ne_dotdot : bytes ≠ [Path.dot, Path.dot]

namespace Path

theorem segments_ne_nil (p : Path) : segments p ≠ [] := by
  cases p with
  | nil => simp [segments]
  | cons c rest =>
    simp only [segments]
    split
    · simp
    · split <;> simp

theorem segments_append (p q : Path) :
    segments (p ++ slash :: q) = segments p ++ segments q := by
  induction p with
  | nil => simp [segments]
  | cons c rest ih =>
    by_cases hc : c = slash
    · simp [segments, hc, ih]
    · cases hs : segments rest with
      | nil => exact (segments_ne_nil rest hs).elim
      | cons segment others => simp [segments, hc, ih, hs]

theorem segments_of_notMem {p : Path} (h : slash ∉ p) : segments p = [p] := by
  induction p with
  | nil => rfl
  | cons c rest ih =>
    have hc : c ≠ slash := fun he => h (by simp [he])
    have hrest : slash ∉ rest := fun hm => h (List.mem_cons_of_mem _ hm)
    simp [segments, hc, ih hrest]

theorem slash_notMem_of_mem_segments {p : Path} {segment : List UInt8}
    (h : segment ∈ segments p) : slash ∉ segment := by
  induction p generalizing segment with
  | nil =>
    rw [List.mem_singleton.mp h]
    nofun
  | cons c rest ih =>
    by_cases hc : c = slash
    · simp only [segments, hc, if_true, List.mem_cons] at h
      rcases h with rfl | h
      · nofun
      · exact ih h
    · cases hs : segments rest with
      | nil => exact (segments_ne_nil rest hs).elim
      | cons first others =>
        simp only [segments, hc, if_false, hs, List.mem_cons] at h
        rcases h with rfl | h
        · intro hm
          rcases List.mem_cons.mp hm with he | hm
          · exact hc he.symm
          · exact ih (by simp [hs]) hm
        · exact ih (by simp [hs, h])

/-- The names of a path are names that a directory can have. -/
theorem exists_fileName {p : Path} {name : List UInt8} (h : name ∈ p.names) :
    ∃ n : FileName, n.bytes = name := by
  obtain ⟨c, hc, hname⟩ := List.mem_filterMap.mp h
  cases c with
  | rootDir => cases hname
  | curDir => cases hname
  | parentDir => cases hname
  | normal c =>
    obtain rfl := Option.some.inj hname
    have hmem : .normal c ∈ (segments p).filterMap component := by
      rcases List.mem_append.mp hc with hstart | hbody
      · unfold start at hstart
        split at hstart
        · simp at hstart
        · split at hstart <;> simp at hstart
      · exact hbody
    obtain ⟨segment, hsegment, hcomponent⟩ := List.mem_filterMap.mp hmem
    have hslash := slash_notMem_of_mem_segments hsegment
    unfold component at hcomponent
    split at hcomponent
    · cases hcomponent
    · next hne =>
      split at hcomponent
      · cases hcomponent
      · next hdots =>
        cases hcomponent
        exact ⟨⟨c, fun he => hne (Or.inl he), hslash, fun he => hne (Or.inr he), hdots⟩, rfl⟩

theorem component_fileName (n : FileName) : component n.bytes = some (.normal n.bytes) := by
  simp [component, n.ne_nil, n.ne_dot, n.ne_dotdot]

theorem ne_nil_of_isAbsolute {p : Path} (h : isAbsolute p = true) : p ≠ [] := by
  rintro rfl
  cases h

theorem isAbsolute_fileName (n : FileName) : isAbsolute n.bytes = false := by
  cases hb : n.bytes with
  | nil => rfl
  | cons c rest =>
    have hc : c ≠ slash := fun he => n.no_slash (by simp [hb, he])
    simp [isAbsolute, hc]

theorem segments_head_append (p q : Path) :
    (segments (p ++ slash :: q)).head? = (segments p).head? := by
  rw [segments_append]
  cases hs : segments p with
  | nil => exact (segments_ne_nil p hs).elim
  | cons segment others => simp

/-- The start of a path does not depend on what follows a slash in it. -/
theorem start_append (p q r : Path) : start (p ++ slash :: q) = start (p ++ slash :: r) := by
  have hhead : ∀ q, (p ++ slash :: q).head? = p.head?.or (some slash) := by
    intro q
    cases p <;> simp
  simp [start, isAbsolute, hhead, segments_head_append]

theorem start_append_of_ne_nil {p : Path} (hp : p ≠ []) (q : Path) :
    start (p ++ slash :: q) = start p := by
  have hhead : (p ++ slash :: q).head? = p.head? := by
    cases p with
    | nil => exact (hp rfl).elim
    | cons c rest => simp
  simp [start, isAbsolute, hhead, segments_head_append]

theorem components_fileName (n : FileName) : components n.bytes = [.normal n.bytes] := by
  have hs := segments_of_notMem n.no_slash
  simp [components, start, isAbsolute_fileName n, hs, n.ne_dot, component_fileName n]

/-- A relative path continues the components of the one before it. -/
theorem components_join_relative {p : Path} (hp : p ≠ []) {q : Path} (hq : isAbsolute q = false) :
    components (join p q) = components p ++ (segments q).filterMap component := by
  rw [join, hq, if_neg Bool.false_ne_true]
  split
  · simp [components, start_append_of_ne_nil hp, segments_append]
  · next hlast =>
    -- the path before it ends in a slash
    rcases List.eq_nil_or_concat p with rfl | ⟨front, c, rfl⟩
    · exact (hp rfl).elim
    · obtain rfl : c = slash := by simpa using hlast
      have hsegments : (segments (front ++ [slash])).filterMap component =
          (segments front).filterMap component := by
        simp [segments_append, segments, component]
      rw [List.concat_eq_append, List.append_assoc, List.singleton_append, components, components,
        segments_append, start_append front q [], hsegments, List.filterMap_append,
        List.append_assoc]

/-- A child's path has the directory's components and the child's name. -/
theorem components_join (p : Path) (n : FileName) :
    components (join p n.bytes) = components p ++ [.normal n.bytes] := by
  by_cases hp : p = []
  · subst hp
    rw [join, if_neg (by simp [isAbsolute_fileName n])]
    exact components_fileName n
  · rw [components_join_relative hp (isAbsolute_fileName n), segments_of_notMem n.no_slash]
    simp [component_fileName n]

/-! The parent of a path. -/

theorem isAbsolute_iff {p : Path} (hp : p ≠ []) :
    isAbsolute p = true ↔ (segments p).head? = some [] := by
  cases p with
  | nil => exact (hp rfl).elim
  | cons c rest =>
    by_cases hc : c = slash
    · simp [isAbsolute, segments, hc]
    · cases hs : segments rest with
      | nil => exact (segments_ne_nil rest hs).elim
      | cons segment others => simp [isAbsolute, segments, hc, hs]

theorem segments_intercalate {l : List (List UInt8)} (hl : l ≠ [])
    (hslash : ∀ segment ∈ l, slash ∉ segment) : segments ([slash].intercalate l) = l := by
  induction l with
  | nil => exact (hl rfl).elim
  | cons segment l ih =>
    have hsegment := segments_of_notMem (hslash segment (by simp))
    cases l with
    | nil => simpa using hsegment
    | cons next l =>
      rw [List.intercalate_cons_cons, List.append_assoc, List.singleton_append, segments_append,
        hsegment,
        ih (by simp) (fun s hs => hslash s (List.mem_cons_of_mem _ hs))]
      rfl

theorem trimSegments_eq (l : List (List UInt8)) :
    trimSegments l = l.rdropWhile (fun segment => (component segment).isNone) := rfl

theorem filterMap_trimSegments (l : List (List UInt8)) :
    (trimSegments l).filterMap component = l.filterMap component := by
  induction l using List.reverseRecOn with
  | nil => rfl
  | append_singleton l segment ih =>
    rw [trimSegments_eq, List.rdropWhile_concat]
    split
    · next hnone =>
      rw [List.filterMap_append, ← trimSegments_eq, ih]
      simp [Option.isNone_iff_eq_none.mp hnone]
    · rfl

/-- The last piece that is kept is the last component. -/
theorem exists_trimSegments {l : List (List UInt8)} {c : Component}
    (h : (l.filterMap component).getLast? = some c) :
    ∃ front segment, trimSegments l = front ++ [segment] ∧ component segment = some c := by
  rcases List.eq_nil_or_concat (trimSegments l) with hnil | ⟨front, segment, hl⟩
  · rw [← filterMap_trimSegments, hnil] at h
    cases h
  · rw [List.concat_eq_append] at hl
    refine ⟨front, segment, hl, ?_⟩
    have hlast := List.rdropWhile_last_not (fun s => (component s).isNone) l
      (by rw [← trimSegments_eq, hl]; simp)
    simp only [← trimSegments_eq, hl, List.getLast_append_singleton] at hlast
    rw [← filterMap_trimSegments, hl] at h
    cases hc : component segment with
    | none => simp [hc] at hlast
    | some c => simpa [hc] using h

/-- The pieces of a path that `parent` keeps. -/
def parentSegments (p : Path) : List (List UInt8) :=
  trimSegments (trimSegments (segments (p.drop (start p).length))).dropLast

theorem parentSegments_isPrefix (p : Path) :
    parentSegments p <+: segments (p.drop (start p).length) :=
  (List.rdropWhile_prefix _ _).trans
    ((List.dropLast_prefix _).trans (List.rdropWhile_prefix _ _))

/-- A path is absolute, or starts with a `.`, or with a piece that is neither empty nor `.`. -/
theorem start_cases {p : Path} (hp : p ≠ []) :
    (∃ rest, p = slash :: rest ∧ start p = [.rootDir]) ∨
    (∃ rest others, p = dot :: rest ∧ segments rest = [] :: others ∧ start p = [.curDir]) ∨
    ∃ first others, segments p = first :: others ∧ first ≠ [] ∧ first ≠ [dot] ∧ start p = [] := by
  obtain ⟨c, rest, rfl⟩ := List.exists_cons_of_ne_nil hp
  by_cases hc : c = slash
  · exact .inl ⟨rest, by rw [hc], by simp [start, isAbsolute, hc]⟩
  · obtain ⟨segment, others, hs⟩ := List.exists_cons_of_ne_nil (segments_ne_nil rest)
    have hsegments : segments (c :: rest) = (c :: segment) :: others := by
      simp [segments, hc, hs]
    by_cases hdot : c = dot ∧ segment = []
    · obtain ⟨rfl, rfl⟩ := hdot
      exact .inr (.inl ⟨rest, others, rfl, hs, by simp [start, isAbsolute, hc, hsegments]⟩)
    · exact .inr (.inr ⟨c :: segment, others, hsegments, by simp, by simpa using hdot,
        by simp [start, isAbsolute, hc, hsegments, hdot]⟩)

/-- The start of a path is no component of its body. -/
theorem filterMap_drop_start {p : Path} (hp : p ≠ []) :
    (segments (p.drop (start p).length)).filterMap component =
      (segments p).filterMap component := by
  rcases start_cases hp with ⟨rest, rfl, hstart⟩ | ⟨rest, others, rfl, hs, hstart⟩ |
    ⟨first, others, hs, -, -, hstart⟩
  · simp [hstart, segments, component]
  · have hdot : dot ≠ slash := by decide
    simp [hstart, segments, hdot, hs, component]
  · simp [hstart]

/-- Keeping the start and some first pieces of the body keeps their components. -/
theorem components_take_start {p : Path} (hp : p ≠ []) {l : List (List UInt8)}
    (hl : l <+: segments (p.drop (start p).length)) :
    components (p.take (start p).length ++ [slash].intercalate l) =
      start p ++ l.filterMap component := by
  have hslash : ∀ segment ∈ l, slash ∉ segment := fun segment hmem =>
    slash_notMem_of_mem_segments (hl.subset hmem)
  have hbody : (segments ([slash].intercalate l)).filterMap component = l.filterMap component := by
    cases l with
    | nil => rfl
    | cons segment l => rw [segments_intercalate (by simp) hslash]
  rcases start_cases hp with ⟨rest, rfl, hstart⟩ | ⟨rest, others, rfl, hs, hstart⟩ |
    ⟨first, others, hs, hne, hdot, hstart⟩
  · simp [components, start, isAbsolute, segments, component, hbody]
  · rw [hstart] at hl ⊢
    simp only [List.length_singleton, List.drop_succ_cons, List.drop_zero, hs] at hl
    have hslash' : dot ≠ slash := by decide
    cases l with
    | nil => exact show components [dot] = [.curDir] by decide
    | cons segment l =>
      obtain ⟨rfl, -⟩ := List.cons_prefix_cons.mp hl
      have := segments_intercalate (by simp) hslash
      simp [components, start, isAbsolute, segments, hslash', this, component]
  · rw [hstart] at hl ⊢
    simp only [List.length_nil, List.drop_zero, hs, List.take_zero, List.nil_append] at hl ⊢
    cases l with
    | nil => decide
    | cons segment l =>
      obtain ⟨rfl, -⟩ := List.cons_prefix_cons.mp hl
      have hsegments := segments_intercalate (by simp) hslash
      have hne' : [slash].intercalate (segment :: l) ≠ [] := by
        intro hnil
        rw [hnil] at hsegments
        simp only [segments, List.cons.injEq] at hsegments
        exact hne hsegments.1.symm
      have habs : isAbsolute ([slash].intercalate (segment :: l)) = false := by
        rw [Bool.eq_false_iff, Ne, isAbsolute_iff hne', hsegments]
        simpa using hne
      simp [components, start, habs, hsegments, hdot]

theorem parent_of_fileName {p : Path} {name : List UInt8} (h : p.fileName = some name) :
    p.parent = some (p.take (start p).length ++ [slash].intercalate (parentSegments p)) := by
  unfold fileName at h
  unfold parent
  split at h
  · next hlast => rw [hlast]; rfl
  · cases h

/-- A path with a file name is its parent's components and the name. -/
theorem components_parent {p : Path} {name : List UInt8} (h : p.fileName = some name) :
    ∃ q, p.parent = some q ∧ components p = components q ++ [.normal name] := by
  have hp : p ≠ [] := by
    rintro rfl
    cases h
  refine ⟨_, parent_of_fileName h, ?_⟩
  have hlast : (components p).getLast? = some (.normal name) := by
    unfold fileName at h
    split at h
    · next heq =>
      cases h
      exact heq
    · cases h
  have hbody : ((segments p).filterMap component).getLast? = some (.normal name) := by
    rw [components, List.getLast?_append] at hlast
    cases hb : ((segments p).filterMap component).getLast? with
    | some c => simpa [hb] using hlast
    | none =>
      rw [hb] at hlast
      rcases start_cases hp with ⟨_, _, hstart⟩ | ⟨_, _, _, _, hstart⟩ | ⟨_, _, _, _, _, hstart⟩ <;>
        simp [hstart] at hlast
  rw [← filterMap_drop_start hp] at hbody
  obtain ⟨front, segment, htrim, hsegment⟩ := exists_trimSegments hbody
  rw [components_take_start hp (parentSegments_isPrefix p), components, ← filterMap_drop_start hp,
    ← filterMap_trimSegments, htrim, parentSegments, filterMap_trimSegments, htrim]
  simp [hsegment]

end Path

end Hush.Lib
