import Hush.Lib.UnixPath

/-! What `to_string_lossy` makes of a path: it keeps the components, each with its own text. -/
namespace Hush.Lib.Path

/-- The text of a path, as a path again. -/
def text (p : Path) : Path := ofString p.display

theorem text_eq (p : Path) : text p = Utf8.encode (Utf8.lossy p) := by
  simp [text, ofString, display]

theorem slash_ascii : slash < 0x80 := by decide

theorem dot_ascii : dot < 0x80 := by decide

theorem text_nil : text [] = [] := by decide

theorem text_cons_ascii {b : UInt8} (hb : b < 0x80) (rest : Path) :
    text (b :: rest) = b :: text rest := by
  simp only [text_eq, Utf8.encode_lossy_cons_ascii hb]

/-- A path that is UTF-8 is its text. -/
theorem text_ofString (s : String) : text (ofString s) = ofString s := by
  rw [text_eq, ofString, Utf8.lossy_encode]

theorem text_append (p q : Path) : text (p ++ slash :: q) = text p ++ slash :: text q := by
  rw [text_eq, Utf8.lossy_append slash_ascii, Utf8.encode_append, ← text_eq, ← text_eq,
    text_cons_ascii slash_ascii]

theorem text_cons_high {b : UInt8} (hb : ¬ b < 0x80) (rest : Path) :
    ∃ (first : UInt8) (front : List UInt8) (rest' : Path), (∀ x ∈ first :: front, ¬ x < 0x80) ∧
      rest' <:+ rest ∧ text (b :: rest) = first :: front ++ text rest' := by
  obtain ⟨c, rest', hc, hsuffix, htext⟩ := Utf8.encode_lossy_cons_high hb rest
  obtain ⟨first, front, hfront⟩ :=
    List.exists_cons_of_ne_nil (String.utf8EncodeChar_ne_nil (c := c))
  refine ⟨first, front, rest', ?_, hsuffix, ?_⟩
  · intro x hx
    exact Utf8.ge_of_mem_encodeChar hc (by rwa [hfront])
  · rw [text_eq, htext, hfront, ← text_eq]

/-- Only an ASCII path has an ASCII text, and that is the path. -/
theorem text_eq_iff {p q : Path} (hq : ∀ b ∈ q, b < 0x80) : text p = q ↔ p = q := by
  induction q generalizing p with
  | nil =>
    cases p with
    | nil => simp [text_nil]
    | cons b rest =>
      by_cases hb : b < 0x80
      · simp [text_cons_ascii hb]
      · obtain ⟨first, front, rest', -, -, htext⟩ := text_cons_high hb rest
        simp [htext]
  | cons c q ih =>
    have hc : c < 0x80 := hq c (by simp)
    cases p with
    | nil => simp [text_nil]
    | cons b rest =>
      by_cases hb : b < 0x80
      · rw [text_cons_ascii hb, List.cons.injEq, List.cons.injEq,
          ih (fun x hx => hq x (List.mem_cons_of_mem _ hx))]
      · obtain ⟨first, front, rest', hfront, -, htext⟩ := text_cons_high hb rest
        rw [htext, List.cons_append, List.cons.injEq, List.cons.injEq]
        constructor
        · rintro ⟨rfl, -⟩
          exact (hfront first (by simp) hc).elim
        · rintro ⟨rfl, -⟩
          exact (hb hc).elim

theorem slash_mem_of_text {p : Path} (h : slash ∈ text p) : slash ∈ p := by
  induction hlen : p.length using Nat.strongRecOn generalizing p with
  | ind len ih =>
    cases p with
    | nil =>
      rw [text_nil] at h
      cases h
    | cons b rest =>
      rw [List.length_cons] at hlen
      by_cases hb : b < 0x80
      · rw [text_cons_ascii hb] at h
        rcases List.mem_cons.mp h with rfl | h
        · exact List.mem_cons_self
        · exact List.mem_cons_of_mem _ (ih _ (by omega) h rfl)
      · obtain ⟨first, front, rest', hfront, hsuffix, htext⟩ := text_cons_high hb rest
        rw [htext] at h
        have hle := hsuffix.length_le
        rcases List.mem_append.mp h with h | h
        · exact (hfront slash h slash_ascii).elim
        · exact List.mem_cons_of_mem _ (hsuffix.subset (ih _ (by omega) h rfl))

theorem segments_text (p : Path) : segments (text p) = (segments p).map text := by
  induction hlen : p.length using Nat.strongRecOn generalizing p with
  | ind len ih =>
    by_cases hp : slash ∈ p
    · obtain ⟨front, rest, rfl⟩ := List.append_of_mem hp
      simp only [List.length_append, List.length_cons] at hlen
      rw [text_append, segments_append, segments_append, List.map_append,
        ih _ (by omega) front rfl, ih _ (by omega) rest rfl]
    · rw [segments_of_notMem (mt slash_mem_of_text hp), segments_of_notMem hp]
      rfl

def Component.text : Component → Component
  | .rootDir => .rootDir
  | .curDir => .curDir
  | .parentDir => .parentDir
  | .normal name => .normal (Path.text name)

theorem text_eq_nil {p : Path} : text p = [] ↔ p = [] := text_eq_iff (by simp)

theorem text_eq_dot {p : Path} : text p = [dot] ↔ p = [dot] :=
  text_eq_iff (by simp [dot_ascii])

theorem text_eq_dots {p : Path} : text p = [dot, dot] ↔ p = [dot, dot] :=
  text_eq_iff (by simp [dot_ascii])

theorem component_text (segment : List UInt8) :
    component (text segment) = (component segment).map Component.text := by
  simp only [component, text_eq_nil, text_eq_dot, text_eq_dots]
  split_ifs <;> rfl

theorem isAbsolute_text (p : Path) : isAbsolute (text p) = isAbsolute p := by
  cases p with
  | nil => decide
  | cons b rest =>
    by_cases hb : b < 0x80
    · simp [isAbsolute, text_cons_ascii hb]
    · obtain ⟨first, front, rest', hfront, -, htext⟩ := text_cons_high hb rest
      have hfirst : first ≠ slash := by
        rintro rfl
        exact hfront slash (by simp) slash_ascii
      have hb' : b ≠ slash := by
        rintro rfl
        exact hb slash_ascii
      simp [isAbsolute, htext, hfirst, hb']

theorem start_text (p : Path) : start (text p) = (start p).map Component.text := by
  simp only [start, isAbsolute_text, segments_text, List.head?_map, Option.map_eq_some_iff,
    text_eq_dot, exists_eq_right]
  split_ifs <;> rfl

theorem components_text (p : Path) : components (text p) = (components p).map Component.text := by
  have hbody : (segments (text p)).filterMap component =
      ((segments p).filterMap component).map Component.text := by
    rw [segments_text, List.filterMap_map, List.map_filterMap]
    congr 1
    funext segment
    exact component_text segment
  rw [components, start_text, hbody, components, List.map_append]

theorem getLast?_of_text {p : Path} (h : (text p).getLast? = some slash) :
    p.getLast? = some slash := by
  induction hlen : p.length using Nat.strongRecOn generalizing p with
  | ind len ih =>
    cases p with
    | nil =>
      rw [text_nil] at h
      cases h
    | cons b rest =>
      rw [List.length_cons] at hlen
      by_cases hb : b < 0x80
      · rw [text_cons_ascii hb] at h
        by_cases hrest : rest = []
        · simpa [hrest, text_nil] using h
        · obtain ⟨c, more, hmore⟩ := List.exists_cons_of_ne_nil (mt text_eq_nil.mp hrest)
          have hlast : (text rest).getLast? = some slash := by simpa [hmore] using h
          simp [List.getLast?_cons, ih _ (by omega) hlast rfl]
      · obtain ⟨first, front, rest', hfront, ⟨skipped, rfl⟩, htext⟩ := text_cons_high hb rest
        rw [List.length_append] at hlen
        rw [htext, List.getLast?_append] at h
        cases hlast : (text rest').getLast? with
        | none =>
          rw [hlast, Option.none_or] at h
          exact (hfront slash (List.mem_of_getLast? h) slash_ascii).elim
        | some c =>
          rw [hlast, Option.some_or] at h
          cases h
          have := ih _ (by omega) hlast rfl
          simp [List.getLast?_cons, List.getLast?_append, this]

/-- The text of a path ends in a slash where the path does. -/
theorem getLast?_display (p : Path) :
    (display p).toList.getLast? = some '/' ↔ p.getLast? = some slash := by
  rw [display, String.toList_ofList]
  constructor
  · intro h
    obtain ⟨cs, hcs⟩ := List.getLast?_eq_some_iff.mp h
    apply getLast?_of_text
    rw [text_eq, hcs, Utf8.encode_append, show Utf8.encode ['/'] = [slash] by decide]
    simp
  · intro h
    obtain ⟨q, rfl⟩ := List.getLast?_eq_some_iff.mp h
    rw [Utf8.lossy_append slash_ascii, show Utf8.lossy [slash] = ['/'] by decide]
    simp

end Hush.Lib.Path

namespace Hush.Lib.FileName

/-- The text of a name is a name. -/
def text (n : FileName) : FileName where
  bytes := Path.text n.bytes
  ne_nil := mt Path.text_eq_nil.mp n.ne_nil
  no_slash := mt Path.slash_mem_of_text n.no_slash
  ne_dot := mt Path.text_eq_dot.mp n.ne_dot
  ne_dotdot := mt Path.text_eq_dots.mp n.ne_dotdot

end Hush.Lib.FileName
