import Hush.Lib.Text

/-! A line of `ssh_config`: its key and its value. -/
namespace Hush.SshConfig
open Hush.Lib

/-- The key, in lower case, and the value of a line; a blank line and a comment have none. -/
def keyValue (raw : List Char) : Option (List Char × List Char) :=
  let line := Text.trim raw
  if line = [] ∨ line.head? = some '#' then none
  else
    let key := line.takeWhile fun c => !Text.isWhitespace c
    let rest := (line.dropWhile fun c => !Text.isWhitespace c).tail
    some (Text.toLower key, Text.trim rest)

/-- What a line says: a word that does not start a comment is its key, in any case, and what
follows after white space is its value. -/
def LineSays (raw key value : List Char) : Prop :=
  ∃ left word gap right, raw = left ++ (word ++ gap ++ value) ++ right ∧
    (∀ c ∈ left ++ gap ++ right, Text.isWhitespace c = true) ∧
    (∀ c ∈ word, Text.isWhitespace c = false) ∧ word ≠ [] ∧ word.head? ≠ some '#' ∧
    Text.toLower word = key ∧ Text.Trimmed value ∧ (value ≠ [] → gap ≠ [])

/-- A word and what follows it after white space come apart again. -/
theorem span_word {word : List Char} (gap value : List Char)
    (hword : ∀ c ∈ word, Text.isWhitespace c = false)
    (hgap : ∀ c ∈ gap, Text.isWhitespace c = true) (hne : gap ++ value ≠ [] → gap ≠ []) :
    (word ++ gap ++ value).takeWhile (fun c => !Text.isWhitespace c) = word ∧
      Text.trim ((word ++ gap ++ value).dropWhile fun c => !Text.isWhitespace c).tail =
        Text.trim value := by
  have hpos : ∀ c ∈ word, (!Text.isWhitespace c) = true := fun c hc => by simp [hword c hc]
  rw [List.append_assoc, List.takeWhile_append_of_pos hpos, List.dropWhile_append_of_pos hpos]
  cases gap with
  | nil =>
    have hvalue : value = [] := by
      by_contra h
      exact hne h rfl
    simp [hvalue]
  | cons c gap =>
    have hc : Text.isWhitespace c = true := hgap c List.mem_cons_self
    have hrest : ∀ c ∈ gap, Text.isWhitespace c = true := fun c hc =>
      hgap c (List.mem_cons_of_mem _ hc)
    have htrim : Text.trim (gap ++ value ++ []) = Text.trim value :=
      Text.trim_whitespace hrest (by simp)
    rw [List.append_nil] at htrim
    simp [hc, htrim]

/-- A line without the white space around it. -/
theorem trim_line {left word gap value right : List Char}
    (hblank : ∀ c ∈ left ++ gap ++ right, Text.isWhitespace c = true)
    (hword : ∀ c ∈ word, Text.isWhitespace c = false) (hne : word ≠ [])
    (hvalue : Text.Trimmed value) :
    Text.trim (left ++ (word ++ gap ++ value) ++ right) =
      if value = [] then word else word ++ gap ++ value := by
  have hleft : ∀ c ∈ left, Text.isWhitespace c = true := fun c hc => hblank c (by simp [hc])
  have hgap : ∀ c ∈ gap, Text.isWhitespace c = true := fun c hc => hblank c (by simp [hc])
  have hright : ∀ c ∈ right, Text.isWhitespace c = true := fun c hc => hblank c (by simp [hc])
  rw [Text.trim_whitespace hleft hright]
  split_ifs with hnil
  · have htrim : Text.trim ([] ++ word ++ gap) = Text.trim word :=
      Text.trim_whitespace (by simp) hgap
    rw [hnil, List.append_nil, ← List.nil_append word, htrim, List.nil_append,
      Text.trim_of_forall hword]
  · obtain ⟨c, word, rfl⟩ := List.exists_cons_of_ne_nil hne
    refine Text.Trimmed.trim_eq ⟨fun d hd => ?_, fun d hd => ?_⟩
    · cases hd
      exact hword _ List.mem_cons_self
    · rw [List.getLast?_append, List.getLast?_eq_some_getLast hnil] at hd
      cases hd
      exact hvalue.2 _ (List.getLast?_eq_some_getLast hnil)

/-- The word at the start of a line, and the rest. -/
theorem exists_word {line : List Char} (hline : Text.Trimmed line) (hne : line ≠ []) :
    ∃ word gap rest, line = word ++ gap ++ rest ∧
      line.takeWhile (fun c => !Text.isWhitespace c) = word ∧
      (line.dropWhile fun c => !Text.isWhitespace c).tail = rest ∧
      (∀ c ∈ word, Text.isWhitespace c = false) ∧ (∀ c ∈ gap, Text.isWhitespace c = true) ∧
      word ≠ [] ∧ word.head? = line.head? ∧ (rest ≠ [] → gap ≠ []) := by
  obtain ⟨c, line, rfl⟩ := List.exists_cons_of_ne_nil hne
  have hc : Text.isWhitespace c = false := hline.1 c rfl
  have hsplit : (c :: line).takeWhile (fun c => !Text.isWhitespace c) ++
      (c :: line).dropWhile (fun c => !Text.isWhitespace c) = c :: line :=
    List.takeWhile_append_dropWhile
  have hword : ∀ d ∈ (c :: line).takeWhile (fun c => !Text.isWhitespace c),
      Text.isWhitespace d = false := fun d hd => by simpa using List.mem_takeWhile_imp hd
  have hhead : (c :: line).takeWhile (fun c => !Text.isWhitespace c) =
      c :: line.takeWhile (fun c => !Text.isWhitespace c) := by
    rw [List.takeWhile_cons_of_pos (by simp [hc])]
  cases hdrop : (c :: line).dropWhile (fun c => !Text.isWhitespace c) with
  | nil =>
    rw [hdrop, List.append_nil] at hsplit
    refine ⟨_, [], [], ?_, rfl, rfl, hword, by simp, by simp [hhead], by simp [hhead], by simp⟩
    rw [List.append_nil, List.append_nil, hsplit]
  | cons d rest =>
    have hd : Text.isWhitespace d = true := by
      have := List.head?_dropWhile_not (fun c => !Text.isWhitespace c) (c :: line)
      rw [hdrop] at this
      simpa using this
    rw [hdrop] at hsplit
    refine ⟨_, [d], rest, ?_, rfl, rfl, hword, by simp [hd], by simp [hhead], by simp [hhead],
      by simp⟩
    rw [List.append_assoc]
    exact hsplit.symm

theorem keyValue_iff {raw key value : List Char} :
    keyValue raw = some (key, value) ↔ LineSays raw key value := by
  constructor
  · intro h
    obtain ⟨w, w', hraw, hspace, htrim⟩ := Text.exists_trim raw
    simp only [keyValue] at h
    split_ifs at h with hnone
    obtain ⟨hne, hhash⟩ := not_or.mp hnone
    obtain ⟨word, gap, rest, hline, htake, hdrop, hword, hgap, hword', hhead, hrest⟩ :=
      exists_word htrim hne
    rw [htake, hdrop] at h
    cases h
    obtain ⟨v, v', hv, hspace', hvalue⟩ := Text.exists_trim rest
    refine ⟨w, word, gap ++ v, v' ++ w', ?_, ?_, hword, hword', hhead ▸ hhash, rfl, hvalue, ?_⟩
    · rw [hraw, hline]
      nth_rewrite 1 [hv]
      simp only [List.append_assoc]
    · intro c hc
      simp only [List.mem_append] at hc hspace hspace'
      rcases hc with (hc | hc | hc) | hc | hc
      exacts [hspace c (.inl hc), hgap c hc, hspace' c (.inl hc), hspace' c (.inr hc),
        hspace c (.inr hc)]
    · intro hne hnil
      have hrest' : rest ≠ [] := by
        rintro rfl
        exact hne rfl
      exact hrest hrest' (List.append_eq_nil_iff.mp hnil).1
  · rintro ⟨left, word, gap, right, rfl, hblank, hword, hne, hhash, rfl, hvalue, hgap⟩
    simp only [keyValue, trim_line hblank hword hne hvalue]
    by_cases hnil : value = []
    · have hspan := span_word [] [] hword (by simp) (by simp)
      simp only [List.append_nil] at hspan
      rw [if_pos hnil, if_neg (by simp [hne, hhash]), hspan.1, hspan.2, hnil]
      rfl
    · have hblank' : ∀ c ∈ gap, Text.isWhitespace c = true := fun c hc => hblank c (by simp [hc])
      have hspan := span_word gap value hword hblank' fun _ => hgap hnil
      rw [if_neg hnil, if_neg (by simp [hne, hhash]), hspan.1, hspan.2, hvalue.trim_eq]

instance (raw key value : List Char) : Decidable (LineSays raw key value) :=
  decidable_of_iff _ keyValue_iff

example : keyValue "  Port\t 2222 ".toList = some ("port".toList, "2222".toList) := by decide

end Hush.SshConfig
