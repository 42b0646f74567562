import Mathlib.Algebra.Ring.Nat
import Mathlib.Data.List.TakeWhile
import Mathlib.Tactic.Common

/-! Text as the Rust standard library treats it, on lists of characters. -/
namespace Hush.Lib.Text

/-- `char::is_whitespace`: the Unicode property White_Space. -/
def isWhitespace (c : Char) : Bool :=
  let n := c.toNat
  (9 ≤ n && n ≤ 13) || n == 32 || n == 0x85 || n == 0xA0 || n == 0x1680 ||
    (0x2000 ≤ n && n ≤ 0x200A) || n == 0x2028 || n == 0x2029 || n == 0x202F ||
    n == 0x205F || n == 0x3000

/-- `str::trim`. -/
def trim (s : List Char) : List Char :=
  ((s.dropWhile isWhitespace).reverse.dropWhile isWhitespace).reverse

/-- `s.trim().is_empty()`. -/
def blank (s : List Char) : Bool := s.all isWhitespace

/-- The lines of a text after the reversed start of the current one. -/
def linesFrom : List Char → List Char → List (List Char)
  | [], [] => []
  | start, [] => [start.reverse]
  | '\r' :: start, '\n' :: rest => start.reverse :: linesFrom [] rest
  | start, '\n' :: rest => start.reverse :: linesFrom [] rest
  | start, c :: rest => linesFrom (c :: start) rest

/-- `str::lines`: a line ends in `\n` or `\r\n`, and the last one need not end. -/
def lines (s : List Char) : List (List Char) := linesFrom [] s

/-- `str::split_whitespace`. -/
def words (s : List Char) : List (List Char) :=
  (s.splitOnP isWhitespace).filter fun word => !word.isEmpty

theorem ne_nil_of_mem_words {s word : List Char} (h : word ∈ words s) : word ≠ [] := by
  have := (List.mem_filter.mp h).2
  simpa using this

/-- `str::to_ascii_lowercase`. -/
def toLower (s : List Char) : List Char := s.map Char.toLower

/-- The text from the first occurrence of a pattern on: `str::find`, then the slice. -/
def findFrom (pattern : List Char) : List Char → Option (List Char)
  | [] => if pattern.isEmpty then some [] else none
  | c :: rest =>
    if pattern.isPrefixOf (c :: rest) then some (c :: rest) else findFrom pattern rest

/-- `str::split_once`: around the first occurrence. -/
def splitOnce (c : Char) (s : List Char) : Option (List Char × List Char) :=
  if c ∈ s then some (s.takeWhile (· ≠ c), (s.dropWhile (· ≠ c)).tail) else none

/-- `str::rsplit_once`: around the last occurrence. -/
def rsplitOnce (c : Char) (s : List Char) : Option (List Char × List Char) :=
  (splitOnce c s.reverse).map fun (after, before) => (before.reverse, after.reverse)

/-- `str::parse` of an unsigned integer type: a `+` may come before the digits. -/
def parseUnsigned (bits : Nat) (s : List Char) : Option Nat :=
  let digits := if s.head? = some '+' then s.tail else s
  if digits.isEmpty || !digits.all Char.isDigit then none
  else
    let n := Nat.ofDigitChars 10 digits 0
    if n < 2 ^ bits then some n else none

/-- The message of a `ParseIntError` after the value `n`: the first character that cannot be
taken decides. Digits that are all taken are no error. -/
def digitsError (bits n : Nat) : List Char → String
  | [] => ""
  | c :: rest =>
    if !c.isDigit then "invalid digit found in string"
    else
      let n := n * 10 + (c.toNat - '0'.toNat)
      if n < 2 ^ bits then digitsError bits n rest
      else "number too large to fit in target type"

def parseIntError (bits : Nat) (s : List Char) : String :=
  if s = [] then "cannot parse integer from empty string"
  else if s = ['+'] then "invalid digit found in string"
  else digitsError bits 0 (if s.head? = some '+' then s.tail else s)

example : lines "a\r\n\nb\rc\n".toList = ["a".toList, [], "b\rc".toList] := by decide

theorem dropWhile_append_whitespace {s w : List Char} (hw : ∀ c ∈ w, isWhitespace c = true) :
    ((s ++ w).reverse.dropWhile isWhitespace).reverse =
      (s.reverse.dropWhile isWhitespace).reverse := by
  rw [List.reverse_append, List.dropWhile_append_of_pos (by simpa using hw)]

/-- Whitespace around a text is not part of it. -/
theorem trim_whitespace {w s w' : List Char} (hw : ∀ c ∈ w, isWhitespace c = true)
    (hw' : ∀ c ∈ w', isWhitespace c = true) : trim (w ++ s ++ w') = trim s := by
  rw [trim, trim, List.append_assoc, List.dropWhile_append_of_pos hw, List.dropWhile_append]
  split
  · next hs =>
    rw [List.isEmpty_iff.mp hs, List.dropWhile_eq_nil_iff.mpr hw']
  · exact dropWhile_append_whitespace hw'

/-- A text with no white space at its ends. -/
def Trimmed (s : List Char) : Prop :=
  (∀ c ∈ s.head?, isWhitespace c = false) ∧ ∀ c ∈ s.getLast?, isWhitespace c = false

theorem dropWhile_eq_self {s : List Char} (h : ∀ c ∈ s.head?, isWhitespace c = false) :
    s.dropWhile isWhitespace = s := by
  cases s with
  | nil => rfl
  | cons c s => rw [List.dropWhile_cons_of_neg (by simp [h c rfl])]

theorem Trimmed.trim_eq {s : List Char} (h : Trimmed s) : trim s = s := by
  have hlast : ∀ c ∈ s.reverse.head?, isWhitespace c = false := by
    rw [List.head?_reverse]
    exact h.2
  rw [trim, dropWhile_eq_self h.1, dropWhile_eq_self hlast, List.reverse_reverse]

theorem trimmed_of_forall {s : List Char} (h : ∀ c ∈ s, isWhitespace c = false) : Trimmed s :=
  ⟨fun c hc => h c (List.mem_of_mem_head? hc), fun c hc => h c (List.mem_of_mem_getLast? hc)⟩

theorem trim_of_forall {s : List Char} (h : ∀ c ∈ s, isWhitespace c = false) : trim s = s :=
  (trimmed_of_forall h).trim_eq

theorem head?_dropWhile_whitespace {s : List Char} :
    ∀ c ∈ (s.dropWhile isWhitespace).head?, isWhitespace c = false := by
  intro c hc
  have := List.head?_dropWhile_not isWhitespace s
  rw [hc] at this
  simpa using this

/-- Trimming takes white space off both ends, and all of it. -/
theorem exists_trim (s : List Char) :
    ∃ w w', s = w ++ trim s ++ w' ∧ (∀ c ∈ w ++ w', isWhitespace c = true) ∧ Trimmed (trim s) := by
  let front := s.dropWhile isWhitespace
  have hfront : s = s.takeWhile isWhitespace ++ front := List.takeWhile_append_dropWhile.symm
  have hback : front = trim s ++ (front.reverse.takeWhile isWhitespace).reverse := by
    rw [trim, ← List.reverse_append, List.takeWhile_append_dropWhile, List.reverse_reverse]
  refine ⟨s.takeWhile isWhitespace, (front.reverse.takeWhile isWhitespace).reverse, ?_, ?_, ?_, ?_⟩
  · rw [List.append_assoc, ← hback]
    exact hfront
  · intro c hc
    rcases List.mem_append.mp hc with hc | hc
    · exact List.mem_takeWhile_imp hc
    · exact List.mem_takeWhile_imp (List.mem_reverse.mp hc)
  · intro c hc
    have hhead : c ∈ front.head? := by
      rw [hback, List.head?_append, show (trim s).head? = some c from hc]
      rfl
    exact head?_dropWhile_whitespace c hhead
  · intro c hc
    rw [trim, List.getLast?_reverse] at hc
    exact head?_dropWhile_whitespace c hc

theorem linesFrom_cons_of_ne {c : Char} (hc : c ≠ '\n') (start rest : List Char) :
    linesFrom start (c :: rest) = linesFrom (c :: start) rest := by
  rw [linesFrom]
  · exact hc
  · exact fun _ _ => hc

/-- A line ends at the first line feed; whether a carriage return is before it does not matter to
its trimmed text. -/
theorem linesFrom_append {l : List Char} (hl : '\n' ∉ l) (start rest : List Char) :
    ∃ line, linesFrom start (l ++ '\n' :: rest) = line :: linesFrom [] rest ∧
      trim line = trim (start.reverse ++ l) := by
  induction l generalizing start with
  | nil =>
    rw [List.nil_append, List.append_nil]
    by_cases hcr : ∃ start', start = '\r' :: start'
    · obtain ⟨start', rfl⟩ := hcr
      refine ⟨start'.reverse, by rw [linesFrom], ?_⟩
      have htrim : trim ([] ++ start'.reverse ++ ['\r']) = trim start'.reverse :=
        trim_whitespace (by simp) (List.forall_mem_singleton.mpr rfl)
      simpa using htrim.symm
    · refine ⟨start.reverse, ?_, rfl⟩
      rw [linesFrom]
      rintro start' rfl
      exact hcr ⟨start', rfl⟩
  | cons c l ih =>
    simp only [List.mem_cons, not_or] at hl
    obtain ⟨line, hline, htrim⟩ := ih hl.2 (c :: start)
    refine ⟨line, ?_, by simpa using htrim⟩
    rw [List.cons_append, linesFrom_cons_of_ne (Ne.symm hl.1), hline]

theorem linesFrom_last {l : List Char} (hl : '\n' ∉ l) (start : List Char)
    (hne : start ≠ [] ∨ l ≠ []) : linesFrom start l = [start.reverse ++ l] := by
  induction l generalizing start with
  | nil =>
    obtain ⟨c, start, rfl⟩ := List.exists_cons_of_ne_nil (hne.resolve_right (by simp))
    simp [linesFrom]
  | cons c l ih =>
    simp only [List.mem_cons, not_or] at hl
    rw [linesFrom_cons_of_ne (Ne.symm hl.1), ih hl.2 (c :: start) (.inl (by simp))]
    simp

/-- The trimmed lines of lines that are written one after the other. -/
theorem map_trim_lines {ls : List (List Char)} (hls : ∀ l ∈ ls, '\n' ∉ l) (rest : List Char) :
    (lines (ls.flatMap (· ++ ['\n']) ++ rest)).map trim = ls.map trim ++ (lines rest).map trim := by
  induction ls with
  | nil => rfl
  | cons l ls ih =>
    obtain ⟨hl, hls⟩ := List.forall_mem_cons.mp hls
    obtain ⟨line, hline, htrim⟩ :=
      linesFrom_append hl [] (ls.flatMap (· ++ ['\n']) ++ rest)
    rw [lines, List.flatMap_cons, List.append_assoc, List.append_assoc, List.singleton_append,
      hline, List.map_cons, List.map_cons, htrim, ← lines, ih hls]
    rfl

/-- A scanner that collects each character of a text passes over the whole of it. -/
theorem scan_append {β : Type*} {f : List Char → List Char → β} {text : List Char}
    (h : ∀ c ∈ text, ∀ current rest, f current (c :: rest) = f (current ++ [c]) rest)
    (current rest : List Char) : f current (text ++ rest) = f (current ++ text) rest := by
  induction text generalizing current with
  | nil => simp
  | cons c text ih =>
    obtain ⟨hc, htext⟩ := List.forall_mem_cons.mp h
    rw [List.cons_append, hc, ih htext, List.append_assoc, List.singleton_append]

/-- A separator that occurs in neither tail splits a list in one way only. -/
theorem append_cons_inj_of_notMem_right {α : Type*} {c : α} {xs xs' ys ys' : List α}
    (h : xs ++ c :: ys = xs' ++ c :: ys') (hy : c ∉ ys) (hy' : c ∉ ys') :
    xs = xs' ∧ ys = ys' := by
  rcases List.append_eq_append_iff.mp h with ⟨as, h1, h2⟩ | ⟨bs, h1, h2⟩
  · cases as with
    | nil => simp_all
    | cons a as => simp_all
  · cases bs with
    | nil => simp_all
    | cons b bs => simp_all

theorem splitOnce_append {c : Char} {a : List Char} (h : c ∉ a) (b : List Char) :
    splitOnce c (a ++ c :: b) = some (a, b) := by
  have ha : ∀ d ∈ a, decide (d ≠ c) = true := by
    intro d hd
    simpa using ne_of_mem_of_not_mem hd h
  rw [splitOnce, if_pos (by simp), List.takeWhile_append_of_pos ha, List.dropWhile_append_of_pos ha]
  simp

theorem rsplitOnce_append {c : Char} {b : List Char} (h : c ∉ b) (a : List Char) :
    rsplitOnce c (a ++ c :: b) = some (a, b) := by
  have hreverse : (a ++ c :: b).reverse = b.reverse ++ c :: a.reverse := by simp
  rw [rsplitOnce, hreverse, splitOnce_append (by simpa using h)]
  simp

theorem rsplitOnce_eq_none {c : Char} {s : List Char} (h : c ∉ s) : rsplitOnce c s = none := by
  simp [rsplitOnce, splitOnce, h]

/-- A separator that occurs can be taken where it occurs last. -/
theorem exists_rsplit {c : Char} {s : List Char} (h : c ∈ s) :
    ∃ a b, s = a ++ c :: b ∧ c ∉ b := by
  obtain ⟨b, a, hs, hnot⟩ := List.eq_append_cons_of_mem (List.mem_reverse.mpr h)
  refine ⟨a.reverse, b.reverse, ?_, by simpa using hnot⟩
  simpa using congrArg List.reverse hs

theorem toDigits_injective {m n : ℕ} (h : Nat.toDigits 10 m = Nat.toDigits 10 n) : m = n := by
  rw [← Nat.ofDigitChars_ten_toDigits (n := m), h, Nat.ofDigitChars_ten_toDigits]

theorem isDigit_of_mem_decimal {n : ℕ} {c : Char} (h : c ∈ Nat.toDigits 10 n) :
    c.isDigit = true :=
  Nat.isDigit_of_mem_toDigits (by decide) (by decide) h

theorem notMem_toDigits {c : Char} (hc : c.isDigit = false) (n : ℕ) : c ∉ Nat.toDigits 10 n := by
  intro h
  rw [isDigit_of_mem_decimal h] at hc
  exact absurd hc (by decide)

theorem colon_notMem_toDigits (n : ℕ) : ':' ∉ Nat.toDigits 10 n := notMem_toDigits rfl n

/-- A number that parses is written in digits, with at most a `+` before them. -/
theorem notMem_of_parseUnsigned {bits n : ℕ} {s : List Char} (h : parseUnsigned bits s = some n)
    {c : Char} (hc : c.isDigit = false) (hplus : c ≠ '+') : c ∉ s := by
  have hdigits : (if s.head? = some '+' then s.tail else s).all Char.isDigit = true := by
    by_contra hall
    rw [parseUnsigned, Bool.not_eq_true _ |>.mp hall] at h
    simp at h
  intro hmem
  have htail : c ∈ if s.head? = some '+' then s.tail else s := by
    cases s with
    | nil => cases hmem
    | cons d s =>
      rcases List.mem_cons.mp hmem with rfl | hmem
      · simp [hplus]
      · split
        · exact hmem
        · exact List.mem_cons_of_mem _ hmem
  rw [List.all_eq_true.mp hdigits c htail] at hc
  exact absurd hc (by decide)

/-- The decimal digits of a number parse to it. -/
theorem parseUnsigned_toDigits {bits n : ℕ} (h : n < 2 ^ bits) :
    parseUnsigned bits (Nat.toDigits 10 n) = some n := by
  have hplus : (Nat.toDigits 10 n).head? ≠ some '+' := fun he =>
    notMem_toDigits rfl n (List.mem_of_mem_head? he)
  have hall : (Nat.toDigits 10 n).all Char.isDigit = true :=
    List.all_eq_true.mpr fun c => isDigit_of_mem_decimal
  simp [parseUnsigned, hplus, hall, Nat.ofDigitChars_ten_toDigits, h]

end Hush.Lib.Text
