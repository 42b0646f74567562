import Hush.KnownHosts.Store

/-! A reader and writer for the one TOML table of known_hosts, on which the laws hold. -/
namespace Hush.KnownHosts.Document
open Hush.Lib

def escape : Char → List Char
  | '"' => ['\\', '"']
  | '\\' => ['\\', '\\']
  | '\n' => ['\\', 'n']
  | c => [c]

/-- A TOML basic string. -/
def quote (s : String) : List Char := '"' :: (s.toList.flatMap escape ++ ['"'])

def line (entry : String × String) : List Char :=
  quote entry.1 ++ [' ', '=', ' '] ++ quote entry.2 ++ ['\n']

def header : List Char := "[hosts]\n".toList

def toStringPretty (m : Entries) : String := String.ofList (header ++ m.toList.flatMap line)

/-- The rest of a basic string after its opening quote. -/
def unquote : List Char → Option (List Char × List Char)
  | '"' :: rest => some ([], rest)
  | '\\' :: 'n' :: rest => (unquote rest).map fun (s, rest) => ('\n' :: s, rest)
  | '\\' :: c :: rest => (unquote rest).map fun (s, rest) => (c :: s, rest)
  | c :: rest => (unquote rest).map fun (s, rest) => (c :: s, rest)
  | [] => none

def parseLines : Nat → List Char → Option (List (String × String))
  | _, [] => some []
  | fuel + 1, '"' :: rest => do
    let (key, rest) ← unquote rest
    match rest with
    | ' ' :: '=' :: ' ' :: '"' :: rest =>
      let (value, rest) ← unquote rest
      match rest with
      | '\n' :: rest => return (String.ofList key, String.ofList value) :: (← parseLines fuel rest)
      | _ => none
    | _ => none
  | _, _ => none

def fromStr (data : String) : Except String Entries :=
  if Text.blank data.toList then .ok ∅
  else if data.toList.take header.length = header then
    let body := data.toList.drop header.length
    match parseLines body.length body with
    | some entries => .ok (Std.ExtTreeMap.ofList entries)
    | none => .error "expected a key and a value"
  else .error "expected a table"

def toml : Toml := { toStringPretty, fromStr }

theorem unquote_escape (c : Char) (rest : List Char) :
    unquote (escape c ++ rest) = (unquote rest).map fun (s, rest) => (c :: s, rest) := by
  unfold escape
  split
  · simp [unquote]
  · simp [unquote]
  · simp [unquote]
  · next hq hb hn =>
    simp only [List.singleton_append]
    rw [unquote]
    · exact hq
    · intro _ he
      exact absurd he hb
    · intro _ _ he
      exact absurd he hb

theorem unquote_quoted (cs rest : List Char) :
    unquote (cs.flatMap escape ++ '"' :: rest) = some (cs, rest) := by
  induction cs with
  | nil => simp [unquote]
  | cons c cs ih => rw [List.flatMap_cons, List.append_assoc, unquote_escape, ih]; rfl

theorem parseLines_line (fuel : Nat) (entry : String × String) (rest : List Char) :
    parseLines (fuel + 1) (line entry ++ rest) =
      (parseLines fuel rest).map (entry :: ·) := by
  have hl : line entry ++ rest = '"' :: (entry.1.toList.flatMap escape ++ '"' ::
      (' ' :: '=' :: ' ' :: '"' :: (entry.2.toList.flatMap escape ++ '"' :: '\n' :: rest))) := by
    simp [line, quote]
  rw [hl, parseLines, unquote_quoted]
  simp only [Option.bind_eq_bind, Option.bind_some, unquote_quoted]
  cases parseLines fuel rest <;> simp

theorem parseLines_lines (entries : List (String × String)) (fuel : Nat)
    (h : entries.length ≤ fuel) :
    parseLines fuel (entries.flatMap line) = some entries := by
  induction entries generalizing fuel with
  | nil => unfold parseLines; simp
  | cons entry entries ih =>
    obtain ⟨n, rfl⟩ : ∃ n, fuel = n + 1 := ⟨fuel - 1, by simp at h; omega⟩
    rw [List.flatMap_cons, parseLines_line, ih n (by simpa using h)]
    rfl

theorem length_le_flatMap_line (entries : List (String × String)) :
    entries.length ≤ (entries.flatMap line).length := by
  induction entries with
  | nil => simp
  | cons entry entries ih =>
    simp only [List.length_cons, List.flatMap_cons, List.length_append]
    have : 0 < (line entry).length := by simp [line, quote]
    omega

theorem ofList_toList (m : Entries) : Std.ExtTreeMap.ofList m.toList = m := by
  apply Std.ExtTreeMap.ext_getElem?
  intro k
  cases hk : m[k]? with
  | some v =>
    have hmem : (k, v) ∈ m.toList := Std.ExtTreeMap.mem_toList_iff_getElem?_eq_some.mpr hk
    exact Std.ExtTreeMap.getElem?_ofList_of_mem (by simp) Std.ExtTreeMap.distinct_keys_toList hmem
  | none =>
    apply Std.ExtTreeMap.getElem?_ofList_of_contains_eq_false
    simp [Std.ExtTreeMap.map_fst_toList_eq_keys]
    simpa using hk

theorem not_blank (body : List Char) : Text.blank (header ++ body) = false := by
  have hh : Text.blank header = false := by decide
  unfold Text.blank at hh ⊢
  rw [List.all_append, hh, Bool.false_and]

theorem toml_lawful : toml.Lawful where
  roundTrip m := by
    have hbody : (toStringPretty m).toList = header ++ m.toList.flatMap line := by
      simp [toStringPretty]
    simp only [toml, fromStr, hbody, not_blank, List.take_left', List.drop_left']
    rw [parseLines_lines _ _ (length_le_flatMap_line _)]
    simp [ofList_toList]
  blank data h := by simp [toml, fromStr, h]

end Hush.KnownHosts.Document
