import Hush.Auth.Server
import Hush.Lib.Loop

/-! Options before a key in authorized_keys: which lines name a key, and which ones stop the
search for it. -/
namespace Hush.Auth
open Hush.Lib

/-- Whether the rest of a field completes its options: `fresh` at the start of an option, `quoted`
inside double quotes. A backslash before a double quote takes its meaning away. -/
def completesOptions : Bool → Bool → List Char → Bool
  | fresh, quoted, [] => !fresh && !quoted
  | _, quoted, '\\' :: '\x22' :: rest => completesOptions false quoted rest
  | _, true, c :: rest => completesOptions false (c != '\x22') rest
  | fresh, false, c :: rest =>
    if c == '\x22' then completesOptions false true rest
    else if c == ',' then !fresh && completesOptions true false rest
    else c != ' ' && c != '\t' && completesOptions false false rest

/-- An OpenSSH options field: options separated by commas, with blanks in quotes only. -/
def isOptions (field : List Char) : Bool := completesOptions true false field

example : isOptions "no-pty,command=\"a, \\\"b c\",from=\"*\"".toList = true := by decide

example : isOptions "no-pty command".toList = false := by decide

variable {K : Type*} (keys : SshKeys K) (key : K) (wanted : Bytes)

/-- The text is `algorithm base64 [comment]`, for the wanted key. -/
def KeyText (text : List Char) : Prop :=
  ∃ base64, IsKeyLine (keys.algorithm key) base64 text ∧
    keys.decodeKey (keys.algorithm key) base64 = some wanted

/-- The line is a field of options and then the wanted key. -/
def OptionsThenKey (line : List Char) : Prop :=
  line.head? ≠ some '#' ∧ ∃ field blanks text, line = field ++ blanks ++ text ∧
    isOptions field = true ∧ blanks ≠ [] ∧ (∀ c ∈ blanks, c = ' ' ∨ c = '\t') ∧
    KeyText keys key wanted text

def NamesKey (line : List Char) : Prop :=
  KeyText keys key wanted line ∨ OptionsThenKey keys key wanted line

/-- The line is as a whole a key, of any kind. -/
def BareKey (line : List Char) : Prop :=
  ∃ algorithm base64 blob, IsKeyLine algorithm base64 line ∧
    keys.decodeKey algorithm base64 = some blob

/-- The line is no key and no comment, and the first place in it where the algorithm of the wanted
key is written is the start of that key. -/
def Located (line : List Char) : Prop :=
  line.head? ≠ some '#' ∧ ¬ BareKey keys line ∧
    ∃ text, Text.findFrom ((keys.algorithm key).asStr.toList ++ [' ']) line = some text ∧
      KeyText keys key wanted text

/-- The search ends at the line. -/
def Stops (line : List Char) : Prop := KeyText keys key wanted line ∨ Located keys key wanted line

variable {keys key wanted} {line : List Char}

theorem fromOpenssh_matches_iff (hk : keys.Lawful) (hn : keys.BytesName key wanted) :
    (∃ candidate, keys.fromOpenssh line = some candidate ∧
      matchesKey keys wanted candidate = true) ↔ KeyText keys key wanted line := by
  constructor
  · rintro ⟨candidate, hparse, hmatch⟩
    obtain ⟨base64, blob, hline, hdecode, hblob⟩ := hk.sound _ _ hparse
    rw [toBytes_of_matchesKey hmatch, Except.ok.injEq] at hblob
    subst hblob
    rw [hn _ _ hdecode] at hline hdecode
    exact ⟨base64, hline, hdecode⟩
  · rintro ⟨base64, hline, hdecode⟩
    obtain ⟨candidate, hparse, -, hbytes⟩ := hk.complete _ _ _ _ hline hdecode
    exact ⟨candidate, hparse, by simp [matchesKey, hbytes]⟩

theorem fromOpenssh_none_iff (hk : keys.Lawful) :
    keys.fromOpenssh line = none ↔ ¬ BareKey keys line := by
  constructor
  · rintro hnone ⟨algorithm, base64, blob, hline, hdecode⟩
    obtain ⟨candidate, hparse, -⟩ := hk.complete _ _ _ _ hline hdecode
    rw [hnone] at hparse
    cases hparse
  · intro hbare
    cases hparse : keys.fromOpenssh line with
    | none => rfl
    | some candidate =>
      obtain ⟨base64, blob, hline, hdecode, -⟩ := hk.sound _ _ hparse
      exact (hbare ⟨_, base64, blob, hline, hdecode⟩).elim

theorem Located.not_keyText (h : Located keys key wanted line) :
    ¬ KeyText keys key wanted line := by
  rintro ⟨base64, hline, hdecode⟩
  exact h.2.1 ⟨_, base64, wanted, hline, hdecode⟩

/-- The name of a supported algorithm starts with a letter, so its keys are no comments. -/
theorem KeyText.no_comment (hs : isSupportedAlgorithm (keys.algorithm key) = true)
    (h : KeyText keys key wanted line) : line ≠ [] ∧ line.head? ≠ some '#' := by
  obtain ⟨base64, hline, -⟩ := h
  obtain ⟨c, name, hname, hc⟩ :
      ∃ c name, (keys.algorithm key).asStr.toList = c :: name ∧ c ≠ '#' := by
    generalize keys.algorithm key = algorithm at hs
    cases algorithm with
    | ed25519 => exact ⟨_, _, rfl, by decide⟩
    | ecdsa curve => cases curve <;> exact ⟨_, _, rfl, by decide⟩
    | dsa => cases hs
    | rsa hash => cases hs
    | skEcdsaSha2NistP256 => cases hs
    | skEd25519 => cases hs
    | other name => cases hs
  rcases hline with rfl | ⟨comment, rfl⟩ <;> simp [hname, hc]

theorem checkLine_accept_iff (hk : keys.Lawful) (hn : keys.BytesName key wanted)
    (hs : isSupportedAlgorithm (keys.algorithm key) = true) (path : Path) (line : List Char) :
    checkLine keys path key wanted line = .accept ↔ KeyText keys key wanted line := by
  constructor
  · intro h
    obtain ⟨-, -, candidate, hparse, -, hbytes⟩ := checkLine_accept h
    rw [← fromOpenssh_matches_iff hk hn]
    exact ⟨candidate, hparse, by simp [matchesKey, hbytes]⟩
  · intro h
    obtain ⟨hne, hcomment⟩ := h.no_comment hs
    obtain ⟨base64, hline, hdecode⟩ := h
    obtain ⟨candidate, hparse, halgorithm, hbytes⟩ := hk.complete _ _ _ _ hline hdecode
    have hskip : ¬ (line.isEmpty || line.head? == some '#') = true := by simp [hne, hcomment]
    rw [checkLine, if_neg hskip]
    simp [hparse, halgorithm, hs, matchesKey, hbytes]

theorem checkLine_refuse_iff (hk : keys.Lawful) (hn : keys.BytesName key wanted)
    (path : Path) (line : List Char) :
    (∃ err, checkLine keys path key wanted line = .refuse err) ↔ Located keys key wanted line := by
  by_cases hskip : (line.isEmpty || line.head? == some '#') = true
  · -- neither an empty line nor a comment is searched
    have hno : ¬ Located keys key wanted line := by
      rintro ⟨hcomment, -, text, hfind, -⟩
      rw [Bool.or_eq_true, beq_iff_eq, or_iff_left hcomment, List.isEmpty_iff] at hskip
      simp [hskip, Text.findFrom] at hfind
    simp [checkLine, hskip, hno]
  have hcomment : line.head? ≠ some '#' := by
    intro h
    simp [h] at hskip
  rw [checkLine, if_neg hskip]
  cases hparse : keys.fromOpenssh line with
  | some candidate =>
    have hbare : BareKey keys line := by
      by_contra hno
      rw [(fromOpenssh_none_iff hk).mpr hno] at hparse
      cases hparse
    refine iff_of_false ?_ fun h => h.2.1 hbare
    rintro ⟨err, h⟩
    dsimp only at h
    split_ifs at h
  | none =>
    have hbare := (fromOpenssh_none_iff hk).mp hparse
    cases hfind : Text.findFrom ((keys.algorithm key).asStr.toList ++ [' ']) line with
    | none => simp [Located, hfind]
    | some text =>
      have hlocated : Located keys key wanted line ↔ KeyText keys key wanted text := by
        simp [Located, hcomment, hbare, hfind]
      rw [hlocated, ← fromOpenssh_matches_iff hk hn]
      cases hcandidate : keys.fromOpenssh text with
      | none => simp [hcandidate]
      | some candidate =>
        cases hmatch : matchesKey keys wanted candidate <;> simp [hcandidate, hmatch]

/-- What the search ends with, by the line that it stops at. -/
theorem scanLines_iff (hk : keys.Lawful) (hn : keys.BytesName key wanted)
    (hs : isSupportedAlgorithm (keys.algorithm key) = true) (path : Path)
    (lines : List (List Char)) :
    (scanLines keys path key wanted lines = .ok true ↔ ∃ line,
      First (Stops keys key wanted) (lines.map Text.trim) line ∧ KeyText keys key wanted line) ∧
    ((∃ err, scanLines keys path key wanted lines = .error err) ↔ ∃ line,
      First (Stops keys key wanted) (lines.map Text.trim) line ∧ Located keys key wanted line) := by
  induction lines with
  | nil => simp [scanLines, First]
  | cons line rest ih =>
    have haccept := checkLine_accept_iff hk hn hs path (Text.trim line)
    have hrefuse := checkLine_refuse_iff hk hn path (Text.trim line)
    rw [List.map_cons, scanLines]
    cases hverdict : checkLine keys path key wanted (Text.trim line) with
    | next =>
      have hstop : ¬ Stops keys key wanted (Text.trim line) := by
        rintro (hplain | hlocated)
        · rw [haccept.mpr hplain] at hverdict
          cases hverdict
        · obtain ⟨err, herr⟩ := hrefuse.mpr hlocated
          rw [herr] at hverdict
          cases hverdict
      simpa only [first_cons_of_neg hstop] using ih
    | accept =>
      have hplain := haccept.mp hverdict
      have hlocated : ¬ Located keys key wanted (Text.trim line) := fun h => h.not_keyText hplain
      simp [first_cons_of_pos (show Stops keys key wanted (Text.trim line) from .inl hplain),
        hplain, hlocated]
    | refuse err =>
      have hlocated := hrefuse.mp ⟨err, hverdict⟩
      simp [first_cons_of_pos (show Stops keys key wanted (Text.trim line) from .inr hlocated),
        hlocated, hlocated.not_keyText]

/-- The first line that names the key decides: it is accepted where it carries no options and
refused where it does. -/
def FirstLineDecides (keys : SshKeys K) (key : K) (wanted : Bytes) (lines : List (List Char))
    (result : Except String Bool) : Prop :=
  (result = .ok true ↔ ∃ line, First (NamesKey keys key wanted) lines line ∧
    KeyText keys key wanted line) ∧
  ∀ line, First (NamesKey keys key wanted) lines line → ¬ KeyText keys key wanted line →
    ∃ err, result = .error err

/-- Before a first line without options no line is located, and with a first line that carries
options the search stops at a located line. -/
def LocatesOptions (keys : SshKeys K) (key : K) (wanted : Bytes) (lines : List (List Char)) :
    Prop :=
  ∀ front line back, lines = front ++ line :: back → NamesKey keys key wanted line →
    (∀ x ∈ front, ¬ NamesKey keys key wanted x) →
    (KeyText keys key wanted line → ∀ x ∈ front, ¬ Located keys key wanted x) ∧
    (¬ KeyText keys key wanted line → ∃ x, First (Stops keys key wanted) lines x ∧
      Located keys key wanted x)

/-- The argument is about where two searches of the same lines end: the one for the first line
that names the key, and the one that the code makes. -/
theorem firstLineDecides_iff {lines : List (List Char)} {result : Except String Bool}
    (htrue : result = .ok true ↔ ∃ line, First (Stops keys key wanted) lines line ∧
      KeyText keys key wanted line)
    (herror : (∃ err, result = .error err) ↔ ∃ line, First (Stops keys key wanted) lines line ∧
      Located keys key wanted line) :
    FirstLineDecides keys key wanted lines result ↔ LocatesOptions keys key wanted lines := by
  constructor
  · rintro ⟨haccept, hrefuse⟩ front line back rfl hline hfront
    have hfirst : First (NamesKey keys key wanted) (front ++ line :: back) line :=
      ⟨front, back, rfl, hline, hfront⟩
    refine ⟨?_, fun hplain => herror.mp (hrefuse line hfirst hplain)⟩
    intro hplain x hx hlocated
    obtain ⟨y, hstop, hy⟩ := htrue.mp (haccept.mpr ⟨line, hfirst, hplain⟩)
    exact hfront y (hstop.mem_of_append hx (.inr hlocated)) (.inl hy)
  · intro hlocates
    refine ⟨htrue.trans ⟨?_, ?_⟩, ?_⟩
    · rintro ⟨x, hstop, hx⟩
      have hmem : x ∈ lines := by
        obtain ⟨front, back, rfl, -⟩ := hstop
        simp
      obtain ⟨line, hfirst⟩ := exists_first (P := NamesKey keys key wanted) hmem (.inl hx)
      refine ⟨line, hfirst, ?_⟩
      by_contra hplain
      obtain ⟨front, back, hlines, hline, hfront⟩ := hfirst
      obtain ⟨y, hstop', hy⟩ := (hlocates front line back hlines hline hfront).2 hplain
      rw [hstop.unique hstop'] at hx
      exact hy.not_keyText hx
    · rintro ⟨line, ⟨front, back, hlines, hline, hfront⟩, hplain⟩
      obtain ⟨hnone, -⟩ := hlocates front line back hlines hline hfront
      refine ⟨line, ⟨front, back, hlines, .inl hplain, ?_⟩, hplain⟩
      rintro x hx (hkey | hlocated)
      · exact hfront x hx (.inl hkey)
      · exact hnone hplain x hx hlocated
    · rintro line ⟨front, back, hlines, hline, hfront⟩ hplain
      exact herror.mpr ((hlocates front line back hlines hline hfront).2 hplain)

/-- Options are never bypassed exactly where each first occurrence of the algorithm's name is
where it should be. -/
theorem options_not_bypassed_iff (hk : keys.Lawful) (hn : keys.BytesName key wanted)
    (hs : isSupportedAlgorithm (keys.algorithm key) = true)
    (hwanted : keys.toBytes key = .ok wanted) {host : Host} {user : String}
    {overridePath : Option Path} {path : Path} {data : Bytes} {text : List Char}
    (hpath : authorizedKeysPath host user overridePath = .ok path)
    (hopen : host.openFile path = .bytes data) (hread : readAuthorizedKeys path data = .ok text) :
    FirstLineDecides keys key wanted ((Text.lines text).map Text.trim)
        (isAuthorized keys host user key overridePath) ↔
      LocatesOptions keys key wanted ((Text.lines text).map Text.trim) := by
  have hresult : isAuthorized keys host user key overridePath =
      scanLines keys path key wanted (Text.lines text) := by
    simp only [isAuthorized, hpath, hopen, hread, searchText, hwanted]
  rw [hresult]
  obtain ⟨htrue, herror⟩ := scanLines_iff hk hn hs path (Text.lines text)
  exact firstLineDecides_iff htrue herror

/-- A host with one file of keys. -/
def fileHost (text : List Char) : Host where
  isRoot := true
  currentUsername := "root"
  homeForUser := fun _ => .ok none
  openFile := fun _ => .bytes (Utf8.encode text)

def aliceLine : List Char :=
  "ssh-ed25519 AAAAC3NzaC1lZDI1NTE5AAAAIAcHBwcHBwcHBwcHBwcHBwcHBwcHBwcHBwcHBwcHBwcH".toList

/-- Alice's key, restricted to a command. -/
def restricted (command : String) : List Char :=
  "command=\"".toList ++ command.toList ++ "\" ".toList ++ aliceLine

theorem alice_bytesName : KeyLine.keys.BytesName alice.peerKey alice.peerKey.blob :=
  KeyLine.keys_bytesName (by decide) (by decide) (by decide)

theorem alice_keyText : KeyText KeyLine.keys alice.peerKey alice.peerKey.blob aliceLine :=
  ⟨aliceLine.drop 12, .inl rfl, rfl⟩

/-- A command that says nothing of keys is found, and its line refused. -/
theorem options_not_bypassed_iff_command :
    FirstLineDecides KeyLine.keys alice.peerKey alice.peerKey.blob
      ((Text.lines (restricted "nope")).map Text.trim)
      (isAuthorized KeyLine.keys (fileHost (restricted "nope")) "alice" alice.peerKey
        (some [])) := by
  have hopen : (fileHost (restricted "nope")).openFile [] =
      .bytes (Utf8.encode (restricted "nope")) := rfl
  have hread : readAuthorizedKeys [] (Utf8.encode (restricted "nope")) =
      .ok (restricted "nope") :=
    readAuthorizedKeys_ok_iff.mpr ⟨by decide +kernel, Utf8.decode_encode _⟩
  have hlines : (Text.lines (restricted "nope")).map Text.trim = [restricted "nope"] := by
    decide +kernel
  refine (options_not_bypassed_iff KeyLine.keys_lawful alice_bytesName rfl rfl rfl hopen
    hread).mpr ?_
  have hparse : KeyLine.keys.fromOpenssh (restricted "nope") = none := by decide +kernel
  have hfind : Text.findFrom (alice.peerKey.algorithm.asStr.toList ++ [' ']) (restricted "nope") =
      some aliceLine := by decide +kernel
  have hlocated : Located KeyLine.keys alice.peerKey alice.peerKey.blob (restricted "nope") :=
    ⟨by decide, (fromOpenssh_none_iff KeyLine.keys_lawful).mp hparse, _, hfind, alice_keyText⟩
  rw [hlines]
  intro front line back hsplit hline hfront
  obtain ⟨rfl, rfl, rfl⟩ : front = [] ∧ line = restricted "nope" ∧ back = [] := by
    cases front with
    | nil =>
      obtain ⟨hline, hback⟩ := List.cons.inj hsplit
      exact ⟨rfl, hline.symm, hback.symm⟩
    | cons x front => simp at hsplit
  exact ⟨by simp, fun _ => ⟨_, (first_cons_of_pos (.inr hlocated)).mpr rfl, hlocated⟩⟩

/-- A command that mentions the algorithm hides the key behind it, and a later line without
options lets the key in. -/
theorem options_bypassed :
    let text := restricted "ssh-ed25519 x" ++ '\n' :: aliceLine
    First (NamesKey KeyLine.keys alice.peerKey alice.peerKey.blob)
      ((Text.lines text).map Text.trim) (restricted "ssh-ed25519 x") ∧
    ¬ KeyText KeyLine.keys alice.peerKey alice.peerKey.blob (restricted "ssh-ed25519 x") ∧
    isAuthorized KeyLine.keys (fileHost text) "alice" alice.peerKey (some []) = .ok true := by
  intro text
  have hlines : (Text.lines text).map Text.trim = [restricted "ssh-ed25519 x", aliceLine] := by
    decide +kernel
  refine ⟨?_, ?_, by decide +kernel⟩
  · rw [hlines]
    refine (first_cons_of_pos (.inr ⟨by decide, "command=\"ssh-ed25519 x\"".toList, [' '],
      aliceLine, rfl, by decide, by simp, by simp, alice_keyText⟩)).mpr rfl
  · rintro ⟨base64, hline, -⟩
    have hhead : (restricted "ssh-ed25519 x").head? = some 's' := by
      rcases hline with h | ⟨comment, h⟩ <;> rw [h] <;> rfl
    exact absurd hhead (by decide)

end Hush.Auth
