import Hush.Cli.Forward

/-! The targets of a connection and of a copy: `[user@]host[:port]` and what `hcp` makes of
`[user@]host[:port]:path`. -/
namespace Hush.Cli
open Hush.Lib Hush.SshConfig

structure Target where
  user : Option (List Char)
  host : List Char
  hostAlias : List Char
  port : Option UInt16
  deriving DecidableEq, Repr

/-- `port.parse()?` into an optional port. -/
def somePort (port : List Char) : Except String (Option UInt16) :=
  match parsePort port with
  | some port => .ok (some port)
  | none => .error (Text.parseIntError 16 port)

def parseBracketedHost (rest : List Char) : Except String (List Char × Option UInt16) :=
  match Text.splitOnce ']' rest with
  | none => .error "missing closing ']' in IPv6 host"
  | some (host, []) => .ok (host, none)
  | some (host, ':' :: port) => do return (host, ← somePort port)
  | some _ => .error "unexpected text after bracketed host"

def parseBareHost (input : List Char) : Except String (List Char × Option UInt16) :=
  match Text.rsplitOnce ':' input with
  | some (host, port) =>
    if host ≠ [] ∧ ':' ∉ host then do return (host, ← somePort port) else .ok (input, none)
  | none => .ok (input, none)

def parseOptionalHostPort (input : List Char) : Except String (List Char × Option UInt16) :=
  match input with
  | '[' :: rest => parseBracketedHost rest
  | _ => parseBareHost input

def Target.parse (input : List Char) (portOverride : Option UInt16) : Except String Target := do
  let (user, rest) := match Text.rsplitOnce '@' input with
    | some (user, rest) => (some user, rest)
    | none => (none, input)
  let (host, port) ← parseOptionalHostPort rest
  return ⟨user, host, host, portOverride.or port⟩

/-- Any text that reads as a port number may stand for it. -/
inductive WrittenPort : Option UInt16 → List Char → Prop
  | omitted : WrittenPort none []
  | given {port : UInt16} {text : List Char} (h : parsePort text = some port) :
      WrittenPort (some port) (':' :: text)

/-- The documented forms of a host with an optional port. -/
inductive WrittenTarget (host : List Char) : Option UInt16 → List Char → Prop
  | name {port : Option UInt16} {suffix : List Char} (hne : host ≠ []) (hcolon : ':' ∉ host)
      (hat : '@' ∉ host) (hopen : host.head? ≠ some '[') (hport : WrittenPort port suffix) :
      WrittenTarget host port (host ++ suffix)
  | bracketed {port : Option UInt16} {suffix : List Char} (hclose : ']' ∉ host)
      (hat : '@' ∉ host) (hport : WrittenPort port suffix) :
      WrittenTarget host port ('[' :: (host ++ ']' :: suffix))
  | bare (hcolons : 2 ≤ host.count ':') (hat : '@' ∉ host) (hopen : host.head? ≠ some '[') :
      WrittenTarget host none host

/-- `user@`, if there is a user. -/
def userText (user : Option (List Char)) : List Char := user.elim [] (· ++ ['@'])

theorem WrittenPort.notMem {port : Option UInt16} {suffix : List Char}
    (h : WrittenPort port suffix) {c : Char} (hc : c.isDigit = false) (hplus : c ≠ '+')
    (hcolon : c ≠ ':') : c ∉ suffix := by
  cases h with
  | omitted => simp
  | given h =>
    have := notMem_of_parsePort h hc hplus
    simp [hcolon, this]

theorem parseBracketedHost_append {host : List Char} (hclose : ']' ∉ host)
    {port : Option UInt16} {suffix : List Char} (h : WrittenPort port suffix) :
    parseBracketedHost (host ++ ']' :: suffix) = .ok (host, port) := by
  rw [parseBracketedHost, Text.splitOnce_append hclose]
  cases h with
  | omitted => rfl
  | given h => simp [somePort, h, bind, Except.bind, pure, Except.pure]

/-- After a bracketed host only a port is accepted. -/
theorem parseBracketedHost_error {host suffix : List Char} (hclose : ']' ∉ host)
    (h : ∀ port, ¬ WrittenPort port suffix) :
    ∃ e, parseBracketedHost (host ++ ']' :: suffix) = .error e := by
  rw [parseBracketedHost, Text.splitOnce_append hclose]
  cases suffix with
  | nil => exact absurd .omitted (h none)
  | cons c text =>
    by_cases hc : c = ':'
    · subst hc
      cases hport : parsePort text with
      | some port => exact absurd (.given hport) (h (some port))
      | none => simp [somePort, hport, bind, Except.bind]
    · simp [hc]

theorem parseBareHost_name {host : List Char} (hne : host ≠ []) (hcolon : ':' ∉ host)
    {port : Option UInt16} {suffix : List Char} (h : WrittenPort port suffix) :
    parseBareHost (host ++ suffix) = .ok (host, port) := by
  cases h with
  | omitted => simp [parseBareHost, Text.rsplitOnce_eq_none hcolon]
  | @given port text h =>
    have htext : ':' ∉ text := notMem_of_parsePort h rfl (by decide)
    rw [parseBareHost, Text.rsplitOnce_append htext]
    simp [hne, hcolon, somePort, h, bind, Except.bind, pure, Except.pure]

/-- With two colons or more there is a colon before the last one, so no port is split off. -/
theorem parseBareHost_colons {host : List Char} (h : 2 ≤ host.count ':') :
    parseBareHost host = .ok (host, none) := by
  have hmem : ':' ∈ host := List.count_pos_iff.mp (by omega)
  obtain ⟨a, b, rfl, hb⟩ := Text.exists_rsplit hmem
  have ha : ':' ∈ a := by
    rw [List.count_append, List.count_cons_self, List.count_eq_zero_of_not_mem hb] at h
    exact List.count_pos_iff.mp (by omega)
  simp [parseBareHost, Text.rsplitOnce_append hb, ha]

theorem parseOptionalHostPort_bare {input : List Char} (h : input.head? ≠ some '[') :
    parseOptionalHostPort input = parseBareHost input := by
  unfold parseOptionalHostPort
  split
  · simp at h
  · rfl

theorem WrittenTarget.notMem {host text : List Char} {port : Option UInt16}
    (h : WrittenTarget host port text) : '@' ∉ text := by
  cases h with
  | name _ _ hat _ hport => simpa [hat] using hport.notMem rfl (by decide) (by decide)
  | bracketed _ hat hport => simpa [hat] using hport.notMem rfl (by decide) (by decide)
  | bare _ hat _ => exact hat

theorem WrittenTarget.parse {host text : List Char} {port : Option UInt16}
    (h : WrittenTarget host port text) : parseOptionalHostPort text = .ok (host, port) := by
  cases h with
  | name hne hcolon _ hopen hport =>
    rw [parseOptionalHostPort_bare (by simpa [List.head?_append_of_ne_nil _ hne] using hopen),
      parseBareHost_name hne hcolon hport]
  | bracketed hclose _ hport => exact parseBracketedHost_append hclose hport
  | bare hcolons _ hopen => rw [parseOptionalHostPort_bare hopen, parseBareHost_colons hcolons]

/-- The user is what stands before the last `@`. -/
theorem parse_userText {rest : List Char} (hat : '@' ∉ rest) (user : Option (List Char))
    (portOverride : Option UInt16) :
    Target.parse (userText user ++ rest) portOverride = do
      let (host, port) ← parseOptionalHostPort rest
      return ⟨user, host, host, portOverride.or port⟩ := by
  cases user with
  | none => simp [Target.parse, userText, Text.rsplitOnce_eq_none hat]
  | some user => simp [Target.parse, userText, Text.rsplitOnce_append hat]

theorem parse_target {host text : List Char} {port : Option UInt16}
    (h : WrittenTarget host port text) (user : Option (List Char))
    (portOverride : Option UInt16) :
    Target.parse (userText user ++ text) portOverride =
      .ok ⟨user, host, host, portOverride.or port⟩ := by
  rw [parse_userText h.notMem, h.parse]
  rfl

/-- Every documented form is read back, and nothing but a port may follow a bracketed host. -/
theorem target_parse_inverts (user : Option (List Char)) (portOverride : Option UInt16) :
    (∀ host port text, WrittenTarget host port text →
      Target.parse (userText user ++ text) portOverride =
        .ok ⟨user, host, host, portOverride.or port⟩) ∧
      ∀ host suffix, ']' ∉ host → '@' ∉ host → '@' ∉ suffix →
        (∀ port, ¬ WrittenPort port suffix) →
        ∃ e, Target.parse (userText user ++ '[' :: (host ++ ']' :: suffix)) portOverride =
          .error e := by
  refine ⟨fun host port text h => parse_target h user portOverride, ?_⟩
  intro host suffix hclose hat hsuffix hport
  obtain ⟨e, he⟩ := parseBracketedHost_error hclose hport
  refine ⟨e, ?_⟩
  rw [parse_userText (by simp [hat, hsuffix])]
  simp [parseOptionalHostPort, he, bind, Except.bind]

theorem target_with_at_in_user :
    Target.parse "a@b@[::1]:22".toList none = .ok ⟨some "a@b".toList, "::1".toList, "::1".toList,
      some 22⟩ := by
  have h : WrittenTarget "::1".toList (some 22) "[::1]:22".toList :=
    .bracketed (by decide) (by decide) (.given (by decide))
  exact (target_parse_inverts (some "a@b".toList) none).1 _ _ _ h

/-! `hcp` -/

structure RemotePath where
  target : Target
  path : Path
  deriving DecidableEq, Repr

inductive CopyPath
  | localPath (path : Path)
  | remote (path : RemotePath)
  deriving DecidableEq, Repr

/-- The loop of `split_remote`, with what came before and the depth of the brackets. -/
def splitRemoteFrom (before : List Char) (depth : Nat) :
    List Char → Option (List Char × List Char)
  | [] => none
  | c :: rest =>
    if c = '[' then splitRemoteFrom (before ++ [c]) (depth + 1) rest
    else if c = ']' then splitRemoteFrom (before ++ [c]) (depth - 1) rest
    else if c = ':' ∧ depth = 0 then if before = [] then none else some (before, rest)
    else splitRemoteFrom (before ++ [c]) depth rest

def splitRemote (input : List Char) : Option (List Char × List Char) :=
  if ["/", "./", "../"].any fun start => start.toList.isPrefixOf input then none
  else splitRemoteFrom [] 0 input

def parseCopyPath (input : List Char) (portOverride : Option UInt16) : Except String CopyPath :=
  match splitRemote input with
  | some (target, path) => do
    return .remote ⟨← Target.parse target portOverride, Utf8.encode path⟩
  | none => .ok (.localPath (Utf8.encode input))

/-- A name, or a literal in brackets. -/
inductive RemoteHost (host : List Char) : List Char → Prop
  | name (hne : host ≠ []) (h : ∀ c ∈ ['@', ':', '/', '[', ']'], c ∉ host) : RemoteHost host host
  | literal (h : ∀ c ∈ ['@', '/', '[', ']'], c ∉ host) :
      RemoteHost host ('[' :: (host ++ [']']))

/-- `port:`, if there is a port. -/
def portText (port : Option UInt16) : List Char :=
  port.elim [] fun port => Nat.toDigits 10 port.toNat ++ [':']

theorem splitRemoteFrom_plain {text : List Char} {depth : Nat} (hb : NoBrackets text)
    (hcolon : ':' ∈ text → depth ≠ 0) (before rest : List Char) :
    splitRemoteFrom before depth (text ++ rest) =
      splitRemoteFrom (before ++ text) depth rest := by
  refine Text.scan_append (f := fun before => splitRemoteFrom before depth) ?_ ..
  intro c hc before rest
  obtain ⟨hopen, hclose, hskip⟩ := hb.skips hcolon hc
  rw [splitRemoteFrom, if_neg hopen, if_neg hclose, if_neg hskip]

theorem RemoteHost.splitRemoteFrom {host hostText : List Char} (h : RemoteHost host hostText)
    (before rest : List Char) :
    splitRemoteFrom before 0 (hostText ++ ':' :: rest) = some (before ++ hostText, rest) := by
  cases h with
  | name hne h =>
    have hb : NoBrackets host := ⟨h _ (by simp), h _ (by simp)⟩
    rw [splitRemoteFrom_plain hb fun hcolon => absurd hcolon (h _ (by simp))]
    simp [Cli.splitRemoteFrom, hne]
  | literal h =>
    have hb : NoBrackets host := ⟨h _ (by simp), h _ (by simp)⟩
    rw [List.cons_append, Cli.splitRemoteFrom, if_pos rfl, List.append_assoc,
      splitRemoteFrom_plain hb (by simp)]
    simp [Cli.splitRemoteFrom]

theorem RemoteHost.slash_notMem {host hostText : List Char} (h : RemoteHost host hostText) :
    '/' ∉ hostText := by
  cases h with
  | name hne h => exact h _ (by simp)
  | literal h => simpa using h '/' (by simp)

theorem RemoteHost.writtenTarget {host hostText : List Char} (h : RemoteHost host hostText) :
    WrittenTarget host none hostText := by
  cases h with
  | name hne h =>
    have hopen : host.head? ≠ some '[' := fun he => h '[' (by simp) (List.mem_of_mem_head? he)
    simpa using WrittenTarget.name hne (h _ (by simp)) (h _ (by simp)) hopen .omitted
  | literal h => exact .bracketed (h _ (by simp)) (h _ (by simp)) .omitted

theorem not_isPrefixOf {c d : Char} {start text : List Char} (hc : c ∉ start) (hd : d ∈ start)
    (htext : d ∉ text) (rest : List Char) : start.isPrefixOf (text ++ c :: rest) = false := by
  rw [Bool.eq_false_iff, ne_eq, List.isPrefixOf_iff_prefix]
  intro h
  have hcut : text ++ [c] <+: text ++ c :: rest := by simp
  rcases List.prefix_or_prefix_of_prefix h hcut with h | h
  · rcases List.mem_append.mp (h.subset hd) with hmem | hmem
    · exact htext hmem
    · exact hc (List.mem_singleton.mp hmem ▸ hd)
  · exact hc (h.subset (by simp))

section CopyPath
variable {user : Option (List Char)} {host hostText : List Char}
  (huser : ∀ u ∈ user, ∀ c ∈ [':', '/', '[', ']'], c ∉ u) (hhost : RemoteHost host hostText)
include huser

theorem notMem_userText {c : Char} (hc : c ∈ [':', '/', '[', ']']) : c ∉ userText user := by
  cases user with
  | none => simp [userText]
  | some u =>
    have hu := huser u rfl c hc
    have hat : c ≠ '@' := by rintro rfl; exact absurd hc (by decide)
    simp [userText, hu, hat]

include hhost

/-- The cut is at the first colon outside brackets, the one right after the host. -/
theorem splitRemote_target (rest : List Char) :
    splitRemote (userText user ++ hostText ++ ':' :: rest) =
      some (userText user ++ hostText, rest) := by
  have hslash : '/' ∉ userText user ++ hostText := by
    simpa using ⟨notMem_userText huser (by simp), hhost.slash_notMem⟩
  have hlocal : (["/", "./", "../"].any fun start =>
      start.toList.isPrefixOf (userText user ++ hostText ++ ':' :: rest)) = false := by
    simp only [List.any_cons, List.any_nil, Bool.or_false, Bool.or_eq_false_iff]
    refine ⟨?_, ?_, ?_⟩ <;> exact not_isPrefixOf (by decide) (by decide) hslash rest
  have hb : NoBrackets (userText user) :=
    ⟨notMem_userText huser (by simp), notMem_userText huser (by simp)⟩
  rw [splitRemote, hlocal, if_neg Bool.false_ne_true, List.append_assoc,
    splitRemoteFrom_plain hb fun h => absurd h (notMem_userText huser (by simp)),
    hhost.splitRemoteFrom, List.nil_append]

theorem parseCopyPath_target (rest : List Char) :
    parseCopyPath (userText user ++ hostText ++ ':' :: rest) none =
      .ok (.remote ⟨⟨user, host, host, none⟩, Utf8.encode rest⟩) := by
  rw [parseCopyPath, splitRemote_target huser hhost]
  simp only [parse_target hhost.writtenTarget]
  rfl

/-- A copy path in the documented syntax means what it says if and only if it names no port:
a port becomes the start of the path. -/
theorem copy_path_exact_iff (port : Option UInt16) (path : List Char) :
    parseCopyPath (userText user ++ hostText ++ ':' :: (portText port ++ '/' :: path)) none =
        .ok (.remote ⟨⟨user, host, host, port⟩, Utf8.encode ('/' :: path)⟩) ↔
      port = none := by
  rw [parseCopyPath_target huser hhost]
  cases port <;> simp [portText]

end CopyPath

theorem copy_path_without_port :
    parseCopyPath "me@host:/x".toList none =
      .ok (.remote ⟨⟨some "me".toList, "host".toList, "host".toList, none⟩,
        Utf8.encode "/x".toList⟩) := by
  have huser : ∀ u ∈ some "me".toList, ∀ c ∈ [':', '/', '[', ']'], c ∉ u := by simp
  have hhost : RemoteHost "host".toList "host".toList := .name (by simp) (by simp)
  exact (copy_path_exact_iff huser hhost none "x".toList).mpr rfl

theorem copy_path_with_port :
    parseCopyPath "host:22:/x".toList none =
      .ok (.remote ⟨⟨none, "host".toList, "host".toList, none⟩, Utf8.encode "22:/x".toList⟩) := by
  decide

end Hush.Cli
