import Hush.SshConfig.Values

/-! The notations of a port forward, on the command line and in `ssh_config`. -/
namespace Hush.Cli
open Hush.Lib Hush.SshConfig

structure ForwardArg where
  listenHost : List Char
  listenPort : UInt16
  targetHost : List Char
  targetPort : UInt16
  deriving DecidableEq, Repr

-- cli.rs has copies of these two functions of config.rs, with the same bodies

def splitColonBracketed (input : List Char) : List (List Char) := splitColonFrom [] [] 0 input

def unbracketHost (host : List Char) : List Char := SshConfig.unbracketHost host

def portOf (message : String) (port : List Char) : Except String UInt16 :=
  match parsePort port with
  | some port => .ok port
  | none => .error message

def parseForward (s : List Char) : Except String ForwardArg :=
  match splitColonBracketed s with
  | [lp, th, tp] => do
    return ⟨localhost, ← portOf "bad listen port" lp, unbracketHost th,
      ← portOf "bad target port" tp⟩
  | [lh, lp, th, tp] => do
    return ⟨unbracketHost lh, ← portOf "bad listen port" lp, unbracketHost th,
      ← portOf "bad target port" tp⟩
  | _ => .error "expected [listen_host:]listen_port:target_host:target_port"

/-- A host in a forward: one with a colon is in brackets, any other may be. -/
inductive WrittenHost (host : List Char) : List Char → Prop
  | bare (hcolon : ':' ∉ host) : WrittenHost host host
  | bracketed : WrittenHost host ('[' :: (host ++ [']']))

abbrev NoBrackets (host : List Char) : Prop := '[' ∉ host ∧ ']' ∉ host

/-- The listening side: the parts that are written, with or without a host. -/
inductive WrittenListen (port : List Char) : List Char → List (List Char) → Prop
  | omitted : WrittenListen port localhost [port]
  | host {host text : List Char} (hb : NoBrackets host) (hw : WrittenHost host text) :
      WrittenListen port host [text, port]

def colons (parts : List (List Char)) : List Char := [':'].intercalate parts

/-- Text without a colon at depth 0, which leaves the depth as it is. -/
def Segment (text : List Char) : Prop :=
  ∀ parts current rest, splitColonFrom parts current 0 (text ++ rest) =
    splitColonFrom parts (current ++ text) 0 rest

/-- No character of the text is one that a splitter acts on at this depth. -/
theorem NoBrackets.skips {text : List Char} {depth : Nat} (hb : NoBrackets text)
    (hcolon : ':' ∈ text → depth ≠ 0) {c : Char} (hc : c ∈ text) :
    c ≠ '[' ∧ c ≠ ']' ∧ ¬ (c = ':' ∧ depth = 0) := by
  refine ⟨ne_of_mem_of_not_mem hc hb.1, ne_of_mem_of_not_mem hc hb.2, ?_⟩
  rintro ⟨rfl, hdepth⟩
  exact hcolon hc hdepth

theorem splitColonFrom_plain {text : List Char} {depth : Nat} (hb : NoBrackets text)
    (hcolon : ':' ∈ text → depth ≠ 0) (parts : List (List Char)) (current rest : List Char) :
    splitColonFrom parts current depth (text ++ rest) =
      splitColonFrom parts (current ++ text) depth rest := by
  refine Text.scan_append (f := fun current => splitColonFrom parts current depth) ?_ ..
  intro c hc current rest
  obtain ⟨hopen, hclose, hskip⟩ := hb.skips hcolon hc
  rw [splitColonFrom, if_neg hopen, if_neg hclose, if_neg hskip]

theorem WrittenHost.segment {host text : List Char} (h : WrittenHost host text)
    (hb : NoBrackets host) : Segment text := by
  intro parts current rest
  cases h with
  | bare hcolon => exact splitColonFrom_plain hb (fun h => absurd h hcolon) ..
  | bracketed =>
    rw [List.cons_append, splitColonFrom, if_pos rfl, List.append_assoc,
      splitColonFrom_plain hb (by simp), List.singleton_append, splitColonFrom]
    simp

theorem WrittenHost.unbracket {host text : List Char} (h : WrittenHost host text)
    (hb : NoBrackets host) : SshConfig.unbracketHost text = host := by
  cases h with
  | bare hcolon =>
    unfold SshConfig.unbracketHost
    split
    · exact absurd (List.mem_cons_self ..) hb.1
    · rfl
  | bracketed => simp [SshConfig.unbracketHost]

/-- The splitter gives back what was joined by colons. -/
theorem split_colons {parts : List (List Char)} (hne : parts ≠ [])
    (hparts : ∀ p ∈ parts, Segment p) : SshConfig.splitColonBracketed (colons parts) = parts := by
  suffices h : ∀ before, splitColonFrom before [] 0 (colons parts) = before ++ parts by
    exact h []
  induction parts with
  | nil => contradiction
  | cons p parts ih =>
    intro before
    obtain ⟨hp, hrest⟩ := List.forall_mem_cons.mp hparts
    cases parts with
    | nil =>
      have := hp before [] []
      simpa [colons, splitColonFrom] using this
    | cons q parts =>
      have hjoin : colons (p :: q :: parts) = p ++ ':' :: colons (q :: parts) := by
        simp [colons, List.intercalate_cons_cons]
      rw [hjoin, hp, splitColonFrom]
      simpa using ih (by simp) hrest (before ++ [p])

theorem notMem_of_parsePort {text : List Char} {port : UInt16} (h : parsePort text = some port)
    {c : Char} (hc : c.isDigit = false) (hplus : c ≠ '+') : c ∉ text := by
  obtain ⟨n, hn, -⟩ := Option.map_eq_some_iff.mp h
  exact Text.notMem_of_parseUnsigned hn hc hplus

theorem segment_port {text : List Char} {port : UInt16} (h : parsePort text = some port) :
    Segment text := by
  have hb : NoBrackets text :=
    ⟨notMem_of_parsePort h rfl (by decide), notMem_of_parsePort h rfl (by decide)⟩
  have hcolon : ':' ∉ text := notMem_of_parsePort h rfl (by decide)
  intro parts current rest
  exact splitColonFrom_plain hb (fun h => absurd h hcolon) ..

/-- The arguments of a `LocalForward` or `RemoteForward` directive stand for a forward. -/
def Stands (args : List (List Char)) (forward : SshForward) : Prop :=
  ∀ env value, env.split value = some args → parseSshForward env value = .ok forward

section Notations
variable {listenHost targetHost targetText lp tp : List Char} {listen : List (List Char)}
  {listenPort targetPort : UInt16}

theorem WrittenListen.segments (h : WrittenListen lp listenHost listen)
    (hlp : parsePort lp = some listenPort) : listen ≠ [] ∧ ∀ p ∈ listen, Segment p := by
  cases h with
  | omitted => simpa using segment_port hlp
  | host hb hw => simpa using ⟨hw.segment hb, segment_port hlp⟩

theorem WrittenListen.endpoint (h : WrittenListen lp listenHost listen)
    (hlp : parsePort lp = some listenPort) :
    parseListenEndpoint (colons listen) = .ok (listenHost, listenPort) := by
  obtain ⟨hne, hsegments⟩ := h.segments hlp
  rw [parseListenEndpoint, split_colons hne hsegments]
  cases h with
  | omitted => simp [listenPortOf, hlp, ofOption, pure, Except.pure]
  | host hb hw => simp [listenPortOf, hlp, ofOption, hw.unbracket hb, pure, Except.pure]

theorem parseForward_colons (hl : WrittenListen lp listenHost listen)
    (hb : NoBrackets targetHost) (hw : WrittenHost targetHost targetText)
    (hlp : parsePort lp = some listenPort) (htp : parsePort tp = some targetPort) :
    parseForward (colons (listen ++ [targetText, tp])) =
        .ok ⟨listenHost, listenPort, targetHost, targetPort⟩ ∧
      parseColonForward (colons (listen ++ [targetText, tp])) =
        .ok ⟨listenHost, listenPort, targetHost, targetPort⟩ := by
  have hsplit : SshConfig.splitColonBracketed (colons (listen ++ [targetText, tp])) =
      listen ++ [targetText, tp] := by
    refine split_colons (by simp) fun p hp => ?_
    rcases List.mem_append.mp hp with hp | hp
    · exact (hl.segments hlp).2 p hp
    · rcases List.mem_pair.mp hp with rfl | rfl
      exacts [hw.segment hb, segment_port htp]
  rw [parseForward, splitColonBracketed, ← SshConfig.splitColonBracketed, parseColonForward, hsplit]
  cases hl with
  | omitted =>
    simp [portOf, listenPortOf, targetPortOf, ofOption, hlp, htp, unbracketHost, hw.unbracket hb,
      pure, Except.pure, bind, Except.bind]
  | host hlb hlw =>
    simp [portOf, listenPortOf, targetPortOf, ofOption, hlp, htp, unbracketHost, hw.unbracket hb,
      hlw.unbracket hlb, pure, Except.pure, bind, Except.bind]

theorem targetEndpoint (hb : NoBrackets targetHost) (hw : WrittenHost targetHost targetText)
    (htp : parsePort tp = some targetPort) :
    parseTargetEndpoint (colons [targetText, tp]) = .ok (targetHost, targetPort) := by
  have hsplit : SshConfig.splitColonBracketed (colons [targetText, tp]) = [targetText, tp] :=
    split_colons (by simp) (by simpa using ⟨hw.segment hb, segment_port htp⟩)
  rw [parseTargetEndpoint, hsplit]
  simp [targetPortOf, ofOption, htp, hw.unbracket hb, pure, Except.pure]

/-- Every notation of a forward, with the host to listen on or without it, means the same. -/
theorem forward_notations_agree (hl : WrittenListen lp listenHost listen)
    (hb : NoBrackets targetHost) (hw : WrittenHost targetHost targetText)
    (hlp : parsePort lp = some listenPort) (htp : parsePort tp = some targetPort) :
    parseForward (colons (listen ++ [targetText, tp])) =
        .ok ⟨listenHost, listenPort, targetHost, targetPort⟩ ∧
      Stands [colons (listen ++ [targetText, tp])]
        ⟨listenHost, listenPort, targetHost, targetPort⟩ ∧
      Stands [colons listen, colons [targetText, tp]]
        ⟨listenHost, listenPort, targetHost, targetPort⟩ ∧
      Stands [colons listen, targetText, tp]
        ⟨listenHost, listenPort, targetHost, targetPort⟩ := by
  obtain ⟨hcli, hcolon⟩ := parseForward_colons hl hb hw hlp htp
  have hlisten := hl.endpoint hlp
  refine ⟨hcli, ?_, ?_, ?_⟩ <;> intro env value hsplit <;>
    simp only [parseSshForward, hsplit, ofOption, ok_bind]
  · exact hcolon
  · simp only [hlisten, targetEndpoint hb hw htp, ok_bind]
    rfl
  · simp only [hlisten, targetPortOf, htp, ofOption, hw.unbracket hb, ok_bind]
    rfl

theorem forward_to_ipv6_agrees :
    colons (["80".toList] ++ ["[::1]".toList, "443".toList]) = "80:[::1]:443".toList ∧
      parseForward (colons (["80".toList] ++ ["[::1]".toList, "443".toList])) =
        .ok ⟨"127.0.0.1".toList, 80, "::1".toList, 443⟩ := by
  have htarget : WrittenHost "::1".toList "[::1]".toList := .bracketed
  exact ⟨by decide, (forward_notations_agree .omitted (by decide) htarget (by decide)
    (by decide)).1⟩

end Notations

end Hush.Cli
