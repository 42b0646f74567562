import Hush.SshConfig.Hosts
import Hush.SshConfig.Lines
import Hush.SshConfig.Values
import Mathlib.Data.List.Induction

/-! `parse_ssh_config`: the first value wins, over the blocks that match. -/
namespace Hush.SshConfig
open Hush.Lib

inductive Keyword
  | host
  | user
  | hostname
  | port
  | identityFile
  | identityAgent
  | forwardAgent
  | setEnv
  | localForward
  | remoteForward
  | unknown
  deriving DecidableEq, Repr

def keywords : List (String × Keyword) :=
  [("host", .host), ("user", .user), ("hostname", .hostname), ("port", .port),
    ("identityfile", .identityFile), ("identityagent", .identityAgent),
    ("forwardagent", .forwardAgent), ("setenv", .setEnv), ("localforward", .localForward),
    ("remoteforward", .remoteForward)]

def Keyword.ofKey (key : List Char) : Keyword :=
  match keywords.find? fun entry => entry.1.toList = key with
  | some entry => entry.2
  | none => .unknown

structure Directive where
  keyword : Keyword
  value : List Char
  deriving DecidableEq, Repr

def directive (raw : List Char) : Option Directive :=
  (keyValue raw).map fun (key, value) => ⟨.ofKey key, value⟩

structure SshHostConfig where
  user : Option (List Char)
  hostname : Option (List Char)
  port : Option UInt16
  identityFile : Option Path
  identityAgent : Option IdentityAgent
  forwardAgent : Option ForwardAgent
  setEnv : List EnvVar
  localForwards : List SshForward
  remoteForwards : List SshForward
  deriving DecidableEq, Repr

def SshHostConfig.default : SshHostConfig := ⟨none, none, none, none, none, none, [], [], []⟩

variable (env : Env) (hostAlias : List Char)

/-- The effect of a directive in a block that matches. A value that is there is kept. -/
def SshHostConfig.apply (cfg : SshHostConfig) (d : Directive) : Except Chain SshHostConfig :=
  match d.keyword with
  | .user => .ok { cfg with user := cfg.user.or (some d.value) }
  | .hostname => .ok { cfg with hostname := cfg.hostname.or (some d.value) }
  | .port => .ok { cfg with port := cfg.port.or (parsePort d.value) }
  | .identityFile =>
    .ok { cfg with identityFile := cfg.identityFile.or (some (expandHome env d.value)) }
  | .identityAgent =>
    .ok { cfg with identityAgent := cfg.identityAgent.or (parseIdentityAgent env d.value) }
  | .forwardAgent =>
    .ok { cfg with forwardAgent := cfg.forwardAgent.or (parseForwardAgent env d.value) }
  | .setEnv =>
    if cfg.setEnv = [] then do
      return { cfg with setEnv := ← context "parse SetEnv" (parseSetEnv env d.value) }
    else .ok cfg
  | .localForward => do
    let forward ← context s!"parse LocalForward {env.debug d.value}" (parseSshForward env d.value)
    return { cfg with localForwards := cfg.localForwards ++ [forward] }
  | .remoteForward => do
    let forward ← context s!"parse RemoteForward {env.debug d.value}" (parseSshForward env d.value)
    return { cfg with remoteForwards := cfg.remoteForwards ++ [forward] }
  | .host | .unknown => .ok cfg

/-- The parser between two lines. -/
structure Parser where
  active : Bool
  cfg : SshHostConfig
  deriving DecidableEq

def Parser.line (s : Parser) (raw : List Char) : Except Chain Parser :=
  match directive raw with
  | none => .ok s
  | some d =>
    if d.keyword = .host then .ok { s with active := hostBlockMatches d.value hostAlias }
    else if s.active then do return { s with cfg := ← s.cfg.apply env d }
    else .ok s

def parseSshConfig (data : List Char) : Except Chain SshHostConfig := do
  let s ← (Text.lines data).foldlM (Parser.line env hostAlias) ⟨false, .default⟩
  return s.cfg

def IsHostLine (raw : List Char) : Prop := ∃ patterns, LineSays raw "host".toList patterns

/-- The nearest `Host` line in what precedes matches the alias. -/
def Active (before : List (List Char)) : Prop :=
  ∃ front host body patterns, before = front ++ host :: body ∧
    LineSays host "host".toList patterns ∧ (∀ raw ∈ body, ¬ IsHostLine raw) ∧
    BlockMatches patterns hostAlias

/-- The values that the lines say of a key in the blocks that match, in their order, where other
lines come before these. -/
inductive Says (key : List Char) :
    List (List Char) → List (List Char) → List (List Char) → Prop
  | nil {before : List (List Char)} : Says key before [] []
  | active {before rest values : List (List Char)} {raw value : List Char}
      (h : LineSays raw key value) (hactive : Active hostAlias before)
      (hrest : Says key (before ++ [raw]) rest values) :
      Says key before (raw :: rest) (value :: values)
  | other {before rest values : List (List Char)} {raw : List Char}
      (h : ¬ ((∃ value, LineSays raw key value) ∧ Active hostAlias before))
      (hrest : Says key (before ++ [raw]) rest values) : Says key before (raw :: rest) values

/-! The parser's own view of the lines, for the proofs. -/

/-- The value of a `Host` line. -/
def hostLine (raw : List Char) : Option (List Char) :=
  match directive raw with
  | some d => if d.keyword = .host then some d.value else none
  | none => none

/-- A key is that of one keyword only. -/
theorem ofKey_eq_iff {name : String} {keyword : Keyword} (h : (name, keyword) ∈ keywords)
    (key : List Char) : Keyword.ofKey key = keyword ↔ key = name.toList := by
  have hknown : ∀ e ∈ keywords, e.2 ≠ .unknown ∧ ∀ e' ∈ keywords, e.2 = e'.2 → e = e' := by decide
  have hself : ∀ e ∈ keywords, Keyword.ofKey e.1.toList = e.2 := by decide
  constructor
  · intro hkey
    unfold Keyword.ofKey at hkey
    split at hkey
    · next e he =>
      have hmem := List.mem_of_find?_eq_some he
      have hname := List.find?_some he
      obtain rfl : e = (name, keyword) := (hknown e hmem).2 _ h hkey
      exact (of_decide_eq_true hname).symm
    · exact absurd hkey.symm (hknown _ h).1
  · rintro rfl
    exact hself _ h

theorem directive_keyword_iff {name : String} {keyword : Keyword} (h : (name, keyword) ∈ keywords)
    (raw value : List Char) :
    directive raw = some ⟨keyword, value⟩ ↔ LineSays raw name.toList value := by
  rw [← keyValue_iff, directive]
  cases keyValue raw with
  | none => simp
  | some kv => simp [Prod.ext_iff, ofKey_eq_iff h]

theorem hostLine_iff {raw patterns : List Char} :
    hostLine raw = some patterns ↔ LineSays raw "host".toList patterns := by
  have hmem : ("host", Keyword.host) ∈ keywords := by decide
  rw [← directive_keyword_iff hmem, hostLine]
  cases directive raw with
  | none => simp
  | some d =>
    obtain ⟨keyword, value⟩ := d
    by_cases hhost : keyword = .host <;> simp [hhost]

theorem hostLine_eq_none_iff {raw : List Char} : hostLine raw = none ↔ ¬ IsHostLine raw := by
  rw [Option.eq_none_iff_forall_ne_some]
  simp [IsHostLine, hostLine_iff]

variable {hostAlias}

/-- The nearest `Host` line is the last one. -/
theorem active_iff {before : List (List Char)} :
    Active hostAlias before ↔ ∃ patterns, (before.filterMap hostLine).getLast? = some patterns ∧
      BlockMatches patterns hostAlias := by
  constructor
  · rintro ⟨front, host, body, patterns, rfl, hhost, hbody, hmatch⟩
    refine ⟨patterns, ?_, hmatch⟩
    have hnone : body.filterMap hostLine = [] :=
      List.filterMap_eq_nil_iff.mpr fun raw hraw => hostLine_eq_none_iff.mpr (hbody raw hraw)
    simp [hostLine_iff.mpr hhost, hnone]
  · rintro ⟨patterns, hlast, hmatch⟩
    obtain ⟨init, hsplit⟩ := List.getLast?_eq_some_iff.mp hlast
    obtain ⟨front, tail, rfl, -, htail⟩ := List.filterMap_eq_append_iff.mp hsplit
    obtain ⟨gap, host, body, rfl, -, hhost, hbody⟩ := List.filterMap_eq_cons_iff.mp htail
    refine ⟨front ++ gap, host, body, patterns, by simp, hostLine_iff.mp hhost, ?_, hmatch⟩
    exact fun raw hraw => hostLine_eq_none_iff.mp (List.filterMap_eq_nil_iff.mp hbody raw hraw)

variable (hostAlias)

instance (patterns : List Char) : Decidable (BlockMatches patterns hostAlias) :=
  decidable_of_iff _ (hostBlockMatches_iff patterns hostAlias)

instance (before : List (List Char)) : Decidable (Active hostAlias before) :=
  decidable_of_iff
    (((before.filterMap hostLine).getLast?.any fun p => decide (BlockMatches p hostAlias)) = true)
    (by simp [active_iff, Option.any_eq_true])

/-- The active directives of some lines, in file order. -/
def actives : List (List Char) → List (List Char) → List Directive
  | _, [] => []
  | before, raw :: rest =>
    let here := match directive raw with
      | some d => if d.keyword ≠ .host ∧ Active hostAlias before then [d] else []
      | none => []
    here ++ actives (before ++ [raw]) rest

def valuesOf (ds : List Directive) (keyword : Keyword) : List (List Char) :=
  (ds.filter (·.keyword = keyword)).map (·.value)

variable {env : Env} {hostAlias : List Char}

theorem hostLine_eq {raw : List Char} {d : Directive} (h : directive raw = some d) :
    hostLine raw = if d.keyword = .host then some d.value else none := by
  simp only [hostLine, h]

theorem active_append_host {before : List (List Char)} {raw patterns : List Char}
    (h : hostLine raw = some patterns) :
    Active hostAlias (before ++ [raw]) ↔ hostBlockMatches patterns hostAlias = true := by
  simp [active_iff, List.filterMap_append, h, hostBlockMatches_iff]

theorem active_append_other (hostAlias : List Char) (before : List (List Char)) {raw : List Char}
    (h : hostLine raw = none) : Active hostAlias (before ++ [raw]) ↔ Active hostAlias before := by
  simp [active_iff, List.filterMap_append, h]

theorem not_active_nil : ¬ Active hostAlias [] := by simp [active_iff]

section Says

variable {name : String} {keyword : Keyword} (h : (name, keyword) ∈ keywords)
  (hne : keyword ≠ .host) {before : List (List Char)} {raw : List Char}
include h

include hne in
theorem valuesOf_actives_active {value : List Char} (hvalue : LineSays raw name.toList value)
    (hactive : Active hostAlias before) (rest : List (List Char)) :
    valuesOf (actives hostAlias before (raw :: rest)) keyword =
      value :: valuesOf (actives hostAlias (before ++ [raw]) rest) keyword := by
  have hdirective := (directive_keyword_iff h raw value).mpr hvalue
  simp [actives, valuesOf, hdirective, hactive, hne]

theorem valuesOf_actives_silent
    (hsilent : ¬ ((∃ value, LineSays raw name.toList value) ∧ Active hostAlias before))
    (rest : List (List Char)) :
    valuesOf (actives hostAlias before (raw :: rest)) keyword =
      valuesOf (actives hostAlias (before ++ [raw]) rest) keyword := by
  cases hd : directive raw with
  | none => simp [actives, valuesOf, hd]
  | some d =>
    obtain ⟨k, value⟩ := d
    by_cases hactive : Active hostAlias before
    · have hk : k ≠ keyword := by
        rintro rfl
        exact hsilent ⟨⟨value, (directive_keyword_iff h raw value).mp hd⟩, hactive⟩
      by_cases hhost : k = .host <;> simp [actives, valuesOf, hd, hk, hhost]
    · simp [actives, valuesOf, hd, hactive]

include hne in
/-- The values of the active directives of a keyword are what the lines say of its key. -/
theorem says_iff (before rest values : List (List Char)) :
    Says hostAlias name.toList before rest values ↔
      values = valuesOf (actives hostAlias before rest) keyword := by
  induction rest generalizing before values with
  | nil =>
    constructor
    · rintro ⟨⟩
      rfl
    · rintro rfl
      exact .nil
  | cons raw rest ih =>
    by_cases hsaid : (∃ value, LineSays raw name.toList value) ∧ Active hostAlias before
    · obtain ⟨⟨value, hvalue⟩, hactive⟩ := hsaid
      rw [valuesOf_actives_active h hne hvalue hactive]
      constructor
      · rintro (_ | ⟨hother, -, hrest⟩ | ⟨hnot, -⟩)
        · rw [← directive_keyword_iff h, (directive_keyword_iff h raw value).mpr hvalue] at hother
          cases hother
          rw [← (ih _ _).mp hrest]
        · exact absurd ⟨⟨value, hvalue⟩, hactive⟩ hnot
      · rintro rfl
        exact .active hvalue hactive ((ih _ _).mpr rfl)
    · rw [valuesOf_actives_silent h hsaid]
      constructor
      · rintro (_ | ⟨hvalue, hactive, -⟩ | ⟨-, hrest⟩)
        · exact absurd ⟨⟨_, hvalue⟩, hactive⟩ hsaid
        · exact (ih _ _).mp hrest
      · exact fun heq => .other hsaid ((ih _ _).mpr heq)

end Says

/-- Parsing lines is applying their active directives. -/
theorem foldlM_line (before rest : List (List Char)) (cfg : SshHostConfig) :
    (do let s ← rest.foldlM (Parser.line env hostAlias) ⟨decide (Active hostAlias before), cfg⟩
        return s.cfg) =
      (actives hostAlias before rest).foldlM (SshHostConfig.apply env) cfg := by
  induction rest generalizing before cfg with
  | nil => rfl
  | cons raw rest ih =>
    rw [List.foldlM_cons, actives, List.foldlM_append]
    cases hd : directive raw with
    | none =>
      have hsame := active_append_other hostAlias before
        (show hostLine raw = none by simp only [hostLine, hd])
      have := ih (before ++ [raw]) cfg
      simp only [hsame] at this
      simpa [Parser.line, hd] using this
    | some d =>
      have hline := hostLine_eq hd
      by_cases hhost : d.keyword = .host
      · rw [if_pos hhost] at hline
        have := ih (before ++ [raw]) cfg
        simp only [active_append_host hline, Bool.decide_eq_true] at this
        simpa [Parser.line, hd, hhost] using this
      · rw [if_neg hhost] at hline
        have hsame := active_append_other hostAlias before hline
        by_cases hactive : Active hostAlias before
        · cases happly : cfg.apply env d with
          | error chain => simp [Parser.line, hd, hhost, hactive, happly]
          | ok cfg' =>
            have := ih (before ++ [raw]) cfg'
            simp only [hsame, hactive] at this
            simpa [Parser.line, hd, hhost, hactive, happly] using this
        · have := ih (before ++ [raw]) cfg
          simp only [hsame, hactive] at this
          simpa [Parser.line, hd, hhost, hactive] using this

theorem parseSshConfig_eq (data : List Char) :
    parseSshConfig env hostAlias data =
      (actives hostAlias [] (Text.lines data)).foldlM (SshHostConfig.apply env) .default := by
  rw [← foldlM_line]
  simp only [parseSshConfig, not_active_nil, decide_false]

theorem valuesOf_append (ds : List Directive) (d : Directive) (keyword : Keyword) :
    valuesOf (ds ++ [d]) keyword =
      valuesOf ds keyword ++ if d.keyword = keyword then [d.value] else [] := by
  by_cases h : d.keyword = keyword <;> simp [valuesOf, h]

/-- One more directive adds a value of its own keyword only. -/
theorem forall_valuesOf_append {P : Keyword → List (List Char) → Prop} {ds : List Directive}
    {keyword : Keyword} {value : List Char} :
    (∀ k, P k (valuesOf (ds ++ [⟨keyword, value⟩]) k)) ↔
      P keyword (valuesOf ds keyword ++ [value]) ∧ ∀ k, k ≠ keyword → P k (valuesOf ds k) := by
  simp only [valuesOf_append]
  constructor
  · intro h
    refine ⟨by simpa using h keyword, ?_⟩
    intro k hk
    simpa [Ne.symm hk] using h k
  · rintro ⟨hown, hothers⟩ k
    by_cases hk : k = keyword
    · subst hk
      simpa using hown
    · simpa [Ne.symm hk] using hothers k hk

/-- The active directives of one kind are such that the file parses. -/
def SlotParses (env : Env) : Keyword → List (List Char) → Prop
  | .setEnv, values => ∀ v ∈ values.head?, ∃ vars, parseSetEnv env v = .ok vars
  | .localForward, values | .remoteForward, values =>
    ∀ v ∈ values, ∃ f, parseSshForward env v = .ok f
  | _, _ => True

/-- A configuration says of one kind of directive what its active values are. -/
def Slot (env : Env) (cfg : SshHostConfig) : Keyword → List (List Char) → Prop
  | .user, values => cfg.user = values.head?
  | .hostname, values => cfg.hostname = values.head?
  | .port, values => cfg.port = values.findSome? parsePort
  | .identityFile, values => cfg.identityFile = values.head?.map (expandHome env)
  | .identityAgent, values => cfg.identityAgent = values.findSome? (parseIdentityAgent env)
  | .forwardAgent, values => cfg.forwardAgent = values.findSome? (parseForwardAgent env)
  | .setEnv, [] => cfg.setEnv = []
  | .setEnv, v :: _ => parseSetEnv env v = .ok cfg.setEnv
  | .localForward, values => values.map (parseSshForward env) = cfg.localForwards.map .ok
  | .remoteForward, values => values.map (parseSshForward env) = cfg.remoteForwards.map .ok
  | .host, _ | .unknown, _ => True

theorem slot_default (keyword : Keyword) : Slot env .default keyword [] := by
  cases keyword <;> first | rfl | trivial

theorem context_eq_ok_iff {α : Type} {message : String} {r : Except Chain α} {a : α} :
    context message r = .ok a ↔ r = .ok a := by
  cases r <;> simp [context]

theorem bind_eq_ok_iff {α β : Type} {r : Except Chain α} {f : α → Except Chain β} {b : β} :
    (r >>= f) = .ok b ↔ ∃ a, r = .ok a ∧ f a = .ok b := by
  cases r <;> simp

theorem foldlM_apply_append {ds : List Directive} {d : Directive} {cfg cfg' : SshHostConfig} :
    (ds ++ [d]).foldlM (SshHostConfig.apply env) cfg = .ok cfg' ↔
      ∃ mid, ds.foldlM (SshHostConfig.apply env) cfg = .ok mid ∧ mid.apply env d = .ok cfg' := by
  rw [List.foldlM_append, bind_eq_ok_iff]
  simp only [List.foldlM_cons, List.foldlM_nil, bind_pure]

theorem exists_context_bind_iff {α β : Type} {message : String} {r : Except Chain α} (f : α → β) :
    (∃ b, (context message r >>= fun a => .ok (f a)) = .ok b) ↔ ∃ a, r = .ok a := by
  cases r <;> simp [context]

/-- What a directive that can fail does to the configuration. -/
theorem apply_eq_ok {cfg cfg' : SshHostConfig} {keyword : Keyword} {value : List Char}
    (h : cfg.apply env ⟨keyword, value⟩ = .ok cfg') :
    (keyword = .setEnv → cfg.setEnv ≠ [] ∧ cfg' = cfg ∨ cfg.setEnv = [] ∧
      ∃ vars, parseSetEnv env value = .ok vars ∧ cfg' = { cfg with setEnv := vars }) ∧
    (keyword = .localForward → ∃ f, parseSshForward env value = .ok f ∧
      cfg' = { cfg with localForwards := cfg.localForwards ++ [f] }) ∧
    (keyword = .remoteForward → ∃ f, parseSshForward env value = .ok f ∧
      cfg' = { cfg with remoteForwards := cfg.remoteForwards ++ [f] }) := by
  refine ⟨?_, ?_, ?_⟩
  · rintro rfl
    simp only [SshHostConfig.apply] at h
    split at h
    · next hnil =>
      obtain ⟨vars, hvars, heq⟩ := bind_eq_ok_iff.mp h
      cases heq
      exact Or.inr ⟨hnil, vars, context_eq_ok_iff.mp hvars, rfl⟩
    · next hne =>
      cases h
      exact Or.inl ⟨hne, rfl⟩
  · rintro rfl
    obtain ⟨f, hf, heq⟩ := bind_eq_ok_iff.mp h
    cases heq
    exact ⟨f, context_eq_ok_iff.mp hf, rfl⟩
  · rintro rfl
    obtain ⟨f, hf, heq⟩ := bind_eq_ok_iff.mp h
    cases heq
    exact ⟨f, context_eq_ok_iff.mp hf, rfl⟩

/-- A directive's own slot takes its value into account. -/
theorem Slot.apply {cfg cfg' : SshHostConfig} {keyword : Keyword} {value : List Char}
    {values : List (List Char)} (hslot : Slot env cfg keyword values)
    (h : cfg.apply env ⟨keyword, value⟩ = .ok cfg') :
    Slot env cfg' keyword (values ++ [value]) := by
  obtain ⟨hsetEnv, hlocal, hremote⟩ := apply_eq_ok h
  cases keyword with
  | setEnv =>
    cases values with
    | nil =>
      have hnil : cfg.setEnv = [] := hslot
      obtain ⟨hne, -⟩ | ⟨-, vars, hvars, rfl⟩ := hsetEnv rfl
      · exact absurd hnil hne
      · exact hvars
    | cons v rest =>
      have hparse : parseSetEnv env v = .ok cfg.setEnv := hslot
      obtain ⟨-, rfl⟩ | ⟨hnil, -⟩ := hsetEnv rfl
      · exact hparse
      · exact absurd hnil (parseSetEnv_ok hparse).1
  | localForward =>
    obtain ⟨f, hf, rfl⟩ := hlocal rfl
    have hmap : values.map (parseSshForward env) = cfg.localForwards.map .ok := hslot
    simp [Slot, hmap, hf]
  | remoteForward =>
    obtain ⟨f, hf, rfl⟩ := hremote rfl
    have hmap : values.map (parseSshForward env) = cfg.remoteForwards.map .ok := hslot
    simp [Slot, hmap, hf]
  | host | unknown => trivial
  | user | hostname | port | identityFile | identityAgent | forwardAgent =>
    cases h
    simp_all [Slot, List.findSome?_append]

/-- A directive leaves the other slots alone. -/
theorem Slot.frame {cfg cfg' : SshHostConfig} {keyword other : Keyword} {value : List Char}
    {values : List (List Char)} (hslot : Slot env cfg other values) (hne : other ≠ keyword)
    (h : cfg.apply env ⟨keyword, value⟩ = .ok cfg') : Slot env cfg' other values := by
  obtain ⟨hsetEnv, hlocal, hremote⟩ := apply_eq_ok h
  cases keyword with
  | setEnv =>
    obtain ⟨-, rfl⟩ | ⟨-, vars, -, rfl⟩ := hsetEnv rfl
    · exact hslot
    · cases other <;> first | exact hslot | exact absurd rfl hne
  | localForward =>
    obtain ⟨f, -, rfl⟩ := hlocal rfl
    cases other <;> first | exact hslot | exact absurd rfl hne | (cases values <;> exact hslot)
  | remoteForward =>
    obtain ⟨f, -, rfl⟩ := hremote rfl
    cases other <;> first | exact hslot | exact absurd rfl hne | (cases values <;> exact hslot)
  | host | unknown | user | hostname | port | identityFile | identityAgent | forwardAgent =>
    cases h
    cases other <;> first | exact hslot | exact absurd rfl hne | (cases values <;> exact hslot)

theorem apply_ok_iff {cfg : SshHostConfig} {keyword : Keyword} {value : List Char}
    {values : List (List Char)} (hslot : Slot env cfg keyword values)
    (hparses : SlotParses env keyword values) :
    (∃ cfg', cfg.apply env ⟨keyword, value⟩ = .ok cfg') ↔
      SlotParses env keyword (values ++ [value]) := by
  cases keyword with
  | setEnv =>
    cases values with
    | nil =>
      have hnil : cfg.setEnv = [] := hslot
      simp only [SshHostConfig.apply, if_pos hnil]
      exact (exists_context_bind_iff _).trans (by simp [SlotParses])
    | cons v rest =>
      have hne : cfg.setEnv ≠ [] := (parseSetEnv_ok hslot).1
      have hv : ∃ vars, parseSetEnv env v = .ok vars := hparses v rfl
      simp [SshHostConfig.apply, hne, SlotParses, hv]
  | localForward | remoteForward =>
    have hall : ∀ v ∈ values, ∃ f, parseSshForward env v = .ok f := hparses
    refine (exists_context_bind_iff _).trans ⟨fun hv => ?_, fun h => h value (by simp)⟩
    intro v hmem
    rcases List.mem_append.mp hmem with hmem | hmem
    · exact hall v hmem
    · rwa [List.mem_singleton.mp hmem]
  | host | unknown | user | hostname | port | identityFile | identityAgent | forwardAgent =>
    exact ⟨fun _ => trivial, fun _ => ⟨_, rfl⟩⟩

theorem SlotParses.of_append {keyword : Keyword} {values : List (List Char)} {value : List Char}
    (h : SlotParses env keyword (values ++ [value])) : SlotParses env keyword values := by
  cases keyword with
  | setEnv =>
    cases values with
    | nil => exact fun v hv => nomatch hv
    | cons v rest => exact h
  | localForward | remoteForward => exact fun v hv => h v (List.mem_append_left _ hv)
  | host | unknown | user | hostname | port | identityFile | identityAgent | forwardAgent =>
    trivial

/-- The active directives, one after the other: when they parse, and what they come to. -/
theorem apply_all (env : Env) (ds : List Directive) :
    ((∃ cfg, ds.foldlM (SshHostConfig.apply env) .default = .ok cfg) ↔
      ∀ keyword, SlotParses env keyword (valuesOf ds keyword)) ∧
    ∀ cfg, ds.foldlM (SshHostConfig.apply env) .default = .ok cfg →
      ∀ keyword, Slot env cfg keyword (valuesOf ds keyword) := by
  induction ds using List.reverseRecOn with
  | nil =>
    refine ⟨⟨fun _ keyword => ?_, fun _ => ⟨.default, rfl⟩⟩, fun cfg h keyword => ?_⟩
    · cases keyword <;> simp [SlotParses, valuesOf]
    · cases h
      exact slot_default keyword
  | append_singleton ds d ih =>
    obtain ⟨hok, hslots⟩ := ih
    obtain ⟨keyword, value⟩ := d
    simp only [foldlM_apply_append, forall_valuesOf_append]
    refine ⟨⟨?_, ?_⟩, ?_⟩
    · rintro ⟨cfg', cfg, hcfg, happly⟩
      have hparses := hok.mp ⟨cfg, hcfg⟩
      refine ⟨?_, fun k _ => hparses k⟩
      exact (apply_ok_iff (hslots cfg hcfg keyword) (hparses keyword)).mp ⟨cfg', happly⟩
    · rintro ⟨hown, hothers⟩
      have hparses : ∀ k, SlotParses env k (valuesOf ds k) := by
        intro k
        by_cases hk : k = keyword
        · subst hk
          exact hown.of_append
        · exact hothers k hk
      obtain ⟨cfg, hcfg⟩ := hok.mpr hparses
      obtain ⟨cfg', happly⟩ :=
        (apply_ok_iff (hslots cfg hcfg keyword) (hparses keyword)).mpr hown
      exact ⟨cfg', cfg, hcfg, happly⟩
    · rintro cfg' ⟨cfg, hcfg, happly⟩
      exact ⟨(hslots cfg hcfg keyword).apply happly,
        fun k hk => (hslots cfg hcfg k).frame hk happly⟩

/-- The lines of a block that does not match have no active directive. -/
theorem actives_of_not_active {before body : List (List Char)} (h : ¬ Active hostAlias before)
    (hbody : ∀ raw ∈ body, hostLine raw = none) (rest : List (List Char)) :
    actives hostAlias before (body ++ rest) = actives hostAlias (before ++ body) rest := by
  induction body generalizing before with
  | nil => simp
  | cons raw body ih =>
    have hraw := hbody raw List.mem_cons_self
    have hnext : ¬ Active hostAlias (before ++ [raw]) := by rwa [active_append_other _ _ hraw]
    rw [List.cons_append, actives, ih hnext fun r hr => hbody r (List.mem_cons_of_mem _ hr)]
    cases directive raw <;> simp [h]

/-- Of what precedes, only the last `Host` line counts. -/
theorem actives_congr {before before' : List (List Char)}
    (h : (before.filterMap hostLine).getLast? = (before'.filterMap hostLine).getLast?)
    (rest : List (List Char)) : actives hostAlias before rest = actives hostAlias before' rest := by
  induction rest generalizing before before' with
  | nil => rfl
  | cons raw rest ih =>
    have hactive : Active hostAlias before ↔ Active hostAlias before' := by
      simp only [active_iff, h]
    have hnext : ((before ++ [raw]).filterMap hostLine).getLast? =
        ((before' ++ [raw]).filterMap hostLine).getLast? := by
      simp only [List.filterMap_append, List.getLast?_append, h]
    simp only [actives, hactive, ih hnext]

theorem actives_append (before front rest : List (List Char)) :
    actives hostAlias before (front ++ rest) =
      actives hostAlias before front ++ actives hostAlias (before ++ front) rest := by
  induction front generalizing before with
  | nil => simp [actives]
  | cons raw front ih => simp [actives, ih]

/-- The body of a block that does not match can be any other. -/
theorem actives_replace {front body body' rest : List (List Char)} {host patterns : List Char}
    (hhost : hostLine host = some patterns) (hmatch : ¬ BlockMatches patterns hostAlias)
    (hbody : ∀ raw ∈ body ++ body', hostLine raw = none) :
    actives hostAlias [] (front ++ host :: (body ++ rest)) =
      actives hostAlias [] (front ++ host :: (body' ++ rest)) := by
  have hinactive : ¬ Active hostAlias (front ++ [host]) := by
    rwa [active_append_host hhost, hostBlockMatches_iff]
  have hnone : ∀ {lines : List (List Char)}, (∀ raw ∈ lines, hostLine raw = none) →
      lines.filterMap hostLine = [] := by
    intro lines h
    exact List.filterMap_eq_nil_iff.mpr h
  have hbody₁ : ∀ raw ∈ body, hostLine raw = none := fun r hr => hbody r (by simp [hr])
  have hbody₂ : ∀ raw ∈ body', hostLine raw = none := fun r hr => hbody r (by simp [hr])
  simp only [actives_append, actives, List.nil_append]
  congr 2
  rw [← actives_append, ← actives_append, actives_of_not_active hinactive hbody₁,
    actives_of_not_active hinactive hbody₂]
  apply actives_congr
  simp only [List.filterMap_append, hnone hbody₁, hnone hbody₂]

/-- What a configuration is made of: the values `act` of the active directives of each key. -/
structure Merged (env : Env) (act : String → List (List Char)) (cfg : SshHostConfig) : Prop where
  user : cfg.user = (act "user").head?
  hostname : cfg.hostname = (act "hostname").head?
  identityFile : cfg.identityFile = (act "identityfile").head?.map (expandHome env)
  port : cfg.port = (act "port").findSome? parsePort
  identityAgent : cfg.identityAgent = (act "identityagent").findSome? (parseIdentityAgent env)
  forwardAgent : cfg.forwardAgent = (act "forwardagent").findSome? (parseForwardAgent env)
  noSetEnv : act "setenv" = [] → cfg.setEnv = []
  setEnv : ∀ v ∈ (act "setenv").head?, ∃ args vars,
    env.split v = some args ∧ EnvArgs args vars ∧ FirstOfEach vars cfg.setEnv
  localForwards : (act "localforward").map (parseSshForward env) = cfg.localForwards.map .ok
  remoteForwards : (act "remoteforward").map (parseSshForward env) = cfg.remoteForwards.map .ok

theorem merged_of_slots {act : String → List (List Char)} {cfg : SshHostConfig}
    (h : ∀ name keyword, (name, keyword) ∈ keywords → keyword ≠ .host →
      Slot env cfg keyword (act name)) : Merged env act cfg := by
  have hsetEnv := h "setenv" .setEnv (by decide) (by decide)
  refine ⟨h "user" .user (by decide) (by decide), h "hostname" .hostname (by decide) (by decide),
    h "identityfile" .identityFile (by decide) (by decide), h "port" .port (by decide) (by decide),
    h "identityagent" .identityAgent (by decide) (by decide),
    h "forwardagent" .forwardAgent (by decide) (by decide), fun hnil => ?_, fun v hv => ?_,
    h "localforward" .localForward (by decide) (by decide),
    h "remoteforward" .remoteForward (by decide) (by decide)⟩
  · rwa [hnil] at hsetEnv
  · obtain ⟨rest, hrest⟩ := List.head?_eq_some_iff.mp hv
    rw [hrest] at hsetEnv
    exact (parseSetEnv_ok hsetEnv).2

/-- The values that a text says of a key, in the blocks that match. -/
def SaysAll (hostAlias data : List Char) (act : String → List (List Char)) : Prop :=
  ∀ name ∈ ["user", "hostname", "identityfile", "port", "identityagent", "forwardagent", "setenv",
    "localforward", "remoteforward"], ∀ values,
    Says hostAlias name.toList [] (Text.lines data) values ↔ values = act name

/-- The first value wins, over the active directives, and no other line matters. -/
theorem first_value_wins (env : Env) (hostAlias data : List Char) :
    (∃ act, SaysAll hostAlias data act ∧
      ((∃ cfg, parseSshConfig env hostAlias data = .ok cfg) ↔
        (∀ v ∈ act "localforward", ∃ f, parseSshForward env v = .ok f) ∧
        (∀ v ∈ act "remoteforward", ∃ f, parseSshForward env v = .ok f) ∧
        ∀ v ∈ (act "setenv").head?, ∃ vars, parseSetEnv env v = .ok vars) ∧
      ∀ cfg, parseSshConfig env hostAlias data = .ok cfg → Merged env act cfg) ∧
    ∀ data' front host patterns body body' rest,
      Text.lines data = front ++ host :: (body ++ rest) →
      Text.lines data' = front ++ host :: (body' ++ rest) →
      LineSays host "host".toList patterns → ¬ BlockMatches patterns hostAlias →
      (∀ raw ∈ body ++ body', ¬ IsHostLine raw) →
      parseSshConfig env hostAlias data' = parseSshConfig env hostAlias data := by
  obtain ⟨hok, hslots⟩ := apply_all env (actives hostAlias [] (Text.lines data))
  rw [← parseSshConfig_eq] at hok hslots
  constructor
  · have hact : ∀ name keyword, (name, keyword) ∈ keywords →
        valuesOf (actives hostAlias [] (Text.lines data)) (.ofKey name.toList) =
          valuesOf (actives hostAlias [] (Text.lines data)) keyword := by
      intro name keyword h
      rw [(ofKey_eq_iff h name.toList).mpr rfl]
    refine ⟨fun name => valuesOf (actives hostAlias [] (Text.lines data)) (.ofKey name.toList),
      ?_, ?_, ?_⟩
    · intro name hname values
      have hkey : (name, Keyword.ofKey name.toList) ∈ keywords ∧
          Keyword.ofKey name.toList ≠ .host := by
        revert name
        decide
      exact says_iff hkey.1 hkey.2 [] (Text.lines data) values
    · simp only [hact "localforward" .localForward (by decide),
        hact "remoteforward" .remoteForward (by decide), hact "setenv" .setEnv (by decide)]
      refine hok.trans
        ⟨fun h => ⟨h .localForward, h .remoteForward, h .setEnv⟩, fun h keyword => ?_⟩
      obtain ⟨hlocal, hremote, hsetEnv⟩ := h
      cases keyword <;> first | exact hsetEnv | exact hlocal | exact hremote | trivial
    · refine fun cfg h => merged_of_slots fun name keyword hname _ => ?_
      rw [hact name keyword hname]
      exact hslots cfg h keyword
  · intro data' front host patterns body body' rest hdata hdata' hhost hmatch hbody
    have hbody' : ∀ raw ∈ body ++ body', hostLine raw = none := fun raw hraw =>
      hostLine_eq_none_iff.mpr (hbody raw hraw)
    rw [parseSshConfig_eq, parseSshConfig_eq, hdata, hdata',
      actives_replace (hostLine_iff.mpr hhost) hmatch hbody']

/-- An environment without variables, in which words are split at white space. -/
def plainEnv : Env := ⟨fun s => some (Text.words s), fun _ => none, [], String.ofList⟩

/-- A block for another host with this line in it, and one that matches. -/
def twoHosts (line : String) : List Char :=
  ("Host a\n" ++ line ++ "\nHost b* !bad\nUser ann\nPort x\nport 22\nUser bob\n" ++
    "SetEnv A=1 B=2 A=3\nLocalForward 1 h:2").toList

def bestConfig : SshHostConfig :=
  { SshHostConfig.default with
    user := some "ann".toList
    port := some 22
    setEnv := [⟨['A'], ['1']⟩, ⟨['B'], ['2']⟩]
    localForwards := [⟨localhost, 1, ['h'], 2⟩] }

/-- A malformed forward in the block of another host does not matter. -/
theorem first_value_wins_other_block :
    parseSshConfig plainEnv "best".toList (twoHosts "Port 1") = .ok bestConfig ∧
      parseSshConfig plainEnv "best".toList (twoHosts "LocalForward x") = .ok bestConfig ∧
      ∃ act, SaysAll "best".toList (twoHosts "Port 1") act ∧
        act "port" = ["x".toList, "22".toList] ∧ Merged plainEnv act bestConfig := by
  obtain ⟨⟨act, hact, -, hmerged⟩, hreplace⟩ :=
    first_value_wins plainEnv "best".toList (twoHosts "Port 1")
  have hparse : parseSshConfig plainEnv "best".toList (twoHosts "Port 1") = .ok bestConfig := by
    decide +kernel
  have hmem : ("port", Keyword.port) ∈ keywords := by decide
  have hsaid : Says "best".toList "port".toList [] (Text.lines (twoHosts "Port 1"))
      ["x".toList, "22".toList] :=
    (says_iff hmem (by decide) [] _ _).mpr (by decide +kernel)
  refine ⟨hparse, ?_, act, hact, ?_, hmerged _ hparse⟩
  · rw [← hparse]
    exact hreplace (twoHosts "LocalForward x") [] "Host a".toList "a".toList ["Port 1".toList]
      ["LocalForward x".toList] ((Text.lines (twoHosts "Port 1")).drop 2) (by decide +kernel)
      (by decide +kernel) (by decide +kernel) (by decide +kernel)
      fun raw hraw => hostLine_eq_none_iff.mp (by revert raw; decide +kernel)
  · exact ((hact "port" (by decide) _).mp hsaid).symm

end Hush.SshConfig
