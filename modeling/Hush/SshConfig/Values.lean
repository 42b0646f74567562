import Hush.Lib.Text
import Hush.Lib.UnixPath

/-! The values of `ssh_config` directives. -/
namespace Hush.SshConfig
open Hush.Lib

/-- What the parser takes from elsewhere: `shell_words::split`, `std::env::var`, the home
directory and the `Debug` form of a string. -/
structure Env where
  split : List Char → Option (List (List Char))
  var : List Char → Option (List Char)
  home : Path
  debug : List Char → String

/-- An error's messages, the outermost context first. -/
abbrev Chain := List String

def context {α : Type*} (message : String) : Except Chain α → Except Chain α
  | .ok a => .ok a
  | .error chain => .error (message :: chain)

/-- A result of a callee in a context: its error's own message stays in the chain. -/
def ofOption {α : Type*} (message cause : String) : Option α → Except Chain α
  | some a => .ok a
  | none => .error [message, cause]

/-- The message of a `shell_words::ParseError`. -/
def splitError : String := "missing closing quote"

@[simp] theorem ok_bind {α β : Type} (a : α) (f : α → Except Chain β) :
    (Except.ok a >>= f) = f a := rfl

@[simp] theorem error_bind {α β : Type} (chain : Chain) (f : α → Except Chain β) :
    (Except.error chain >>= f) = .error chain := rfl

structure EnvVar where
  key : List Char
  value : List Char
  deriving DecidableEq, Repr

/-- `str::split_once` on `=`. -/
def splitEq (arg : List Char) : Option EnvVar :=
  if '=' ∈ arg then some ⟨arg.takeWhile (· ≠ '='), (arg.dropWhile (· ≠ '=')).tail⟩ else none

/-- The loop over the arguments of SetEnv. -/
def addEnvVars (env : Env) : List EnvVar → List (List Char) → Except Chain (List EnvVar)
  | vars, [] => .ok vars
  | vars, arg :: rest =>
    match splitEq arg with
    | none => .error [s!"expected NAME=VALUE, got {env.debug arg}"]
    | some var =>
      if var.key = [] then .error ["environment variable name is empty"]
      else if vars.any (·.key = var.key) then addEnvVars env vars rest
      else addEnvVars env (vars ++ [var]) rest

def parseSetEnv (env : Env) (value : List Char) : Except Chain (List EnvVar) := do
  let args ← ofOption "split SetEnv directive" splitError (env.split value)
  if args = [] then .error ["expected NAME=VALUE"]
  else addEnvVars env [] args

structure SshForward where
  listenHost : List Char
  listenPort : UInt16
  targetHost : List Char
  targetPort : UInt16
  deriving DecidableEq, Repr

def parsePort (s : List Char) : Option UInt16 := (Text.parseUnsigned 16 s).map UInt16.ofNat

/-- The loop over the characters, with the parts so far, the current one and the depth. -/
def splitColonFrom : List (List Char) → List Char → Nat → List Char → List (List Char)
  | parts, current, _, [] => parts ++ [current]
  | parts, current, depth, ch :: rest =>
    if ch = '[' then splitColonFrom parts (current ++ [ch]) (depth + 1) rest
    else if ch = ']' then splitColonFrom parts (current ++ [ch]) (depth - 1) rest
    else if ch = ':' ∧ depth = 0 then splitColonFrom (parts ++ [current]) [] depth rest
    else splitColonFrom parts (current ++ [ch]) depth rest

def splitColonBracketed (input : List Char) : List (List Char) := splitColonFrom [] [] 0 input

def unbracketHost (host : List Char) : List Char :=
  match host with
  | '[' :: rest => if rest.getLast? = some ']' then rest.dropLast else host
  | _ => host

def localhost : List Char := "127.0.0.1".toList

def listenPortOf (port : List Char) : Except Chain UInt16 :=
  ofOption "bad listen port" (Text.parseIntError 16 port) (parsePort port)

def targetPortOf (port : List Char) : Except Chain UInt16 :=
  ofOption "bad target port" (Text.parseIntError 16 port) (parsePort port)

def parseColonForward (value : List Char) : Except Chain SshForward :=
  match splitColonBracketed value with
  | [lp, th, tp] => do
    return ⟨localhost, ← listenPortOf lp, unbracketHost th, ← targetPortOf tp⟩
  | [lh, lp, th, tp] => do
    return ⟨unbracketHost lh, ← listenPortOf lp, unbracketHost th, ← targetPortOf tp⟩
  | _ => .error ["expected [listen_host:]listen_port:target_host:target_port"]

def parseListenEndpoint (value : List Char) : Except Chain (List Char × UInt16) :=
  match splitColonBracketed value with
  | [port] => do return (localhost, ← listenPortOf port)
  | [host, port] => do return (unbracketHost host, ← listenPortOf port)
  | _ => .error ["expected [listen_host:]listen_port"]

def parseTargetEndpoint (value : List Char) : Except Chain (List Char × UInt16) :=
  match splitColonBracketed value with
  | [host, port] => do return (unbracketHost host, ← targetPortOf port)
  | _ => .error ["expected target_host:target_port"]

def parseSshForward (env : Env) (value : List Char) : Except Chain SshForward := do
  match ← ofOption "split forward directive" splitError (env.split value) with
  | [combined] => parseColonForward combined
  | [listen, target] =>
    let (listenHost, listenPort) ← parseListenEndpoint listen
    let (targetHost, targetPort) ← parseTargetEndpoint target
    return ⟨listenHost, listenPort, targetHost, targetPort⟩
  | [listen, targetHost, targetPort] =>
    let (listenHost, listenPort) ← parseListenEndpoint listen
    return ⟨listenHost, listenPort, unbracketHost targetHost, ← targetPortOf targetPort⟩
  | _ =>
    .error ["expected [listen_host:]listen_port target_host:target_port or " ++
      "[listen_host:]listen_port target_host target_port"]

def expandHome (env : Env) (value : List Char) : Path :=
  match value with
  | '~' :: '/' :: rest => env.home.join (Utf8.encode rest)
  | _ => Utf8.encode value

def unquote (value : List Char) : List Char :=
  if 2 ≤ value.length ∧ ((value.head? = some '\x22' ∧ value.getLast? = some '\x22') ∨
      (value.head? = some '\x27' ∧ value.getLast? = some '\x27')) then
    value.tail.dropLast
  else value

def isNameChar (c : Char) : Bool := c.isAlphanum || c == '_'

/-- A `$` before no name stands for itself; an unknown variable is empty. -/
def envValue (env : Env) (name : List Char) : List Char :=
  if name = [] then ['$'] else (env.var name).getD []

/-- `$VAR` and `${VAR}` are replaced. -/
def expandEnv (env : Env) : List Char → List Char
  | [] => []
  | '$' :: '{' :: rest =>
    envValue env (rest.takeWhile (· ≠ '}')) ++ expandEnv env (rest.dropWhile (· ≠ '}')).tail
  | '$' :: rest =>
    envValue env (rest.takeWhile isNameChar) ++ expandEnv env (rest.dropWhile isNameChar)
  | c :: rest => c :: expandEnv env rest
termination_by value => value.length
decreasing_by
  · have := (List.dropWhile_sublist (p := (· ≠ '}')) (l := rest)).length_le
    simp only [List.length_tail, List.length_cons]
    omega
  · have := (List.dropWhile_sublist (p := isNameChar) (l := rest)).length_le
    simp only [List.length_cons]
    omega
  · simp

/-- `str::eq_ignore_ascii_case`. -/
def eqIgnoreCase (a : List Char) (b : String) : Bool := Text.toLower a = Text.toLower b.toList

inductive IdentityAgent
  | disabled
  | socket (path : Path)
  deriving DecidableEq, Repr

inductive ForwardAgent
  | yes
  | no
  | socket (path : Path)
  deriving DecidableEq, Repr

/-- An empty value and the literal `SSH_AUTH_SOCK` select the default agent. -/
def parseIdentityAgent (env : Env) (value : List Char) : Option IdentityAgent :=
  let value := unquote (Text.trim value)
  if value = [] then none
  else if eqIgnoreCase value "none" then some .disabled
  else
    let expanded := expandEnv env value
    if value = "SSH_AUTH_SOCK".toList ∨ expanded = [] then none
    else some (.socket (expandHome env expanded))

def parseForwardAgent (env : Env) (value : List Char) : Option ForwardAgent :=
  let value := unquote (Text.trim value)
  if value = [] then none
  else if eqIgnoreCase value "yes" || eqIgnoreCase value "true" then some .yes
  else if eqIgnoreCase value "no" || eqIgnoreCase value "false" then some .no
  else
    let expanded := expandEnv env value
    if expanded = [] then none else some (.socket (expandHome env expanded))

/-- The variables of the arguments of a SetEnv, all of which must be `NAME=VALUE`. -/
def EnvArgs (args : List (List Char)) (vars : List EnvVar) : Prop :=
  args.map splitEq = vars.map some ∧ ∀ var ∈ vars, var.key ≠ []

/-- `kept` is `vars` with the first occurrence of each name. -/
structure FirstOfEach (vars kept : List EnvVar) : Prop where
  sublist : kept.Sublist vars
  nodup : (kept.map EnvVar.key).Nodup
  find_eq : ∀ key, kept.find? (·.key = key) = vars.find? (·.key = key)

theorem FirstOfEach.nil : FirstOfEach [] [] := ⟨.slnil, List.nodup_nil, fun _ => rfl⟩

theorem FirstOfEach.skip {vars kept : List EnvVar} {var : EnvVar} (h : FirstOfEach vars kept)
    (hmem : kept.any (·.key = var.key)) : FirstOfEach (vars ++ [var]) kept := by
  refine ⟨h.sublist.trans (List.sublist_append_left _ _), h.nodup, fun key => ?_⟩
  rw [List.find?_append, ← h.find_eq key]
  by_cases hkey : var.key = key
  · obtain ⟨other, hother, heq⟩ := List.any_eq_true.mp hmem
    have hsome : (kept.find? (·.key = key)).isSome := by
      rw [List.find?_isSome]
      exact ⟨other, hother, by simpa [hkey] using heq⟩
    obtain ⟨v, hv⟩ := Option.isSome_iff_exists.mp hsome
    rw [hv, Option.some_or]
  · simp [hkey]

theorem FirstOfEach.add {vars kept : List EnvVar} {var : EnvVar} (h : FirstOfEach vars kept)
    (hnew : ¬ kept.any (·.key = var.key)) : FirstOfEach (vars ++ [var]) (kept ++ [var]) := by
  refine ⟨h.sublist.append_right _, ?_, fun key => ?_⟩
  · rw [List.map_append, List.nodup_append]
    refine ⟨h.nodup, by simp, ?_⟩
    rintro key hkey key' hkey' rfl
    simp only [List.map_cons, List.map_nil, List.mem_singleton] at hkey'
    obtain ⟨other, hother, rfl⟩ := List.mem_map.mp hkey
    exact hnew (List.any_eq_true.mpr ⟨other, hother, by simpa using hkey'⟩)
  · rw [List.find?_append, List.find?_append, h.find_eq key]

theorem addEnvVars_firstOfEach {env : Env} {seen kept vars : List EnvVar}
    {args : List (List Char)} (hk : FirstOfEach seen kept)
    (h : addEnvVars env kept args = .ok vars) :
    ∃ more, EnvArgs args more ∧ FirstOfEach (seen ++ more) vars := by
  induction args generalizing seen kept with
  | nil =>
    cases h
    exact ⟨[], ⟨rfl, by simp⟩, by simpa using hk⟩
  | cons arg rest ih =>
    simp only [addEnvVars] at h
    split at h
    · cases h
    · next var hvar =>
      split at h
      · cases h
      · next hkey =>
        -- the variable is one of those seen, whether it is kept or not
        have hrest : ∃ more, EnvArgs rest more ∧ FirstOfEach (seen ++ [var] ++ more) vars := by
          split at h
          · next hmem => exact ih (hk.skip hmem) h
          · next hnew => exact ih (hk.add hnew) h
        obtain ⟨more, ⟨hargs, hkeys⟩, hfirst⟩ := hrest
        refine ⟨var :: more, ⟨by simp [hvar, hargs], ?_⟩, by simpa using hfirst⟩
        simpa [hkey] using hkeys

/-- SetEnv keeps the first occurrence of each name, and at least one. -/
theorem parseSetEnv_ok {env : Env} {value : List Char} {vars : List EnvVar}
    (h : parseSetEnv env value = .ok vars) :
    vars ≠ [] ∧ ∃ args all, env.split value = some args ∧ EnvArgs args all ∧
      FirstOfEach all vars := by
  unfold parseSetEnv at h
  cases hsplit : env.split value with
  | none =>
    rw [hsplit] at h
    cases h
  | some args =>
    rw [hsplit] at h
    simp only [ofOption, ok_bind] at h
    split at h
    · cases h
    · next hargs =>
      obtain ⟨all, hall, hfirst⟩ := addEnvVars_firstOfEach .nil h
      rw [List.nil_append] at hfirst
      refine ⟨?_, args, all, rfl, hall, hfirst⟩
      rintro rfl
      cases all with
      | nil => exact hargs (by simpa using hall.1)
      | cons var rest => simpa using hfirst.find_eq var.key

end Hush.SshConfig
