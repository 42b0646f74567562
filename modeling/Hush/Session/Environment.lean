import Mathlib.Data.List.Induction
import Mathlib.Data.List.Nodup
import Mathlib.Logic.Function.Basic

/-! The environment of a session: what the client passes from its own, what its `SetEnv` directive
asks for, and what the server adds. -/
namespace Hush.Session.Environment

structure EnvVar where
  key : String
  value : String
  deriving DecidableEq, Repr

structure ConnectionEnv where
  sshClient : String
  sshConnection : String
  authSock : Option String
  deriving DecidableEq, Repr

def allowedEnvKey (key : String) : Bool :=
  key == "TERM" || key == "LANG" || "LC_".toList.isPrefixOf key.toList

def validEnvKey (key : String) : Bool := !key.toList.isEmpty && !key.toList.contains '='

def pushOrReplaceEnv (env : List EnvVar) (var : EnvVar) : List EnvVar :=
  env.filter (fun existing => existing.key ≠ var.key) ++ [var]

/-- The loop over `client_env`. -/
def addClientEnv (env clientEnv : List EnvVar) : List EnvVar :=
  clientEnv.foldl (fun env var => if allowedEnvKey var.key then env ++ [var] else env) env

/-- The condition in the loop over `set_env`. -/
def admissible (privilegedSwitch : Bool) (var : EnvVar) : Bool :=
  validEnvKey var.key && (!privilegedSwitch || allowedEnvKey var.key)

/-- The loop over `set_env`. -/
def addSetEnv (privilegedSwitch : Bool) (env setEnv : List EnvVar) : List EnvVar :=
  setEnv.foldl
    (fun env var => if admissible privilegedSwitch var then pushOrReplaceEnv env var else env) env

def sessionEnv (clientEnv setEnv : List EnvVar) (connectionEnv : ConnectionEnv)
    (sshTty : Option String) (privilegedSwitch : Bool) : List EnvVar :=
  let env := addClientEnv [] clientEnv
  let env := addSetEnv privilegedSwitch env setEnv
  let env := env ++ [⟨"SSH_CLIENT", connectionEnv.sshClient⟩]
  let env := env ++ [⟨"SSH_CONNECTION", connectionEnv.sshConnection⟩]
  let env :=
    match sshTty with
    | some sshTty => env ++ [⟨"SSH_TTY", sshTty⟩]
    | none => env
  match connectionEnv.authSock with
  | some authSock => pushOrReplaceEnv env ⟨"SSH_AUTH_SOCK", authSock⟩
  | none => env

def EnvVar.nulFree (var : EnvVar) : Bool :=
  !var.key.toList.contains '\x00' && !var.value.toList.contains '\x00'

/-- The variables that a command sets. -/
abbrev Vars := String → Option String

/-- `Command::env` on a command that sets no variable yet. -/
def noVars : Vars := fun _ => none

def applySessionEnv (cmd : Vars) (env : List EnvVar) : Vars :=
  env.foldl
    (fun cmd var => if var.nulFree then Function.update cmd var.key (some var.value) else cmd) cmd

/-! One key of the list and of the map. -/

/-- The entries of one key, in order. -/
def entriesAt (env : List EnvVar) (key : String) : List EnvVar :=
  env.filter fun var => var.key = key

theorem mem_entriesAt {env : List EnvVar} {key : String} {var : EnvVar} :
    var ∈ entriesAt env key ↔ var ∈ env ∧ var.key = key := by
  rw [entriesAt, List.mem_filter, decide_eq_true_iff]

theorem entriesAt_append (env env' : List EnvVar) (key : String) :
    entriesAt (env ++ env') key = entriesAt env key ++ entriesAt env' key :=
  List.filter_append env env'

/-- A test of the key, made for one key. -/
theorem entriesAt_filter {env : List EnvVar} {key : String} {test : EnvVar → Bool} {P : Prop}
    [Decidable P] (h : ∀ var : EnvVar, var.key = key → (test var = true ↔ P)) :
    entriesAt (env.filter test) key = env.filter fun var => var.key = key ∧ P := by
  rw [entriesAt, List.filter_filter]
  refine List.filter_congr fun var _ => ?_
  by_cases hkey : var.key = key
  · simp [hkey, ← h var hkey]
  · simp [hkey]

theorem entriesAt_nil (key : String) : entriesAt [] key = [] := rfl

theorem entriesAt_cons (var : EnvVar) (env : List EnvVar) (key : String) :
    entriesAt (var :: env) key =
      if var.key = key then var :: entriesAt env key else entriesAt env key := by
  simp only [entriesAt, List.filter_cons, decide_eq_true_eq]

/-! The tests on a variable, in words. -/

theorem allowedEnvKey_iff {key : String} :
    allowedEnvKey key = true ↔ key = "TERM" ∨ key = "LANG" ∨ "LC_".toList <+: key.toList := by
  simp only [allowedEnvKey, Bool.or_eq_true, beq_iff_eq, List.isPrefixOf_iff_prefix, or_assoc]

theorem admissible_iff {privilegedSwitch : Bool} {var : EnvVar} :
    admissible privilegedSwitch var = true ↔ var.key ≠ "" ∧ '=' ∉ var.key.toList ∧
      (privilegedSwitch = true →
        var.key = "TERM" ∨ var.key = "LANG" ∨ "LC_".toList <+: var.key.toList) := by
  rw [← allowedEnvKey_iff]
  cases privilegedSwitch <;> simp [admissible, validEnvKey, and_assoc]

theorem nulFree_iff {var : EnvVar} :
    var.nulFree = true ↔ '\x00' ∉ var.key.toList ∧ '\x00' ∉ var.value.toList := by
  simp [EnvVar.nulFree]

/-- The last entry without a NUL decides. -/
theorem applySessionEnv_apply (cmd : Vars) (env : List EnvVar) (key : String) :
    applySessionEnv cmd env key =
      (((entriesAt env key).filter EnvVar.nulFree).getLast?.map (·.value)).or (cmd key) := by
  induction env using List.reverseRecOn with
  | nil => rfl
  | append_singleton env var ih =>
    have hfold : applySessionEnv cmd (env ++ [var]) =
        if var.nulFree then Function.update (applySessionEnv cmd env) var.key (some var.value)
        else applySessionEnv cmd env := by
      rw [applySessionEnv, List.foldl_append]
      rfl
    rw [hfold, entriesAt_append, entriesAt_cons, entriesAt_nil, List.filter_append]
    by_cases hnul : var.nulFree
    · rw [if_pos hnul]
      by_cases hkey : var.key = key
      · subst hkey
        simp [hnul]
      · simp [hkey, Function.update_of_ne (Ne.symm hkey), ih]
    · rw [if_neg hnul, ih]
      by_cases hkey : var.key = key <;> simp [hkey, hnul]

theorem applySessionEnv_mem {env : List EnvVar} {key value : String}
    (h : applySessionEnv noVars env key = some value) : ⟨key, value⟩ ∈ env := by
  rw [applySessionEnv_apply, noVars, Option.or_none] at h
  obtain ⟨var, hlast, rfl⟩ := Option.map_eq_some_iff.mp h
  have hmem := (List.mem_filter.mp (List.mem_of_getLast? hlast)).1
  obtain ⟨henv, rfl⟩ := mem_entriesAt.mp hmem
  exact henv

theorem applySessionEnv_of_last {env : List EnvVar} {var : EnvVar}
    (hlast : (entriesAt env var.key).getLast? = some var) (hnul : var.nulFree) :
    applySessionEnv noVars env var.key = some var.value := by
  obtain ⟨init, hinit⟩ := List.getLast?_eq_some_iff.mp hlast
  rw [applySessionEnv_apply, hinit, List.filter_append]
  simp [hnul]

theorem applySessionEnv_of_nulFree {env : List EnvVar} {key : String}
    (hnul : ∀ var ∈ entriesAt env key, var.nulFree) :
    applySessionEnv noVars env key = (entriesAt env key).getLast?.map (·.value) := by
  rw [applySessionEnv_apply, noVars, Option.or_none, List.filter_eq_self.mpr hnul]

theorem entriesAt_pushOrReplaceEnv (env : List EnvVar) (var : EnvVar) (key : String) :
    entriesAt (pushOrReplaceEnv env var) key =
      if var.key = key then [var] else entriesAt env key := by
  rw [pushOrReplaceEnv, entriesAt_append, entriesAt_cons, entriesAt_nil, entriesAt,
    List.filter_filter]
  by_cases hkey : var.key = key
  · rw [if_pos hkey, if_pos hkey]
    have hnone : env.filter (fun x => decide (x.key = key) && decide (x.key ≠ var.key)) = [] := by
      rw [List.filter_eq_nil_iff]
      rintro x - hx
      simp [hkey] at hx
    rw [hnone, List.nil_append]
  · rw [if_neg hkey, if_neg hkey, List.append_nil]
    refine List.filter_congr fun x _ => ?_
    by_cases hx : x.key = key
    · simp [hx, Ne.symm hkey]
    · simp [hx]

/-! What the two loops leave. -/

theorem addClientEnv_eq (env clientEnv : List EnvVar) :
    addClientEnv env clientEnv = env ++ clientEnv.filter fun var => allowedEnvKey var.key := by
  induction clientEnv generalizing env with
  | nil => exact (List.append_nil env).symm
  | cons var rest ih =>
    rw [addClientEnv, List.foldl_cons, ← addClientEnv, ih]
    by_cases hkey : allowedEnvKey var.key <;> simp [hkey]

/-- The last admissible entry of the key replaces what was there. -/
theorem entriesAt_addSetEnv (privilegedSwitch : Bool) (env setEnv : List EnvVar) (key : String) :
    entriesAt (addSetEnv privilegedSwitch env setEnv) key =
      (entriesAt (setEnv.filter (admissible privilegedSwitch)) key).getLast?.elim
        (entriesAt env key) ([·]) := by
  induction setEnv using List.reverseRecOn with
  | nil => rfl
  | append_singleton setEnv var ih =>
    have hfold : addSetEnv privilegedSwitch env (setEnv ++ [var]) =
        if admissible privilegedSwitch var then
          pushOrReplaceEnv (addSetEnv privilegedSwitch env setEnv) var
        else addSetEnv privilegedSwitch env setEnv := by
      rw [addSetEnv, List.foldl_append]
      rfl
    rw [hfold, List.filter_append, entriesAt_append]
    by_cases hvar : admissible privilegedSwitch var
    · rw [if_pos hvar, entriesAt_pushOrReplaceEnv, List.filter_cons_of_pos hvar, List.filter_nil,
        entriesAt_cons, entriesAt_nil]
      by_cases hkey : var.key = key
      · simp [hkey]
      · simp [hkey, ih]
    · rw [if_neg hvar, ih, List.filter_cons_of_neg hvar, List.filter_nil, entriesAt_nil,
        List.append_nil]

/-- What the server adds. -/
def serverVars (connectionEnv : ConnectionEnv) (sshTty : Option String) : List EnvVar :=
  [⟨"SSH_CLIENT", connectionEnv.sshClient⟩, ⟨"SSH_CONNECTION", connectionEnv.sshConnection⟩] ++
    sshTty.toList.map (⟨"SSH_TTY", ·⟩) ++ connectionEnv.authSock.toList.map (⟨"SSH_AUTH_SOCK", ·⟩)

section Session
variable (clientEnv setEnv : List EnvVar) (connectionEnv : ConnectionEnv) (sshTty : Option String)
  (privilegedSwitch : Bool)

/-- The list before the server's own variables. -/
def requested : List EnvVar := addSetEnv privilegedSwitch (addClientEnv [] clientEnv) setEnv

theorem serverVars_of_authSock (sshClient sshConnection authSock : String) :
    serverVars ⟨sshClient, sshConnection, some authSock⟩ sshTty =
      serverVars ⟨sshClient, sshConnection, none⟩ sshTty ++ [⟨"SSH_AUTH_SOCK", authSock⟩] := by
  rw [serverVars, serverVars, Option.toList_none, List.map_nil, List.append_nil]
  rfl

theorem sessionEnv_without_authSock (sshClient sshConnection : String) :
    sessionEnv clientEnv setEnv ⟨sshClient, sshConnection, none⟩ sshTty privilegedSwitch =
      requested clientEnv setEnv privilegedSwitch ++
        serverVars ⟨sshClient, sshConnection, none⟩ sshTty := by
  cases sshTty <;> simp [sessionEnv, serverVars, requested]

theorem sessionEnv_with_authSock (sshClient sshConnection authSock : String) :
    sessionEnv clientEnv setEnv ⟨sshClient, sshConnection, some authSock⟩ sshTty privilegedSwitch =
      pushOrReplaceEnv
        (sessionEnv clientEnv setEnv ⟨sshClient, sshConnection, none⟩ sshTty privilegedSwitch)
        ⟨"SSH_AUTH_SOCK", authSock⟩ := rfl

/-- The server's entries come last, and its agent socket alone. -/
theorem entriesAt_sessionEnv (key : String) :
    entriesAt (sessionEnv clientEnv setEnv connectionEnv sshTty privilegedSwitch) key =
      (if connectionEnv.authSock.isSome ∧ key = "SSH_AUTH_SOCK" then []
        else entriesAt (requested clientEnv setEnv privilegedSwitch) key) ++
      entriesAt (serverVars connectionEnv sshTty) key := by
  obtain ⟨sshClient, sshConnection, authSock⟩ := connectionEnv
  cases authSock with
  | none =>
    rw [sessionEnv_without_authSock, entriesAt_append, if_neg (fun h => by cases h.1)]
  | some authSock =>
    rw [sessionEnv_with_authSock, entriesAt_pushOrReplaceEnv, sessionEnv_without_authSock,
      serverVars_of_authSock, entriesAt_append, entriesAt_append, entriesAt_cons, entriesAt_nil]
    by_cases hkey : key = "SSH_AUTH_SOCK"
    · subst hkey
      have hother : entriesAt (serverVars ⟨sshClient, sshConnection, none⟩ sshTty)
          "SSH_AUTH_SOCK" = [] := by
        cases sshTty <;> rfl
      rw [if_pos rfl, if_pos rfl, if_pos ⟨rfl, rfl⟩, hother]
      rfl
    · have hne : ¬ "SSH_AUTH_SOCK" = key := Ne.symm hkey
      rw [if_neg hne, if_neg hne, if_neg (fun h => hkey h.2), List.append_nil]

/-- The entries of a key that the server leaves alone are those requested. -/
theorem entriesAt_sessionEnv_of_not_mem {key : String}
    (hkey : ∀ var ∈ serverVars connectionEnv sshTty, var.key ≠ key) :
    entriesAt (sessionEnv clientEnv setEnv connectionEnv sshTty privilegedSwitch) key =
      entriesAt (requested clientEnv setEnv privilegedSwitch) key := by
  have hserver : entriesAt (serverVars connectionEnv sshTty) key = [] :=
    List.filter_eq_nil_iff.mpr fun var hvar => by simpa using hkey var hvar
  have hsock : ¬ (connectionEnv.authSock.isSome ∧ key = "SSH_AUTH_SOCK") := by
    rintro ⟨hsome, rfl⟩
    obtain ⟨authSock, hsock⟩ := Option.isSome_iff_exists.mp hsome
    exact hkey ⟨"SSH_AUTH_SOCK", authSock⟩ (by simp [serverVars, hsock]) rfl
  rw [entriesAt_sessionEnv, hserver, if_neg hsock, List.append_nil]

theorem serverVars_key_nodup : ((serverVars connectionEnv sshTty).map (·.key)).Nodup := by
  obtain ⟨sshClient, sshConnection, authSock⟩ := connectionEnv
  cases sshTty <;> cases authSock <;> simp [serverVars]

theorem serverVars_key_nulFree {var : EnvVar} (hvar : var ∈ serverVars connectionEnv sshTty) :
    var.key.toList.contains '\x00' = false := by
  obtain ⟨sshClient, sshConnection, authSock⟩ := connectionEnv
  have hkey : var.key ∈ ["SSH_CLIENT", "SSH_CONNECTION", "SSH_TTY", "SSH_AUTH_SOCK"] := by
    have hmem := List.mem_map_of_mem (f := (·.key)) hvar
    revert hmem
    cases sshTty <;> cases authSock <;> simp [serverVars] <;> tauto
  simp only [List.mem_cons, List.not_mem_nil, or_false] at hkey
  rcases hkey with h | h | h | h <;> rw [h] <;> decide +kernel

/-- Of the server's variables the server's entry is the last. -/
theorem entriesAt_sessionEnv_getLast? {var : EnvVar}
    (hvar : var ∈ serverVars connectionEnv sshTty) :
    (entriesAt (sessionEnv clientEnv setEnv connectionEnv sshTty privilegedSwitch)
      var.key).getLast? = some var := by
  have hserver : entriesAt (serverVars connectionEnv sshTty) var.key = [var] := by
    have hnodup := List.Nodup.of_map _ (serverVars_key_nodup connectionEnv sshTty)
    have hinj := List.inj_on_of_nodup_map (serverVars_key_nodup connectionEnv sshTty)
    have hself : entriesAt (serverVars connectionEnv sshTty) var.key =
        (serverVars connectionEnv sshTty).filter (· = var) := by
      refine List.filter_congr fun x hx => decide_eq_decide.mpr ⟨fun h => hinj hx hvar h, ?_⟩
      rintro rfl
      rfl
    rw [hself, List.filter_eq, List.count_eq_one_of_mem hnodup hvar, List.replicate_one]
  rw [entriesAt_sessionEnv, hserver]
  exact List.getLast?_concat

/-- Under the switch the loops let nothing through but the allowed keys. -/
theorem allowed_of_mem_requested {var : EnvVar} (h : var ∈ requested clientEnv setEnv true) :
    allowedEnvKey var.key := by
  have hentry := mem_entriesAt.mpr ⟨h, rfl⟩
  rw [requested, entriesAt_addSetEnv] at hentry
  cases hlast : (entriesAt (setEnv.filter (admissible true)) var.key).getLast? with
  | none =>
    rw [hlast, Option.elim_none, addClientEnv_eq, List.nil_append] at hentry
    exact (List.mem_filter.mp (mem_entriesAt.mp hentry).1).2
  | some last =>
    rw [hlast, Option.elim_some, List.mem_singleton] at hentry
    subst hentry
    have hset := (mem_entriesAt.mp (List.mem_of_getLast? hlast)).1
    have hadm := (List.mem_filter.mp hset).2
    simpa [admissible] using (Bool.and_eq_true _ _ ▸ hadm).2

theorem entriesAt_requested (key : String) :
    entriesAt (requested clientEnv setEnv privilegedSwitch) key =
      (entriesAt (setEnv.filter (admissible privilegedSwitch)) key).getLast?.elim
        (entriesAt (clientEnv.filter fun var => allowedEnvKey var.key) key) ([·]) := by
  rw [requested, entriesAt_addSetEnv, addClientEnv_eq, List.nil_append]

theorem mem_of_mem_requested {key : String} {var : EnvVar}
    (h : var ∈ entriesAt (requested clientEnv setEnv privilegedSwitch) key) :
    var ∈ entriesAt (clientEnv.filter fun var => allowedEnvKey var.key) key ++
      entriesAt (setEnv.filter (admissible privilegedSwitch)) key := by
  rw [entriesAt_requested] at h
  cases hlast : (entriesAt (setEnv.filter (admissible privilegedSwitch)) key).getLast? with
  | none =>
    rw [hlast] at h
    exact List.mem_append_left _ h
  | some last =>
    rw [hlast, Option.elim_some, List.mem_singleton] at h
    subst h
    exact List.mem_append_right _ (List.mem_of_getLast? hlast)

theorem getLast?_requested (key : String) :
    (entriesAt (requested clientEnv setEnv privilegedSwitch) key).getLast? =
      (entriesAt (setEnv.filter (admissible privilegedSwitch)) key).getLast?.or
        (entriesAt (clientEnv.filter fun var => allowedEnvKey var.key) key).getLast? := by
  rw [entriesAt_requested]
  cases (entriesAt (setEnv.filter (admissible privilegedSwitch)) key).getLast? <;> rfl

theorem mem_sessionEnv {var : EnvVar}
    (h : var ∈ sessionEnv clientEnv setEnv connectionEnv sshTty privilegedSwitch) :
    var ∈ requested clientEnv setEnv privilegedSwitch ∨ var ∈ serverVars connectionEnv sshTty := by
  have hentry := mem_entriesAt.mpr ⟨h, rfl⟩
  rw [entriesAt_sessionEnv, List.mem_append] at hentry
  rcases hentry with hreq | hserver
  · split at hreq
    · cases hreq
    · exact Or.inl (mem_entriesAt.mp hreq).1
  · exact Or.inr (mem_entriesAt.mp hserver).1

/-- The server's variables come first, then the last entry of `SetEnv` and then the last one of
the client's environment; a privileged switch lets no other than the allowed keys through. -/
theorem sessionEnv_precedence (clientEnv setEnv : List EnvVar) (connectionEnv : ConnectionEnv)
    (sshTty : Option String) (privilegedSwitch : Bool) :
    let vars := applySessionEnv noVars
      (sessionEnv clientEnv setEnv connectionEnv sshTty privilegedSwitch)
    (privilegedSwitch = true → ∀ key value, vars key = some value →
      (key = "TERM" ∨ key = "LANG" ∨ "LC_".toList <+: key.toList) ∨
        ⟨key, value⟩ ∈ serverVars connectionEnv sshTty) ∧
    (∀ var ∈ serverVars connectionEnv sshTty, '\x00' ∉ var.value.toList →
      vars var.key = some var.value) ∧
    (∀ key, (∀ var ∈ serverVars connectionEnv sshTty, var.key ≠ key) →
      let fromClient := clientEnv.filter fun var => var.key = key ∧
        (key = "TERM" ∨ key = "LANG" ∨ "LC_".toList <+: key.toList)
      let fromSet := setEnv.filter fun var => var.key = key ∧ key ≠ "" ∧ '=' ∉ key.toList ∧
        (privilegedSwitch = true → key = "TERM" ∨ key = "LANG" ∨ "LC_".toList <+: key.toList)
      (∀ var ∈ fromClient ++ fromSet,
        '\x00' ∉ var.key.toList ∧ '\x00' ∉ var.value.toList) →
      vars key = (fromSet.getLast?.or fromClient.getLast?).map (·.value)) := by
  intro vars
  refine ⟨?_, ?_, ?_⟩
  · rintro rfl key value hvar
    rcases mem_sessionEnv _ _ _ _ _ (applySessionEnv_mem hvar) with hreq | hserver
    · exact Or.inl (allowedEnvKey_iff.mp (allowed_of_mem_requested clientEnv setEnv hreq))
    · exact Or.inr hserver
  · intro var hvar hvalue
    refine applySessionEnv_of_last (entriesAt_sessionEnv_getLast? _ _ _ _ _ hvar) ?_
    rw [EnvVar.nulFree, serverVars_key_nulFree connectionEnv sshTty hvar]
    simpa using hvalue
  · intro key hkey fromClient fromSet hnul
    have hclient : entriesAt (clientEnv.filter fun var => allowedEnvKey var.key) key =
        fromClient := entriesAt_filter fun var hvar => hvar ▸ allowedEnvKey_iff
    have hset : entriesAt (setEnv.filter (admissible privilegedSwitch)) key = fromSet :=
      entriesAt_filter fun var hvar => hvar ▸ admissible_iff
    have hentries := entriesAt_sessionEnv_of_not_mem clientEnv setEnv connectionEnv sshTty
      privilegedSwitch hkey
    have hfree : ∀ var ∈ entriesAt
        (sessionEnv clientEnv setEnv connectionEnv sshTty privilegedSwitch) key, var.nulFree := by
      rw [hentries]
      intro var hvar
      have hmem := mem_of_mem_requested _ _ _ hvar
      rw [hclient, hset] at hmem
      exact nulFree_iff.mpr (hnul var hmem)
    rw [← hset, ← hclient, ← getLast?_requested, ← hentries]
    exact applySessionEnv_of_nulFree hfree

end Session

/-- An entry of `SetEnv` with a NUL still takes the place of the one before it, although it is not
applied. -/
example :
    applySessionEnv noVars
      (sessionEnv [⟨"LANG", "C"⟩] [⟨"LANG", "x\x00"⟩] ⟨"client", "connection", none⟩ none false)
      "LANG" = none := by
  decide +kernel

end Hush.Session.Environment
