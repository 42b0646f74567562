import Hush.SshConfig.Parse

/-! Which block a line of `ssh_config` belongs to, and which lines the parser applies. -/
namespace Hush.SshConfig
open Hush.Lib

def IsMatchLine (raw : List Char) : Prop := ∃ value, LineSays raw "match".toList value

/-- A `Host` or a `Match` line ends the block before it. -/
def OpensBlock (raw : List Char) : Prop := IsHostLine raw ∨ IsMatchLine raw

/-- What precedes the line is the preamble. -/
def InPreamble (before : List (List Char)) : Prop := ∀ l ∈ before, ¬ OpensBlock l

/-- The last block that has been opened is a `Match` block. -/
def InMatchBlock (before : List (List Char)) : Prop :=
  ∃ front l body, before = front ++ l :: body ∧ IsMatchLine l ∧ ∀ raw ∈ body, ¬ OpensBlock raw

/-- The line is a directive that the parser knows. -/
def IsDirective (raw : List Char) (d : Directive) : Prop :=
  ∃ name, (name, d.keyword) ∈ keywords ∧ d.keyword ≠ .host ∧ LineSays raw name.toList d.value

/-- The parser is in this state after these lines. -/
def Reached (env : Env) (hostAlias : List Char) (before : List (List Char)) (s : Parser) : Prop :=
  before.foldlM (Parser.line env hostAlias) ⟨false, .default⟩ = .ok s

/-- Where the parser gets to the line, it applies the directive, whatever the configuration is. -/
def Applies (env : Env) (hostAlias : List Char) (before : List (List Char)) (raw : List Char)
    (d : Directive) : Prop :=
  ∀ s, Reached env hostAlias before s → ∀ cfg, Parser.line env hostAlias { s with cfg } raw =
    (cfg.apply env d).map fun cfg => { s with cfg }

/-- Where the parser gets to the line, it leaves the configuration as it is. -/
def Skips (env : Env) (hostAlias : List Char) (before : List (List Char)) (raw : List Char) :
    Prop :=
  ∀ s, Reached env hostAlias before s → ∀ cfg,
    Parser.line env hostAlias { s with cfg } raw = .ok { s with cfg }

/-- Blocks are scoped as in `ssh_config`: the directives of the preamble are applied, and none in
a `Match` block is applied with the `Host` block before it. -/
structure Scoped (env : Env) (hostAlias data : List Char) : Prop where
  preamble : ∀ before raw after d, Text.lines data = before ++ raw :: after →
    InPreamble before → IsDirective raw d → Applies env hostAlias before raw d
  matchBlock : ∀ before raw after d, Text.lines data = before ++ raw :: after →
    InMatchBlock before → IsDirective raw d → Skips env hostAlias before raw

/-- The value of the directive says something: these three may have one that selects nothing. -/
def Usable (env : Env) (d : Directive) : Prop :=
  match d.keyword with
  | .port => parsePort d.value ≠ none
  | .identityAgent => parseIdentityAgent env d.value ≠ none
  | .forwardAgent => parseForwardAgent env d.value ≠ none
  | _ => True

/-- The forwards of the blocks that match parse, and so does their first `SetEnv`. -/
structure Parses (env : Env) (hostAlias : List Char) (lines : List (List Char)) : Prop where
  localForwards : ∀ values, Says hostAlias "localforward".toList [] lines values →
    ∀ v ∈ values, ∃ f, parseSshForward env v = .ok f
  remoteForwards : ∀ values, Says hostAlias "remoteforward".toList [] lines values →
    ∀ v ∈ values, ∃ f, parseSshForward env v = .ok f
  setEnv : ∀ values, Says hostAlias "setenv".toList [] lines values →
    ∀ v ∈ values.head?, ∃ vars, parseSetEnv env v = .ok vars

variable {env : Env} {hostAlias : List Char} {before : List (List Char)} {s t : Parser}
  {raw : List Char} {d : Directive}

theorem IsDirective.directive_eq (h : IsDirective raw d) : directive raw = some d := by
  obtain ⟨name, hname, -, hsaid⟩ := h
  exact (directive_keyword_iff hname raw d.value).mpr hsaid

/-- A directive is applied exactly if the parser is active there. -/
theorem line_of_directive (h : IsDirective raw d) :
    Parser.line env hostAlias s raw =
      if s.active then (s.cfg.apply env d).map fun cfg => { s with cfg := cfg } else .ok s := by
  obtain ⟨-, -, hhost, -⟩ := id h
  simp only [Parser.line, h.directive_eq, if_neg hhost]
  rfl

theorem apply_fixes_iff (h : IsDirective raw d) :
    (∀ cfg : SshHostConfig, cfg.apply env d = .ok cfg) ↔ ¬ Usable env d := by
  obtain ⟨name, hname, hhost, -⟩ := h
  obtain ⟨keyword, value⟩ := d
  have hknown : keyword ≠ .unknown := by
    have hall : ∀ e ∈ keywords, e.2 ≠ .unknown := by decide
    exact hall _ hname
  constructor
  · intro hfix husable
    have hdefault := hfix .default
    obtain ⟨hsetEnv, hlocal, hremote⟩ := apply_eq_ok hdefault
    cases keyword with
    | host => exact hhost rfl
    | unknown => exact hknown rfl
    | setEnv =>
      obtain ⟨hne, -⟩ | ⟨-, vars, hvars, heq⟩ := hsetEnv rfl
      · exact hne rfl
      · exact (parseSetEnv_ok hvars).1 (congrArg SshHostConfig.setEnv heq).symm
    | localForward =>
      obtain ⟨f, -, heq⟩ := hlocal rfl
      simp [SshHostConfig.default] at heq
    | remoteForward =>
      obtain ⟨f, -, heq⟩ := hremote rfl
      simp [SshHostConfig.default] at heq
    | user | hostname | identityFile =>
      simp [SshHostConfig.apply, SshHostConfig.default] at hdefault
    | port | identityAgent | forwardAgent =>
      simp [SshHostConfig.apply, SshHostConfig.default] at hdefault
      exact husable hdefault
  · intro hnot cfg
    cases keyword with
    | port | identityAgent | forwardAgent =>
      have hnone := of_not_not hnot
      simp [SshHostConfig.apply, hnone]
    | _ => exact absurd trivial hnot

theorem active_line (h : Parser.line env hostAlias s raw = .ok t)
    (hs : s.active = true ↔ Active hostAlias before) :
    t.active = true ↔ Active hostAlias (before ++ [raw]) := by
  unfold Parser.line at h
  split at h
  · next hd =>
    cases h
    rw [active_append_other hostAlias before (by simp only [hostLine, hd])]
    exact hs
  · next d hd =>
    have hline := hostLine_eq hd
    split at h
    · next hhost =>
      cases h
      rw [if_pos hhost] at hline
      exact (active_append_host hline).symm
    · next hhost =>
      rw [if_neg hhost] at hline
      rw [active_append_other hostAlias before hline]
      split at h
      · obtain ⟨cfg, -, heq⟩ := bind_eq_ok_iff.mp h
        cases heq
        exact hs
      · cases h
        exact hs

/-- Only the nearest `Host` line decides. -/
theorem Reached.active_iff (h : Reached env hostAlias before s) :
    s.active = true ↔ Active hostAlias before := by
  induction before using List.reverseRecOn generalizing s with
  | nil =>
    cases h
    simp [not_active_nil]
  | append_singleton before raw ih =>
    rw [Reached, List.foldlM_append] at h
    obtain ⟨t, ht, hline⟩ := bind_eq_ok_iff.mp h
    simp only [List.foldlM_cons, List.foldlM_nil, bind_pure] at hline
    exact active_line hline (ih ht)

/-- The parser gets through lines that parse. -/
theorem reached_iff : (∃ s, Reached env hostAlias before s) ↔ Parses env hostAlias before := by
  have hrun : (do let s ← before.foldlM (Parser.line env hostAlias) ⟨false, .default⟩
                  return s.cfg) =
      (actives hostAlias [] before).foldlM (SshHostConfig.apply env) .default := by
    rw [← foldlM_line]
    simp only [not_active_nil, decide_false]
  have hreached : (∃ s, Reached env hostAlias before s) ↔
      ∃ cfg, (actives hostAlias [] before).foldlM (SshHostConfig.apply env) .default = .ok cfg := by
    rw [← hrun]
    simp only [Reached]
    cases before.foldlM (Parser.line env hostAlias) ⟨false, .default⟩ <;> simp
  have hsaid : ∀ {name : String} {keyword : Keyword}, (name, keyword) ∈ keywords →
      keyword ≠ .host → ∀ {P : List (List Char) → Prop},
      (∀ values, Says hostAlias name.toList [] before values → P values) ↔
        P (valuesOf (actives hostAlias [] before) keyword) := by
    intro name keyword hname hhost P
    simp only [says_iff hname hhost, forall_eq]
  have hlocal := @hsaid "localforward" .localForward (by decide) (by decide)
  have hremote := @hsaid "remoteforward" .remoteForward (by decide) (by decide)
  have hsetEnv := @hsaid "setenv" .setEnv (by decide) (by decide)
  rw [hreached, (apply_all env (actives hostAlias [] before)).1]
  constructor
  · intro h
    exact ⟨hlocal.mpr (h .localForward), hremote.mpr (h .remoteForward), hsetEnv.mpr (h .setEnv)⟩
  · rintro ⟨h, h', h''⟩ keyword
    cases keyword <;>
      first | exact hlocal.mp h | exact hremote.mp h' | exact hsetEnv.mp h'' | trivial

/-- The parser gets through the preamble, and applies none of it. -/
theorem InPreamble.reached (h : InPreamble before) :
    Reached env hostAlias before ⟨false, .default⟩ := by
  unfold Reached
  induction before with
  | nil => rfl
  | cons raw rest ih =>
    have hline : Parser.line env hostAlias ⟨false, .default⟩ raw = .ok ⟨false, .default⟩ := by
      have hopen : hostLine raw = none :=
        hostLine_eq_none_iff.mpr fun hhost => h raw List.mem_cons_self (.inl hhost)
      cases hd : directive raw with
      | none => simp only [Parser.line, hd]
      | some d =>
        have hhost : d.keyword ≠ .host := by
          intro hhost
          simp [hostLine_eq hd, hhost] at hopen
        simp [Parser.line, hd, hhost]
    rw [List.foldlM_cons, hline, ok_bind]
    exact ih fun l hl => h l (List.mem_cons_of_mem _ hl)

/-- The parser scopes blocks as `ssh_config` does exactly if the preamble has no usable directive,
and no usable directive of a `Match` block comes after a `Host` line that matches. -/
theorem scoped_iff (env : Env) (hostAlias data : List Char) :
    Scoped env hostAlias data ↔
      (∀ before raw after d, Text.lines data = before ++ raw :: after → InPreamble before →
        IsDirective raw d → ¬ Usable env d) ∧
      ∀ before raw after d, Text.lines data = before ++ raw :: after → InMatchBlock before →
        IsDirective raw d → Usable env d → Parses env hostAlias before →
        ¬ Active hostAlias before := by
  constructor
  · rintro ⟨hpreamble, hmatch⟩
    refine ⟨?_, ?_⟩
    · intro before raw after d hlines hbefore hd
      rw [← apply_fixes_iff hd]
      intro cfg
      have happly := hpreamble before raw after d hlines hbefore hd _ hbefore.reached cfg
      rw [line_of_directive hd, if_neg Bool.false_ne_true] at happly
      cases hcfg : cfg.apply env d with
      | error chain => simp [hcfg, Except.map] at happly
      | ok cfg' => simpa [hcfg, Except.map] using happly.symm
    · intro before raw after d hlines hbefore hd husable hparses hactive
      obtain ⟨s, hs⟩ := reached_iff.mpr hparses
      refine (apply_fixes_iff hd).mp (fun cfg => ?_) husable
      have hskip := hmatch before raw after d hlines hbefore hd s hs cfg
      rw [line_of_directive hd, if_pos (hs.active_iff.mpr hactive)] at hskip
      cases hcfg : cfg.apply env d with
      | error chain => simp [hcfg, Except.map] at hskip
      | ok cfg' => simpa [hcfg, Except.map] using hskip
  · rintro ⟨hpreamble, hmatch⟩
    refine ⟨?_, ?_⟩
    · intro before raw after d hlines hbefore hd s hs cfg
      have hfix := (apply_fixes_iff hd).mpr (hpreamble before raw after d hlines hbefore hd) cfg
      rw [line_of_directive hd]
      simp [hfix, Except.map]
    · intro before raw after d hlines hbefore hd s hs cfg
      rw [line_of_directive hd]
      by_cases husable : Usable env d
      · have hinactive := hmatch before raw after d hlines hbefore hd husable
          (reached_iff.mp ⟨s, hs⟩)
        rw [if_neg (mt hs.active_iff.mp hinactive)]
      · simp [(apply_fixes_iff hd).mpr husable cfg, Except.map]

/-- The user of the preamble is lost, and the port of the `Match` block goes to the host above. -/
theorem blocks_misread :
    parseSshConfig plainEnv "web".toList
        "User alice\nHost web\nMatch user bob\nPort 2222".toList =
      .ok { SshHostConfig.default with port := some 2222 } ∧
    ¬ Scoped plainEnv "web".toList
        "User alice\nHost web\nMatch user bob\nPort 2222".toList := by
  refine ⟨by decide +kernel, ?_⟩
  rintro ⟨hpreamble, -⟩
  have happly := hpreamble [] "User alice".toList
    ["Host web".toList, "Match user bob".toList, "Port 2222".toList] ⟨.user, "alice".toList⟩
    (by decide +kernel) (by simp [InPreamble]) ⟨"user", by decide +kernel⟩ ⟨false, .default⟩ rfl
    .default
  revert happly
  decide +kernel

end Hush.SshConfig
