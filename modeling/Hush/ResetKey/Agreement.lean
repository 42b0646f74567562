import Hush.ResetKey.Interleaving

/-! Only a filled temporary is ever linked, and nobody writes to a linked inode. -/
namespace Hush.ResetKey
open Hush.Lib

variable {path : String} {fs fs' : Fs} {stage stage' other : Stage} {key : Key} {data : Bytes}

/-- The inode that a call has open for writing. -/
def Stage.inode : Stage → Option Nat
  | .writing _ _ _ inode | .synced _ _ _ inode => some inode
  | .entered | .reading _ | .opened _ _ | .generating | .trying _ _ | .linked _ _ | .removed _ _
  | .lost _ | .failing _ _ | .done _ => none

/-- The name that a call may still link or remove while there is no key yet. -/
def Stage.nonce : Stage → Option String
  | .writing _ _ nonce _ | .synced _ _ nonce _ | .failing nonce _ => some nonce
  | .entered | .reading _ | .opened _ _ | .generating | .trying _ _ | .linked _ _ | .removed _ _
  | .lost _ | .done _ => none

/-- The inode is in use and not the key's; until there is a key it has this name. -/
structure Owned (fs : Fs) (nonce : String) (inode : Nat) : Prop where
  used : inode < fs.next
  unlinked : fs.file ≠ some inode
  named : fs.file = none → fs.tmp nonce = some inode

/-- What a call knows about the directory. -/
def StageOk (fs : Fs) : Stage → Prop
  | .reading (some _) | .lost _ => fs.file ≠ none
  | .opened _ inode => fs.file = some inode
  | .writing _ _ nonce inode => Owned fs nonce inode
  | .synced key _ nonce inode => Owned fs nonce inode ∧ fs.data inode = key.bytes
  | .linked key _ | .removed key _ | .done (.ok key) => fs.content = some key.bytes
  | .failing nonce _ => fs.file = none → fs.tmp nonce ≠ none
  | .entered | .reading none | .generating | .trying _ _ | .done (.error _) => True

/-- Two calls write to different inodes and, until there is a key, use different names. -/
structure Apart (fs : Fs) (stage other : Stage) : Prop where
  inode : ∀ i, stage.inode = some i → other.inode ≠ some i
  nonce : fs.file = none → ∀ n, stage.nonce = some n → other.nonce ≠ some n

theorem Apart.symm (h : Apart fs stage other) : Apart fs other stage :=
  ⟨fun i ho hs => h.inode i hs ho, fun hf n ho hs => h.nonce hf n hs ho⟩

theorem file_ne_none_of_content (h : fs.content = some data) : fs.file ≠ none := by
  intro hf
  simp [Fs.content, hf] at h

theorem content_eq_some : fs.content = some data ↔ ∃ i, fs.file = some i ∧ fs.data i = data := by
  simp [Fs.content]

theorem bytes_of_readKey (h : readKey path data = .ok key) : data = key.bytes := by
  unfold readKey at h
  split at h
  · cases h
    rfl
  · split at h <;> cases h

theorem Key.ext_bytes {key' : Key} (h : key.bytes = key'.bytes) : key = key' := by
  cases key
  cases key'
  cases h
  rfl

/-- An error gives up the inode, and keeps the name where that still matters. -/
theorem onError_ok {err : String} (h : stage.onError err = some stage') (hs : StageOk fs stage) :
    StageOk fs stage' ∧ stage'.inode = none ∧
      (fs.file = none → ∀ n, stage'.nonce = some n → stage.nonce = some n) := by
  have linked : fs.file ≠ none → ∀ nonce, StageOk fs (.failing nonce err) ∧
      (Stage.failing nonce err).inode = none ∧
      (fs.file = none → ∀ n, (Stage.failing nonce err).nonce = some n → stage.nonce = some n) :=
    fun hf nonce => ⟨fun hn => (hf hn).elim, rfl, fun hn => (hf hn).elim⟩
  cases stage with
  | entered | generating | trying key tries =>
    cases h
    exact ⟨trivial, rfl, nofun⟩
  | reading retry =>
    cases retry with
    | none =>
      cases h
      exact ⟨trivial, rfl, nofun⟩
    | some retry =>
      cases h
      exact linked hs retry.nonce
  | opened retry inode =>
    have hf : fs.file ≠ none := by simp [show fs.file = some inode from hs]
    cases retry with
    | none =>
      cases h
      exact ⟨trivial, rfl, nofun⟩
    | some retry =>
      cases h
      exact linked hf retry.nonce
  | writing key tries nonce inode =>
    cases h
    refine ⟨?_, rfl, fun _ n hn => hn⟩
    intro hf
    simp [hs.named hf]
  | synced key tries nonce inode =>
    cases h
    refine ⟨?_, rfl, fun _ n hn => hn⟩
    intro hf
    simp [hs.1.named hf]
  | linked key nonce | removed key nonce =>
    cases h
    exact linked (file_ne_none_of_content hs) nonce
  | lost retry =>
    cases h
    exact linked hs retry.nonce
  | failing | done => cases h

/-- The directory's names keep to inodes in use. -/
theorem bounded_exec (h : Exec path fs stage fs' stage') (hb : fs.Bounded) : fs'.Bounded := by
  have remove : ∀ nonce, (fs.remove nonce).Bounded := by
    intro nonce
    refine ⟨hb.file, ?_⟩
    intro n i hi
    by_cases hn : n = nonce
    · simp [Fs.remove, hn] at hi
    · exact hb.tmp n i (by simpa [Fs.remove, hn] using hi)
  cases h with
  | create nonce hfree =>
    refine ⟨fun i hi => Nat.lt_succ_of_lt (hb.file i hi), ?_⟩
    intro n i hi
    simp only [Fs.create]
    by_cases hn : n = nonce
    · simp [Fs.create, hn] at hi
      omega
    · have := hb.tmp n i (by simpa [Fs.create, hn] using hi)
      omega
  | write | sync => exact ⟨hb.file, hb.tmp⟩
  | link hf ht =>
    refine ⟨?_, hb.tmp⟩
    intro i hi
    cases hi
    exact hb.tmp _ _ ht
  | removeLinked | removeLost => exact remove _
  | cleanup removed =>
    cases removed
    · exact hb
    · exact remove _
  | _ => exact hb

/-- The step of a call that is doing well leaves a key that is there as it is. -/
theorem content_exec (h : Exec path fs stage fs' stage') (hb : fs.Bounded)
    (hs : StageOk fs stage) (hc : fs.content = some data) : fs'.content = some data := by
  obtain ⟨i, hi, hd⟩ := content_eq_some.mp hc
  have hne : ∀ {j}, fs.file ≠ some j → i ≠ j := by
    intro j hj he
    exact hj (he ▸ hi)
  cases h with
  | create nonce hfree =>
    have hlt := hb.file i hi
    have : i ≠ fs.next := by omega
    exact content_eq_some.mpr ⟨i, hi, by simp [Fs.create, this, hd]⟩
  | write b =>
    exact content_eq_some.mpr ⟨i, hi, by simp [Fs.write, hne hs.unlinked, hd]⟩
  | sync => exact content_eq_some.mpr ⟨i, hi, by simp [Fs.write, hne hs.unlinked, hd]⟩
  | link hf ht => simp [hi] at hf
  | removeLinked | removeLost => exact hc
  | cleanup removed => cases removed <;> exact hc
  | _ => exact hc

/-- Nobody deletes the key's file. -/
theorem file_exec (h : Exec path fs stage fs' stage') {i : Nat} (hi : fs.file = some i) :
    fs'.file = some i := by
  cases h with
  | link hf ht => simp [hi] at hf
  | create | write | sync | removeLinked | removeLost => exact hi
  | cleanup removed => cases removed <;> exact hi
  | _ => exact hi

theorem file_none_of_exec (h : Exec path fs stage fs' stage') (hf : fs'.file = none) :
    fs.file = none := by
  cases hi : fs.file with
  | none => rfl
  | some i => simp [file_exec h hi] at hf

/-- The call that steps keeps what it knows. -/
theorem stageOk_exec (h : Exec path fs stage fs' stage') (hb : fs.Bounded)
    (hs : StageOk fs stage) : StageOk fs' stage' := by
  cases h with
  | prepare | openMissing | openGone | generate | collide | exhausted | cleanup => trivial
  | openFound hf => exact hf
  | read hr =>
    have hf : fs.file = some _ := hs
    exact content_eq_some.mpr ⟨_, hf, bytes_of_readKey hr⟩
  | create nonce hfree =>
    refine ⟨?_, ?_, ?_⟩
    · simp [Fs.create]
    · intro hf
      have := hb.file _ hf
      omega
    · simp [Fs.create]
  | write b => exact ⟨hs.used, hs.unlinked, hs.named⟩
  | sync => exact ⟨⟨hs.used, hs.unlinked, hs.named⟩, by simp [Fs.write]⟩
  | link hf ht =>
    -- the name still has the inode that this call has filled
    obtain ⟨hown, hdata⟩ := hs
    rw [hown.named hf, Option.some.injEq] at ht
    exact content_eq_some.mpr ⟨_, rfl, ht ▸ hdata⟩
  | linkExists hf => exact hf
  | removeLinked | syncDir => exact hs
  | removeLost => exact hs
  | error err he => exact (onError_ok he hs).1

/-- The step links the key's path to nothing but the inode that the call has filled. -/
theorem file_exec_cases (h : Exec path fs stage fs' stage') (hs : StageOk fs stage) {i : Nat}
    (hi : fs'.file = some i) : fs.file = some i ∨ stage.inode = some i := by
  cases h with
  | link hf ht =>
    rw [hs.1.named hf] at ht
    exact Or.inr (ht.trans hi)
  | create | write | sync | removeLinked | removeLost => exact Or.inl hi
  | cleanup removed => cases removed <;> exact Or.inl hi
  | _ => exact Or.inl hi

/-- While there is no key, a call touches no name in use but its own. -/
theorem tmp_exec (h : Exec path fs stage fs' stage') (hs : StageOk fs stage)
    (hf : fs'.file = none) {n : String} (hn : fs.tmp n ≠ none) (hne : stage.nonce ≠ some n) :
    fs'.tmp n = fs.tmp n := by
  have hold := file_none_of_exec h hf
  cases h with
  | create nonce hfree =>
    have hnn : n ≠ nonce := by
      intro he
      exact hn (he ▸ hfree)
    simp [Fs.create, hnn]
  | removeLinked => exact (file_ne_none_of_content hs hold).elim
  | removeLost => exact (hs hold).elim
  | @cleanup nonce err removed =>
    have hnn : n ≠ nonce := by
      intro he
      exact hne (he ▸ rfl)
    cases removed <;> simp [Fs.remove, hnn]
  | write | sync | link => rfl
  | _ => rfl

/-- A call writes to its own inode or to a new one. -/
theorem data_exec (h : Exec path fs stage fs' stage') {i : Nat} (hu : i < fs.next)
    (hne : stage.inode ≠ some i) : fs'.data i = fs.data i := by
  cases h with
  | create nonce hfree =>
    have : i ≠ fs.next := by omega
    simp [Fs.create, this]
  | @write key tries nonce inode b =>
    have hii : i ≠ inode := fun he => hne (he ▸ rfl)
    simp [Fs.write, hii]
  | @sync key tries nonce inode =>
    have hii : i ≠ inode := fun he => hne (he ▸ rfl)
    simp [Fs.write, hii]
  | link | removeLinked | removeLost => rfl
  | cleanup removed => cases removed <;> rfl
  | _ => rfl

theorem next_exec (h : Exec path fs stage fs' stage') : fs.next ≤ fs'.next := by
  cases h with
  | create => exact Nat.le_succ _
  | write | sync | link | removeLinked | removeLost => exact Nat.le_refl _
  | cleanup removed => cases removed <;> exact Nat.le_refl _
  | _ => exact Nat.le_refl _

theorem owned_frame (h : Exec path fs stage fs' stage') (hs : StageOk fs stage) {n : String}
    {i : Nat} (ho : Owned fs n i) (hi : stage.inode ≠ some i)
    (hn : fs.file = none → stage.nonce ≠ some n) : Owned fs' n i := by
  refine ⟨Nat.lt_of_lt_of_le ho.used (next_exec h), ?_, ?_⟩
  · intro hf
    rcases file_exec_cases h hs hf with hold | hown
    · exact ho.unlinked hold
    · exact hi hown
  · intro hf
    have hold := file_none_of_exec h hf
    have hname := ho.named hold
    rw [tmp_exec h hs hf (by simp [hname]) (hn hold), hname]

/-- What another call knows survives the step, as long as the two are apart. -/
theorem stageOk_frame (h : Exec path fs stage fs' stage') (hb : fs.Bounded)
    (hs : StageOk fs stage) (ho : StageOk fs other) (ha : Apart fs other stage) :
    StageOk fs' other := by
  have hcontent : ∀ key : Key, fs.content = some key.bytes → fs'.content = some key.bytes :=
    fun key hc => content_exec h hb hs hc
  have hfile : fs.file ≠ none → fs'.file ≠ none := fun hn hf => hn (file_none_of_exec h hf)
  cases other with
  | entered | generating | trying => trivial
  | reading retry =>
    cases retry with
    | none => trivial
    | some retry => exact hfile ho
  | opened retry inode => exact file_exec h ho
  | writing key tries nonce inode =>
    exact owned_frame h hs ho (ha.inode inode rfl) fun hf => ha.nonce hf nonce rfl
  | synced key tries nonce inode =>
    obtain ⟨hown, hdata⟩ := ho
    refine ⟨owned_frame h hs hown (ha.inode inode rfl) fun hf => ha.nonce hf nonce rfl, ?_⟩
    rw [data_exec h hown.used (ha.inode inode rfl), hdata]
  | linked key nonce | removed key nonce => exact hcontent key ho
  | lost retry => exact hfile ho
  | failing nonce err =>
    intro hf
    have hold := file_none_of_exec h hf
    rw [tmp_exec h hs hf (ho hold) (ha.nonce hold nonce rfl)]
    exact ho hold
  | done result =>
    cases result with
    | ok key => exact hcontent key ho
    | error err => trivial

theorem inode_used (hs : StageOk fs stage) {i : Nat} (hi : stage.inode = some i) :
    i < fs.next := by
  cases stage with
  | writing key tries nonce inode =>
    cases hi
    exact hs.used
  | synced key tries nonce inode =>
    cases hi
    exact hs.1.used
  | _ => cases hi

theorem nonce_used (hs : StageOk fs stage) (hf : fs.file = none) {n : String}
    (hn : stage.nonce = some n) : fs.tmp n ≠ none := by
  cases stage with
  | writing key tries nonce inode =>
    cases hn
    simp [hs.named hf]
  | synced key tries nonce inode =>
    cases hn
    simp [hs.1.named hf]
  | failing nonce err =>
    cases hn
    exact hs hf
  | _ => cases hn

/-- A call takes over no inode and no name that another one has. -/
theorem apart_exec (h : Exec path fs stage fs' stage') (hs : StageOk fs stage)
    (ho : StageOk fs other) (ha : Apart fs other stage) : Apart fs' other stage' := by
  have same : stage'.inode = stage.inode → stage'.nonce = stage.nonce → Apart fs' other stage' := by
    intro hi hn
    refine ⟨fun i hoi => hi ▸ ha.inode i hoi, ?_⟩
    intro hf n hon
    rw [hn]
    exact ha.nonce (file_none_of_exec h hf) n hon
  have given : stage'.inode = none → stage'.nonce = none → Apart fs' other stage' := by
    intro hi hn
    exact ⟨fun _ _ => by simp [hi], fun _ _ _ => by simp [hn]⟩
  cases h with
  | create nonce hfree =>
    refine ⟨?_, ?_⟩
    · intro i hoi he
      have hlt := inode_used ho hoi
      cases he
      omega
    · intro hf n hon he
      cases he
      exact nonce_used ho hf hon hfree
  | write b | sync => exact same rfl rfl
  | error err he =>
    obtain ⟨_, hi, hn⟩ := onError_ok he hs
    refine ⟨fun i _ => by simp [hi], ?_⟩
    intro hf n hon hn'
    exact ha.nonce hf n hon (hn hf n hn')
  | _ => exact given rfl rfl

variable {Proc : Type*} {s t v w : State Proc} {a : Action Proc} {p q : Proc}
  {xs : List (Action Proc)}

/-- Every running call is right about the directory, and any two are apart. -/
structure Invariant (s : State Proc) : Prop where
  bounded : s.fs.Bounded
  ok : ∀ p stage, s.pc p = .active stage → StageOk s.fs stage
  apart : ∀ p q stage other, p ≠ q → s.pc p = .active stage → s.pc q = .active other →
    Apart s.fs stage other

theorem invariant_initial (h : Initial s) : Invariant s := by
  have idle : ∀ p stage, s.pc p ≠ .active stage := by
    intro p stage hp
    rcases h.2 p with hi | hi <;> simp [hi] at hp
  exact ⟨h.1, fun p stage hp => (idle p stage hp).elim,
    fun p _ stage _ _ hp => (idle p stage hp).elim⟩

section
variable [DecidableEq Proc]

@[simp] theorem State.setPC_pc_self (pc : PC) : (s.setPC p pc).pc p = pc := by simp [setPC]

theorem State.setPC_pc_of_ne (pc : PC) (h : q ≠ p) : (s.setPC p pc).pc q = s.pc q := by
  simp [setPC, h]

/-- What has to be shown when one call moves on and may change the directory. -/
theorem invariant_update {pc : PC} (hi : Invariant s) (hb : fs'.Bounded)
    (hf : fs'.file = none → s.fs.file = none)
    (hown : ∀ stage, pc = .active stage → StageOk fs' stage)
    (hothers : ∀ q other, q ≠ p → s.pc q = .active other → StageOk fs' other ∧
      ∀ stage, pc = .active stage → Apart fs' other stage) :
    Invariant ({ s with fs := fs' }.setPC p pc) := by
  refine ⟨hb, ?_, ?_⟩
  · intro q stage hq
    by_cases hqp : q = p
    · subst hqp
      exact hown stage (by simpa using hq)
    · rw [State.setPC_pc_of_ne _ hqp] at hq
      exact (hothers q stage hqp hq).1
  · intro q r stage other hne hq hr
    by_cases hqp : q = p
    · subst hqp
      rw [State.setPC_pc_of_ne _ hne.symm] at hr
      exact ((hothers r other hne.symm hr).2 stage (by simpa using hq)).symm
    · rw [State.setPC_pc_of_ne _ hqp] at hq
      by_cases hrp : r = p
      · subst hrp
        exact (hothers q stage hqp hq).2 other (by simpa using hr)
      · rw [State.setPC_pc_of_ne _ hrp] at hr
        have ha := hi.apart q r stage other hne hq hr
        exact ⟨ha.inode, fun h => ha.nonce (hf h)⟩

/-- A call that starts, ends or dies leaves the directory and the others alone. -/
theorem invariant_setPC {pc : PC} (hi : Invariant s)
    (hpc : ∀ stage, pc = .active stage → stage = .entered) : Invariant (s.setPC p pc) := by
  refine invariant_update hi hi.bounded id ?_ ?_
  · intro stage he
    rw [hpc stage he]
    trivial
  · intro q other _ hq
    refine ⟨hi.ok q other hq, ?_⟩
    intro stage he
    rw [hpc stage he]
    exact ⟨fun _ _ => nofun, fun _ _ _ => nofun⟩

theorem invariant_step (h : Step path s a t) (hi : Invariant s) : Invariant t := by
  cases h with
  | call hp =>
    refine invariant_setPC hi ?_
    intro stage he
    cases he
    rfl
  | ret hp | restart hp => exact invariant_setPC hi nofun
  | crash p => exact invariant_setPC hi nofun
  | internal hp he =>
    have hs := hi.ok _ _ hp
    refine invariant_update hi (bounded_exec he hi.bounded) (file_none_of_exec he) ?_ ?_
    · intro stage' heq
      cases heq
      exact stageOk_exec he hi.bounded hs
    · intro q other hq hother
      have ha := hi.apart _ _ _ _ hq hother hp
      have ho := hi.ok q other hother
      refine ⟨stageOk_frame he hi.bounded hs ho ha, ?_⟩
      intro stage' heq
      cases heq
      exact apart_exec he hs ho ha

theorem content_step (h : Step path s a t) (hi : Invariant s) (hc : s.fs.content = some data) :
    t.fs.content = some data := by
  cases h with
  | internal hp he => exact content_exec he hi.bounded (hi.ok _ _ hp) hc
  | _ => exact hc

theorem content_trace (h : Trace (Step path) s xs t) (hi : Invariant s)
    (hc : s.fs.content = some data) : t.fs.content = some data :=
  (h.invariant (P := fun s => Invariant s ∧ s.fs.content = some data) ⟨hi, hc⟩
    fun h ⟨hi, hc⟩ => ⟨invariant_step h hi, content_step h hi hc⟩).2

/-- A successful call returns what the file holds when it returns. -/
theorem ret_ok_content (h : Step path s (.ret p (.ok key)) t) (hi : Invariant s) :
    s.fs.content = some key.bytes ∧ t.fs.content = some key.bytes := by
  cases h with
  | ret hp => exact ⟨hi.ok _ _ hp, hi.ok _ _ hp⟩

theorem ret_ok_content_later (h : Trace (Step path) s xs t) (hi : Invariant s)
    (hr : .ret p (.ok key) ∈ xs) : t.fs.content = some key.bytes := by
  obtain ⟨v, w, before, after, _, hbefore, hstep, hafter⟩ := h.takes_of_mem hr
  have hv := hbefore.invariant hi invariant_step
  exact content_trace hafter (invariant_step hstep hv) (ret_ok_content hstep hv).2

/-- All servers agree on the key, for any number of them, in any interleaving and with
crashes anywhere: a call that returns Ok returns the 64 bytes that are the whole file, the
file keeps them, and so every other Ok is for the same key. -/
theorem reset_key_agreed (hs : Initial s) (h : Trace (Step path) s xs t) :
    (∀ v p key w, Trace.Takes (Step path) s xs t v (.ret p (.ok key)) w →
      v.fs.content = some key.bytes) ∧
    (∀ p key, .ret p (.ok key) ∈ xs → key.bytes.length = 64 ∧
      t.fs.content = some key.bytes ∧ ∀ q key', .ret q (.ok key') ∈ xs → key' = key) := by
  have hi := invariant_initial hs
  constructor
  · rintro v p key w ⟨before, after, _, hbefore, hstep, _⟩
    exact (ret_ok_content hstep (hbefore.invariant hi invariant_step)).1
  · intro p key hr
    have hc := ret_ok_content_later h hi hr
    refine ⟨key.length_eq, hc, ?_⟩
    intro q key' hr'
    have hc' := ret_ok_content_later h hi hr'
    rw [hc, Option.some.injEq] at hc'
    exact Key.ext_bytes hc'.symm

/-- An empty directory and two servers that are about to start. -/
def fresh : State Bool where
  fs := ⟨none, fun _ => none, fun _ => [], 0⟩
  pc := fun _ => .idle

def sevens : Key := ⟨List.replicate 64 7, by decide⟩

def nines : Key := ⟨List.replicate 64 9, by decide⟩

/-- Both servers find no key and fill a temporary; the second one loses the race. -/
theorem fresh_run : ∃ t, Trace (Step "stateless_reset.key") fresh
    [.call false, .call true,
      .internal false, .internal false, .internal false, .internal false, .internal false,
      .internal true, .internal true, .internal true, .internal true, .internal true,
      .internal false, .internal false, .internal false,
      .internal true, .internal true, .internal true, .internal true,
      .ret false (.ok sevens), .ret true (.ok sevens)] t := by
  exact ⟨_, .stepL (.call rfl) <| .stepL (.call rfl) <|
    .stepL (.internal rfl .prepare) <| .stepL (.internal rfl (.openMissing rfl)) <|
    .stepL (.internal rfl (.generate sevens)) <| .stepL (.internal rfl (.create "00" rfl)) <|
    .stepL (.internal rfl .sync) <|
    .stepL (.internal rfl .prepare) <| .stepL (.internal rfl (.openMissing rfl)) <|
    .stepL (.internal rfl (.generate nines)) <| .stepL (.internal rfl (.create "01" rfl)) <|
    .stepL (.internal rfl .sync) <|
    .stepL (.internal rfl (.link rfl rfl)) <| .stepL (.internal rfl .removeLinked) <|
    .stepL (.internal rfl .syncDir) <|
    .stepL (.internal rfl (.linkExists nofun)) <| .stepL (.internal rfl .removeLost) <|
    .stepL (.internal rfl (.openFound rfl)) <| .stepL (.internal rfl (.read rfl)) <|
    .stepL (.ret rfl) <| .stepL (.ret rfl) .refl⟩

theorem reset_key_agreed_two_servers : ∃ xs t, Trace (Step "stateless_reset.key") fresh xs t ∧
    t.fs.content = some (List.replicate 64 7) := by
  obtain ⟨t, h⟩ := fresh_run
  have hs : Initial fresh := ⟨⟨nofun, nofun⟩, fun _ => Or.inl rfl⟩
  exact ⟨_, t, h, ((reset_key_agreed hs h).2 true sevens (by simp)).2.1⟩

end

end Hush.ResetKey
