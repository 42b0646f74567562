import Hush.HostIdentity.Interleaving

/-! Files change only in the hands of the lock holder, who has found no valid pair in them. -/
namespace Hush.HostIdentity
open Hush.Lib

variable {Proc : Type*} {makeServerConfig : Bytes → Bytes → Except String Unit} {paths : Paths}
  {s t v w : State Proc} {a : Action Proc} {p q : Proc} {stage : Stage} {pair : Pair}
  {xs ys : List (Action Proc)}

/-- The two files are this pair, and it is a valid one. -/
structure Holds (makeServerConfig : Bytes → Bytes → Except String Unit) (s : State Proc)
    (pair : Pair) : Prop where
  cert : s.cert.file = some pair.1
  key : s.key.file = some pair.2
  valid : makeServerConfig pair.1 pair.2 = .ok ()

theorem Holds.unique {pair' : Pair} (h : Holds makeServerConfig s pair)
    (h' : Holds makeServerConfig s pair') : pair' = pair := by
  have hc := h.cert.symm.trans h'.cert
  have hk := h.key.symm.trans h'.key
  simp only [Option.some.injEq] at hc hk
  exact Prod.ext hc.symm hk.symm

/-- The stages at which the call holds the lock. A failed call may or may not. -/
def UnderLock : Stage → Prop
  | .locked | .certRead _ | .bothRead _ _ | .savingCert _ _ | .savingKey _ _ | .done (.ok _) => True
  | .entered | .waiting | .done (.error _) => False

/-- The stages at which the call is about to change a file. -/
def Saving : Stage → Prop
  | .savingCert _ _ | .savingKey _ _ => True
  | .entered | .waiting | .locked | .certRead _ | .bothRead _ _ | .done _ => False

theorem underLock_of_saving (h : Saving stage) : UnderLock stage := by
  cases stage with
  | savingCert | savingKey => trivial
  | entered | waiting | locked | certRead | bothRead | done => exact h.elim

/-- What the lock holder knows about the files. -/
def StageOk (makeServerConfig : Bytes → Bytes → Except String Unit) (s : State Proc) :
    Stage → Prop
  | .certRead cert => cert = s.cert.file
  | .bothRead cert key => cert = s.cert.file ∧ key = s.key.file
  | .savingCert pair r =>
    makeServerConfig pair.1 pair.2 = .ok () ∧ r.Filled pair.1 s.cert ∧
      (r = .installed → s.cert.file = some pair.1)
  | .savingKey pair r =>
    makeServerConfig pair.1 pair.2 = .ok () ∧ s.cert.file = some pair.1 ∧
      r.Filled pair.2 s.key ∧ (r = .installed → s.key.file = some pair.2)
  | .done (.ok pair) => Holds makeServerConfig s pair
  | .entered | .waiting | .locked | .done (.error _) => True

def ProcOk (makeServerConfig : Bytes → Bytes → Except String Unit) (s : State Proc) (p : Proc) :
    Prop :=
  ∀ stage, s.pc p = .active stage → UnderLock stage →
    s.lock = some p ∧ StageOk makeServerConfig s stage

def Invariant (makeServerConfig : Bytes → Bytes → Except String Unit) (s : State Proc) : Prop :=
  ∀ p, ProcOk makeServerConfig s p

theorem invariant_initial (h : Initial s) : Invariant makeServerConfig s := by
  intro p stage hp
  rcases h.2 p with hi | hi <;> simp [hi] at hp

theorem stageOk_congr (hc : t.cert = s.cert) (hk : t.key = s.key)
    (h : StageOk makeServerConfig s stage) : StageOk makeServerConfig t stage := by
  have hold : ∀ pair, Holds makeServerConfig s pair → Holds makeServerConfig t pair := by
    intro pair ⟨hcert, hkey, hv⟩
    exact ⟨hc ▸ hcert, hk ▸ hkey, hv⟩
  unfold StageOk at h ⊢
  split at h <;> simp_all

theorem inspect_use {cert key : Option Bytes}
    (h : inspect makeServerConfig paths cert key = .use pair) :
    cert = some pair.1 ∧ key = some pair.2 ∧ makeServerConfig pair.1 pair.2 = .ok () := by
  unfold inspect at h
  split at h
  · split at h
    · next hv =>
      cases h
      exact ⟨rfl, rfl, hv⟩
    · split at h <;> cases h
  · cases h

/-- A valid pair in the files is used. -/
theorem inspect_of_holds (h : Holds makeServerConfig s pair) :
    inspect makeServerConfig paths s.cert.file s.key.file = .use pair := by
  simp [inspect, h.cert, h.key, h.valid]

namespace State

theorem discard_of_not_saving (h : ¬ Saving stage) : s.discard stage = s := by
  cases stage with
  | savingCert | savingKey => exact (h trivial).elim
  | entered | waiting | locked | certRead | bothRead | done => rfl

@[simp] theorem discard_lock : (s.discard stage).lock = s.lock := by
  cases stage <;> rfl

@[simp] theorem discard_pc : (s.discard stage).pc = s.pc := by
  cases stage <;> rfl

@[simp] theorem discard_cert_file : (s.discard stage).cert.file = s.cert.file := by
  cases stage <;> simp [discard]

@[simp] theorem discard_key_file : (s.discard stage).key.file = s.key.file := by
  cases stage <;> simp [discard]

end State

theorem procOk_of_active (hp : t.pc p = .active stage)
    (h : UnderLock stage → t.lock = some p ∧ StageOk makeServerConfig t stage) :
    ProcOk makeServerConfig t p := by
  intro stage' hp'
  rw [hp, PC.active.injEq] at hp'
  subst hp'
  exact h

/-- The pair is in place and no server is about to change it. -/
structure Settled (makeServerConfig : Bytes → Bytes → Except String Unit) (s : State Proc)
    (pair : Pair) : Prop where
  holds : Holds makeServerConfig s pair
  quiet : ∀ p stage, s.pc p = .active stage → ¬ Saving stage

theorem Settled.congr (hs : Settled makeServerConfig s pair) (hc : t.cert.file = s.cert.file)
    (hk : t.key.file = s.key.file) (hpc : t.pc = s.pc) : Settled makeServerConfig t pair :=
  ⟨⟨hc.trans hs.holds.cert, hk.trans hs.holds.key, hs.holds.valid⟩, hpc ▸ hs.quiet⟩

/-- Whoever has read both files of a settled pair uses it. -/
theorem inspect_settled {cert key : Option Bytes} (hi : Invariant makeServerConfig s)
    (hs : Settled makeServerConfig s pair) (hp : s.pc p = .active (.bothRead cert key)) :
    inspect makeServerConfig paths cert key = .use pair := by
  obtain ⟨_, hc, hk⟩ := hi _ _ hp trivial
  rw [hc, hk]
  exact inspect_of_holds hs.holds

section
variable [DecidableEq Proc]

namespace State

@[simp] theorem setPC_pc_self (pc : PC) : (s.setPC p pc).pc p = pc := by simp [setPC]

theorem setPC_pc_of_ne (pc : PC) (h : q ≠ p) : (s.setPC p pc).pc q = s.pc q := by
  simp [setPC, h]

@[simp] theorem setPC_cert (pc : PC) : (s.setPC p pc).cert = s.cert := rfl

@[simp] theorem setPC_key (pc : PC) : (s.setPC p pc).key = s.key := rfl

@[simp] theorem setPC_lock (pc : PC) : (s.setPC p pc).lock = s.lock := rfl

/-- Only the holder's release changes the lock. -/
theorem unlock_lock_of_ne (h : s.lock ≠ some p) : (s.unlock p).lock = s.lock := if_neg h

end State

/-- A lock holder that does not step finds the files, and its lock, as they were. -/
theorem step_unaffected (h : Step makeServerConfig paths s a t)
    (hi : Invariant makeServerConfig s) (hq : q ≠ a.actor) :
    t.pc q = s.pc q ∧
    (s.lock = some q → t.lock = some q ∧ t.cert = s.cert ∧ t.key = s.key) := by
  have other : ∀ {p stage}, q ≠ p → s.pc p = .active stage → UnderLock stage →
      s.lock ≠ some q := by
    intro p stage hqp hp hu he
    rw [(hi p stage hp hu).1, Option.some.injEq] at he
    exact hqp he.symm
  cases h with
  | acquire hp hl =>
    refine ⟨State.setPC_pc_of_ne _ hq, ?_⟩
    intro he
    simp [hl] at he
  | saveCert hp hr | saveKey hp hr =>
    exact ⟨State.setPC_pc_of_ne _ hq, fun he => (other hq hp trivial he).elim⟩
  | @fail p stage err removed hp hs =>
    by_cases hsave : Saving stage
    · refine ⟨?_, fun he => (other hq hp (underLock_of_saving hsave) he).elim⟩
      refine (State.setPC_pc_of_ne _ hq).trans ?_
      cases removed <;> simp
    · rw [State.discard_of_not_saving hsave, ite_self]
      exact ⟨State.setPC_pc_of_ne _ hq, fun he => ⟨he, rfl, rfl⟩⟩
  | @ret p result hp | crash p =>
    refine ⟨State.setPC_pc_of_ne _ hq, fun he => ⟨?_, rfl, rfl⟩⟩
    have hne : s.lock ≠ some p := by
      rw [he]
      exact fun hqp => hq (Option.some.inj hqp)
    rw [State.setPC_lock, State.unlock_lock_of_ne hne, he]
  | _ => exact ⟨State.setPC_pc_of_ne _ hq, fun he => ⟨he, rfl, rfl⟩⟩

/-- The server that steps keeps what it knows about the files. -/
theorem step_actor (h : Step makeServerConfig paths s a t)
    (hi : Invariant makeServerConfig s) : ProcOk makeServerConfig t a.actor := by
  cases h with
  | call hp | ensureDir hp | samePath hp hs | refuse hp hd | fail err removed hp hs =>
    exact procOk_of_active (State.setPC_pc_self _) nofun
  | acquire hp hl =>
    exact procOk_of_active (State.setPC_pc_self _) fun _ => ⟨rfl, trivial⟩
  | readCert hp hs =>
    exact procOk_of_active (State.setPC_pc_self _) fun _ => ⟨(hi _ _ hp trivial).1, rfl⟩
  | readKey hp =>
    obtain ⟨hl, hc⟩ := hi _ _ hp trivial
    exact procOk_of_active (State.setPC_pc_self _) fun _ => ⟨hl, hc, rfl⟩
  | use hp hd =>
    obtain ⟨hl, hc, hk⟩ := hi _ _ hp trivial
    obtain ⟨hcert, hkey, hv⟩ := inspect_use hd
    have hholds : Holds makeServerConfig s _ := ⟨hc ▸ hcert, hk ▸ hkey, hv⟩
    exact procOk_of_active (State.setPC_pc_self _) fun _ => ⟨hl, hholds.cert, hholds.key, hv⟩
  | generate pair hp hd hv =>
    exact procOk_of_active (State.setPC_pc_self _)
      fun _ => ⟨(hi _ _ hp trivial).1, hv, trivial, nofun⟩
  | saveCert hp hr =>
    obtain ⟨hl, hv, hf, _⟩ := hi _ _ hp trivial
    refine procOk_of_active (State.setPC_pc_self _)
      fun _ => ⟨hl, hv, Replace.filled_step hr, ?_⟩
    intro hinst
    rcases Replace.file_step hr hf with ⟨hne, _⟩ | ⟨_, hfile⟩
    · exact (hne hinst).elim
    · exact hfile
  | certSaved hp =>
    obtain ⟨hl, hv, _, hinst⟩ := hi _ _ hp trivial
    exact procOk_of_active (State.setPC_pc_self _)
      fun _ => ⟨hl, hv, hinst rfl, trivial, nofun⟩
  | saveKey hp hr =>
    obtain ⟨hl, hv, hc, hf, _⟩ := hi _ _ hp trivial
    refine procOk_of_active (State.setPC_pc_self _)
      fun _ => ⟨hl, hv, hc, Replace.filled_step hr, ?_⟩
    intro hinst
    rcases Replace.file_step hr hf with ⟨hne, _⟩ | ⟨_, hfile⟩
    · exact (hne hinst).elim
    · exact hfile
  | keySaved hp =>
    obtain ⟨hl, hv, hc, _, hinst⟩ := hi _ _ hp trivial
    exact procOk_of_active (State.setPC_pc_self _) fun _ => ⟨hl, hc, hinst rfl, hv⟩
  | ret hp | crash p | restart hp =>
    intro stage hc
    simp [Action.actor] at hc

theorem invariant_step (h : Step makeServerConfig paths s a t)
    (hi : Invariant makeServerConfig s) : Invariant makeServerConfig t := by
  intro q
  by_cases hq : q = a.actor
  · subst hq
    exact step_actor h hi
  · obtain ⟨hpc, hkeep⟩ := step_unaffected h hi hq
    intro stage hp hu
    obtain ⟨hl, hs⟩ := hi q stage (hpc ▸ hp) hu
    obtain ⟨hl', hc, hk⟩ := hkeep hl
    exact ⟨hl', stageOk_congr hc hk hs⟩

/-- A successful call has kept everyone else out of the files until it returns. -/
theorem ret_ok_settled (hi : Invariant makeServerConfig s)
    (h : Step makeServerConfig paths s (.ret p (.ok pair)) t) :
    Holds makeServerConfig s pair ∧ Settled makeServerConfig t pair := by
  cases h with
  | ret hp =>
    obtain ⟨hl, hs⟩ := hi p _ hp trivial
    have hholds : Holds makeServerConfig s pair := hs
    refine ⟨hholds, ⟨hholds.cert, hholds.key, hholds.valid⟩, ?_⟩
    intro q stage hq hsave
    by_cases hqp : q = p
    · subst hqp
      simp at hq
    · rw [State.setPC_pc_of_ne _ hqp] at hq
      have hlq := (hi q stage hq (underLock_of_saving hsave)).1
      rw [hl, Option.some.injEq] at hlq
      exact hqp hlq.symm

theorem Settled.setPC {pc : PC} (hs : Settled makeServerConfig s pair)
    (hpc : ∀ stage, pc = .active stage → ¬ Saving stage) :
    Settled makeServerConfig (s.setPC p pc) pair := by
  refine ⟨⟨hs.holds.cert, hs.holds.key, hs.holds.valid⟩, ?_⟩
  intro q stage hq
  by_cases hqp : q = p
  · subst hqp
    exact hpc stage (by simpa using hq)
  · rw [State.setPC_pc_of_ne _ hqp] at hq
    exact hs.quiet q stage hq

theorem settled_step (h : Step makeServerConfig paths s a t) (hi : Invariant makeServerConfig s)
    (hs : Settled makeServerConfig s pair) : Settled makeServerConfig t pair := by
  have idle : ∀ stage, PC.idle = .active stage → ¬ Saving stage := nofun
  have active : ∀ stage, ¬ Saving stage →
      ∀ stage', PC.active stage = .active stage' → ¬ Saving stage' := by
    intro stage hn stage' he
    rw [PC.active.injEq] at he
    exact he ▸ hn
  cases h with
  | generate pair hp hd hv =>
    rw [inspect_settled hi hs hp] at hd
    cases hd
  | saveCert hp hr | certSaved hp | saveKey hp hr | keySaved hp =>
    exact (hs.quiet _ _ hp trivial).elim
  | fail err removed hp hn =>
    rw [State.discard_of_not_saving (hs.quiet _ _ hp), ite_self]
    exact hs.setPC (active _ id)
  | acquire hp hl =>
    refine Settled.setPC ?_ (active _ id)
    exact hs.congr rfl rfl rfl
  | ret hp =>
    refine Settled.setPC ?_ idle
    exact hs.congr rfl rfl rfl
  | crash p =>
    refine Settled.setPC ?_ nofun
    exact hs.congr rfl rfl rfl
  | restart hp => exact hs.setPC idle
  | _ => exact hs.setPC (active _ id)

/-- With a settled pair at the default paths, only a failed system call fails a server. -/
theorem error_step {err : String} (h : Step makeServerConfig .default s a t)
    (hi : Invariant makeServerConfig s) (hs : Settled makeServerConfig s pair)
    (ha : ∀ err, a ≠ .fail q err) (hq : t.pc q = .active (.done (.error err))) :
    s.pc q = .active (.done (.error err)) := by
  by_cases hqa : q = a.actor
  · subst hqa
    cases h with
    | samePath hp hsame => cases hsame
    | refuse hp hd =>
      rw [inspect_settled hi hs hp] at hd
      cases hd
    | fail err removed hp hn => exact (ha err rfl).elim
    | _ => simp [Action.actor] at hq
  · rw [← (step_unaffected h hi hqa).1]
    exact hq

theorem settled_trace (h : Trace (Step makeServerConfig paths) s xs t)
    (hi : Invariant makeServerConfig s) (hs : Settled makeServerConfig s pair) :
    Invariant makeServerConfig t ∧ Settled makeServerConfig t pair :=
  h.invariant (P := fun s => Invariant makeServerConfig s ∧ Settled makeServerConfig s pair)
    ⟨hi, hs⟩ fun h ⟨hi, hs⟩ => ⟨invariant_step h hi, settled_step h hi hs⟩

theorem ret_ok_of_settled {pair' : Pair} (h : Trace (Step makeServerConfig paths) s xs t)
    (hi : Invariant makeServerConfig s) (hs : Settled makeServerConfig s pair)
    (hr : .ret q (.ok pair') ∈ xs) : pair' = pair := by
  obtain ⟨v, w, before, after, _, hbefore, hstep, _⟩ := h.takes_of_mem hr
  obtain ⟨hiv, hsv⟩ := settled_trace hbefore hi hs
  exact hsv.holds.unique (ret_ok_settled hiv hstep).1

/-- From a settled state on, a server without failing system calls returns the pair, unless
its call was already done. -/
theorem ret_of_settled {result : Except String Pair}
    (h : Trace (Step makeServerConfig .default) s xs t) (hi : Invariant makeServerConfig s)
    (hs : Settled makeServerConfig s pair) (hf : ∀ err, .fail q err ∉ xs)
    (hr : .ret q result ∈ xs) : result = .ok pair ∨ s.pc q = .active (.done result) := by
  induction h with
  | refl => simp at hr
  | @stepL s u t a xs hstep h ih =>
    have hiu := invariant_step hstep hi
    have hsu := settled_step hstep hi hs
    rcases List.mem_cons.mp hr with he | hr
    · subst he
      cases hstep with
      | ret hp => exact Or.inr hp
    · rcases ih hiu hsu (fun err hm => hf err (List.mem_cons_of_mem _ hm)) hr with hok | hdone
      · exact Or.inl hok
      · cases result with
        | ok pair' =>
          have hholds : Holds makeServerConfig u pair' := (hiu q _ hdone trivial).2
          exact Or.inl (congrArg _ (hsu.holds.unique hholds))
        | error err =>
          refine Or.inr (error_step hstep hi hs ?_ hdone)
          intro err' ha
          exact hf err' (ha ▸ List.mem_cons_self)

/-- The identity converges, for any number of servers, in any interleaving and with crashes
anywhere. A call that returns Ok returns the valid pair that the two files hold; from then
on the files stay, every later Ok is for the same pair, and a call fails only where one of
its system calls did. -/
theorem identity_converges (hs : Initial s)
    (h : Trace (Step makeServerConfig .default) s xs v)
    (hret : Step makeServerConfig .default v (.ret p (.ok pair)) w)
    (h' : Trace (Step makeServerConfig .default) w ys t) :
    (makeServerConfig pair.1 pair.2 = .ok () ∧
      v.cert.file = some pair.1 ∧ v.key.file = some pair.2) ∧
    (t.cert.file = some pair.1 ∧ t.key.file = some pair.2) ∧
    (∀ q pair', .ret q (.ok pair') ∈ ys → pair' = pair) ∧
    (∀ q, (∀ err, .fail q err ∉ ys) → ∀ result, .ret q result ∈ ys →
      result = .ok pair ∨ w.pc q = .active (.done result)) := by
  have hiv := h.invariant (invariant_initial hs) invariant_step
  have hiw := invariant_step hret hiv
  obtain ⟨hholds, hsettled⟩ := ret_ok_settled hiv hret
  have hend := (settled_trace h' hiw hsettled).2.holds
  refine ⟨⟨hholds.valid, hholds.cert, hholds.key⟩, ⟨hend.cert, hend.key⟩, ?_, ?_⟩
  · intro q pair' hr
    exact ret_ok_of_settled h' hiw hsettled hr
  · intro q hf result hr
    exact ret_of_settled h' hiw hsettled hf hr

/-- A key of one byte, and a certificate that names it. -/
def oneByteConfig (cert key : Bytes) : Except String Unit :=
  if cert = 0x30 :: key then .ok () else .error "keys may not be consistent"

/-- An empty server directory and two servers that are about to start. -/
def fresh : State Bool where
  cert := ⟨none, fun _ => none⟩
  key := ⟨none, fun _ => none⟩
  lock := none
  pc := fun _ => .idle

/-- The first server generates the pair and returns it, and the second one starts. -/
theorem fresh_run : ∃ v w t, Trace (Step oneByteConfig .default) fresh
      (.call false :: List.replicate 13 (.internal false)) v ∧
    Step oneByteConfig .default v (.ret false (.ok ([0x30, 7], [7]))) w ∧
    Trace (Step oneByteConfig .default) w
      (.call true :: List.replicate 5 (.internal true) ++
        [.ret true (.ok ([0x30, 7], [7]))]) t := by
  exact ⟨_, _, _, .stepL (.call rfl) <| .stepL (.ensureDir rfl) <| .stepL (.acquire rfl rfl) <|
    .stepL (.readCert rfl rfl) <| .stepL (.readKey rfl) <|
    .stepL (.generate ([0x30, 7], [7]) rfl rfl rfl) <|
    .stepL (.saveCert rfl (.create "00" [] rfl)) <| .stepL (.saveCert rfl .sync) <|
    .stepL (.saveCert rfl .rename) <| .stepL (.certSaved rfl) <|
    .stepL (.saveKey rfl (.create "01" [] rfl)) <| .stepL (.saveKey rfl .sync) <|
    .stepL (.saveKey rfl .rename) <| .stepL (.keySaved rfl) .refl, .ret rfl,
    .stepL (.call rfl) <| .stepL (.ensureDir rfl) <| .stepL (.acquire rfl rfl) <|
    .stepL (.readCert rfl rfl) <| .stepL (.readKey rfl) <| .stepL (.use rfl rfl) <|
    .stepL (.ret rfl) .refl⟩

theorem identity_converges_two_servers : ∃ xs t,
    Trace (Step oneByteConfig .default) fresh xs t ∧
      t.cert.file = some [0x30, 7] ∧ t.key.file = some [7] := by
  obtain ⟨v, w, t, h, hret, h'⟩ := fresh_run
  have hi : Initial fresh := ⟨rfl, fun _ => Or.inl rfl⟩
  have hlaws := identity_converges hi h hret h'
  exact ⟨_, t, h.append (.stepL hret h'), hlaws.2.1⟩

end

end Hush.HostIdentity
