import Hush.KnownHosts.Safety

/-! A call that nobody interrupts: the step relation can do what `checkOrInsert` computes. -/
namespace Hush.KnownHosts
open Hush.Lib

variable {Proc : Type*} [DecidableEq Proc] {toml : Toml} {path : String}
  {s t u : State Proc} {p : Proc} {c : Call} {result : Except String Unit} {m entries : Entries}
  {file : Option String} {io : Io} {nonce : String}

/-- The client can run on alone until its call is done with this result. -/
def Finishes (toml : Toml) (path : String) (s : State Proc) (p : Proc) (c : Call)
    (result : Except String Unit) (m : Entries) (file : Option String) : Prop :=
  ∃ xs t, Trace (Step toml path) s xs t ∧ t.pc p = .active c (.done result) ∧
    t.entries p = m ∧ t.dir.file = file ∧ t.lock = s.lock

theorem Finishes.done (hp : s.pc p = .active c (.done result)) :
    Finishes toml path s p c result (s.entries p) s.dir.file := ⟨[], s, .refl, hp, rfl, rfl, rfl⟩

theorem Finishes.step (h : Step toml path s (.internal p) u) (hl : u.lock = s.lock)
    (hu : Finishes toml path u p c result m file) : Finishes toml path s p c result m file := by
  obtain ⟨xs, t, ht, hp, hm, hf, hlock⟩ := hu
  exact ⟨.internal p :: xs, t, .stepL h ht, hp, hm, hf, hlock.trans hl⟩

/-- The save's system calls in order, with the first temporary name free. -/
theorem save_finishes (hn : s.dir.tmp nonce = none) (hm : s.entries p = m)
    (hp : s.pc p = .active c (.saving (.creating 32)))
    (h : save toml io m s.dir.file = (result, file)) :
    Finishes toml path s p c result m file := by
  subst hm
  have fail : ∀ err, Finishes toml path s p c (.error err) (s.entries p) s.dir.file :=
    fun err => .step (.saveError err false hp) rfl (.done (State.setPC_pc_self _))
  obtain ⟨_, _, _, saveDir, before, after⟩ := io
  cases saveDir with
  | some err =>
    cases h
    exact fail err
  | none =>
    cases before with
    | some err =>
      cases h
      exact fail err
    | none =>
      refine .step (.save hp (.create nonce "" hn)) rfl ?_
      refine .step (.save (State.setPC_pc_self _) .sync) rfl ?_
      refine .step (.save (State.setPC_pc_self _) .rename) rfl ?_
      cases after with
      | some err =>
        cases h
        refine .step (.saveError err false (State.setPC_pc_self _)) rfl ?_
        exact ⟨[], _, .refl, State.setPC_pc_self _, rfl, by simp, rfl⟩
      | none =>
        cases h
        refine .step (.saved (State.setPC_pc_self _)) rfl ?_
        exact ⟨[], _, .refl, State.setPC_pc_self _, rfl, by simp, rfl⟩

/-- The check against the entries just read, and the save if there is one. -/
theorem checking_finishes (hn : s.dir.tmp nonce = none) (hm : s.entries p = entries)
    (hp : s.pc p = .active c .checking)
    (h : checkAndSave toml io entries s.dir.file c.host c.fingerprint (c.trust == .tofu) =
      (result, m, file)) : Finishes toml path s p c result m file := by
  subst hm
  unfold checkAndSave at h
  split at h
  · next hv =>
    cases h
    exact .step (.known hp hv) rfl (.done (State.setPC_pc_self _))
  · next err hv =>
    cases h
    exact .step (.refused hp hv) rfl (.done (State.setPC_pc_self _))
  · next entries hv =>
    obtain ⟨hr, rfl, hf⟩ : _ ∧ _ ∧ _ := by simpa only [Prod.mk.injEq] using h
    refine .step (.insert hp hv) rfl ?_
    exact save_finishes hn (by simp) (State.setPC_pc_self _) (Prod.ext hr hf)

/-- A read of the file as it stands, and the check that follows it. -/
theorem opened_finishes (hn : s.dir.tmp nonce = none)
    (hp : s.pc p = .active c (.opened s.dir.file)) (hc : c.trust ≠ .insecure)
    (hio : io.ensureDir = none ∧ io.lock = none ∨ c.trust = .knownOnly)
    (h : checkOrInsert toml path io (s.entries p) s.dir.file c.host c.fingerprint c.trust =
      (result, m, file)) : Finishes toml path s p c result m file := by
  rw [checkOrInsert, if_neg hc] at h
  have hread : reread toml path io s.dir.file c.trust =
      io.read.elim (readEntries toml path s.dir.file) .error := by
    cases hr : io.read <;> cases ht : c.trust <;> simp_all [reread]
  rw [hread] at h
  cases hr : io.read with
  | some err =>
    simp only [hr, Option.elim_some] at h
    cases h
    exact .step (.ioError err hp rfl hc) rfl (.done (State.setPC_pc_self _))
  | none =>
    simp only [hr, Option.elim_none] at h
    split at h
    · next err hm =>
      cases h
      exact .step (.parseError hp hm) rfl (.done (State.setPC_pc_self _))
    · next entries hm =>
      refine .step (.read hp hm) rfl ?_
      exact checking_finishes hn (by simp) (State.setPC_pc_self _) h

/-- The call as a whole. Tofu takes the lock, which is then this client's. -/
theorem entered_finishes (hn : s.dir.tmp nonce = none) (hl : s.lock = none)
    (hp : s.pc p = .active c .entered)
    (h : checkOrInsert toml path io (s.entries p) s.dir.file c.host c.fingerprint c.trust =
      (result, m, file)) :
    ∃ xs u, Trace (Step toml path) s xs u ∧ (u.lock = none ∨ u.lock = some p) ∧
      Finishes toml path u p c result m file := by
  have alone : Finishes toml path s p c result m file →
      ∃ xs u, Trace (Step toml path) s xs u ∧ (u.lock = none ∨ u.lock = some p) ∧
        Finishes toml path u p c result m file := fun hf => ⟨[], s, .refl, Or.inl hl, hf⟩
  cases hc : c.trust with
  | insecure =>
    simp only [checkOrInsert, hc, ↓reduceIte] at h
    cases h
    exact alone (.step (.insecure hp hc) rfl (.done (State.setPC_pc_self _)))
  | knownOnly =>
    refine alone (.step (.openUnlocked hp hc) rfl ?_)
    exact opened_finishes hn (State.setPC_pc_self _) (by simp [hc]) (Or.inr hc) h
  | tofu =>
    have hne : c.trust ≠ .insecure := by simp [hc]
    cases hdir : io.ensureDir with
    | some err =>
      simp only [checkOrInsert, hc, reduceCtorEq, ↓reduceIte, reread, hdir] at h
      cases h
      exact alone (.step (.ioError err hp rfl hne) rfl (.done (State.setPC_pc_self _)))
    | none =>
      cases hlock : io.lock with
      | some err =>
        simp only [checkOrInsert, hc, reduceCtorEq, ↓reduceIte, reread, hdir, hlock] at h
        cases h
        refine alone (.step (.ensureDir hp hc) rfl ?_)
        exact .step (.ioError err (State.setPC_pc_self _) rfl hne) rfl
          (.done (State.setPC_pc_self _))
      | none =>
        refine ⟨_, _, .stepL (.ensureDir hp hc)
          (.stepL (.acquire (State.setPC_pc_self _) hl) .refl), Or.inr rfl, ?_⟩
        refine .step (.openLocked (State.setPC_pc_self _)) rfl ?_
        exact opened_finishes hn (State.setPC_pc_self _) hne (Or.inl ⟨hdir, hlock⟩) h

/-- Whatever `checkOrInsert` computes, a client that is left alone can do by system calls;
afterwards the lock is free again. -/
theorem checkOrInsert_run (hn : s.dir.tmp nonce = none) (hl : s.lock = none)
    (hp : s.pc p = .idle)
    (h : checkOrInsert toml path io (s.entries p) s.dir.file c.host c.fingerprint c.trust =
      (result, m, file)) :
    ∃ xs t, Trace (Step toml path) s (.call p c :: xs ++ [.ret p c result]) t ∧
      t.pc p = .idle ∧ t.lock = none ∧ t.entries p = m ∧ t.dir.file = file := by
  have hcall : Step toml path s (.call p c) (s.setPC p (.active c .entered)) := .call c hp
  obtain ⟨xs, u, hu, hlu, ys, t, ht, hdone, hm, hf, hlt⟩ :=
    @entered_finishes _ _ toml path (s.setPC p (.active c .entered)) p c _ _ _ io nonce hn hl
      (State.setPC_pc_self _) h
  have hlock : (t.unlock p).lock = none := by
    rcases hlu with hlu | hlu <;> simp [State.unlock, hlt, hlu]
  have hret : Step toml path t (.ret p c result) ((t.unlock p).setPC p .idle) := .ret hdone
  refine ⟨xs ++ ys, (t.unlock p).setPC p .idle, ?_, State.setPC_pc_self _, hlock, hm, hf⟩
  exact .stepL hcall ((hu.append ht).append (.single hret))

end Hush.KnownHosts
