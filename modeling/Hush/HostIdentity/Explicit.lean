import Hush.HostIdentity.Convergence

/-! A call with an explicit path, and the files that it finds. -/
namespace Hush.HostIdentity
open Hush.Lib

variable {Proc : Type*} {makeServerConfig : Bytes → Bytes → Except String Unit} {paths : Paths}
  {s t : State Proc} {a : Action Proc} {p : Proc} {pair : Pair} {xs : List (Action Proc)}
  {result : Except String Pair}

/-- Between its call and its return, a server makes and fails system calls. -/
def Action.within (p : Proc) (a : Action Proc) : Prop :=
  a = .internal p ∨ ∃ err, a = .fail p err

/-- The operator's files are as they were, and what is no pair is refused. -/
structure Kept (makeServerConfig : Bytes → Bytes → Except String Unit) (s : State Proc)
    (result : Except String Pair) (t : State Proc) : Prop where
  cert : ∀ cert, s.cert.file = some cert → t.cert.file = some cert
  key : ∀ key, s.key.file = some key → t.key.file = some key
  half : s.cert.file.isSome ≠ s.key.file.isSome → ∃ err, result = .error err
  mismatch : ∀ cert key, s.cert.file = some cert → s.key.file = some key →
    makeServerConfig cert key ≠ .ok () → ∃ err, result = .error err

/-- Two files are never replaced when a path is explicit. -/
theorem inspect_explicit (h : paths.usesExplicitPath = true) {cert key : Bytes} :
    inspect makeServerConfig paths (some cert) (some key) ≠ .generate := by
  simp only [inspect, if_pos h]
  split <;> simp

theorem inspect_half {cert key : Option Bytes} (h : cert.isSome ≠ key.isSome) :
    inspect makeServerConfig paths cert key = .generate := by
  cases cert <;> cases key <;> simp_all [inspect]

/-- The stages at which the call has found two different paths. -/
def Reading : Stage → Prop
  | .certRead _ | .bothRead _ _ => True
  | .entered | .waiting | .locked | .savingCert _ _ | .savingKey _ _ | .done _ => False

section
variable [DecidableEq Proc]

/-- A whole call, from its start to its return, while no other server runs. -/
def Calls (makeServerConfig : Bytes → Bytes → Except String Unit) (paths : Paths) (p : Proc)
    (s : State Proc) (result : Except String Pair) (t : State Proc) : Prop :=
  ∃ xs, (∀ a ∈ xs, a.within p) ∧
    Trace (Step makeServerConfig paths) s (.call p :: xs ++ [.ret p result]) t

/-- Nobody is replacing a file, and the files are these. -/
structure Untouched (paths : Paths) (cert key : Option Bytes) (s : State Proc) : Prop where
  cert_eq : s.cert.file = cert
  key_eq : s.key.file = key
  quiet : ∀ q stage, s.pc q = .active stage → ¬ Saving stage
  reading : ∀ q stage, s.pc q = .active stage → Reading stage → paths.same = false

theorem Untouched.setPC {cert key : Option Bytes} {pc : PC} (hs : Untouched paths cert key s)
    (hpc : ∀ stage, pc = .active stage → ¬ Saving stage ∧ (Reading stage → paths.same = false)) :
    Untouched paths cert key (s.setPC p pc) := by
  refine ⟨hs.cert_eq, hs.key_eq, fun q stage hq => ?_, fun q stage hq => ?_⟩
  · by_cases hqp : q = p
    · subst hqp
      exact (hpc stage (by simpa using hq)).1
    · rw [State.setPC_pc_of_ne _ hqp] at hq
      exact hs.quiet q stage hq
  · by_cases hqp : q = p
    · subst hqp
      exact (hpc stage (by simpa using hq)).2
    · rw [State.setPC_pc_of_ne _ hqp] at hq
      exact hs.reading q stage hq

theorem untouched_step {cert key : Option Bytes} (h : Step makeServerConfig paths s a t)
    (hi : Invariant makeServerConfig s) (hexplicit : paths.usesExplicitPath = true)
    (hfiles : paths.same = true ∨ (cert.isSome ∧ key.isSome))
    (hs : Untouched paths cert key s) : Untouched paths cert key t := by
  have active : ∀ {stage : Stage}, ¬ Saving stage → (Reading stage → paths.same = false) →
      ∀ stage', PC.active stage = .active stage' →
        ¬ Saving stage' ∧ (Reading stage' → paths.same = false) := by
    intro stage hn hr stage' he
    rw [PC.active.injEq] at he
    exact he ▸ ⟨hn, hr⟩
  cases h with
  | generate pair hp hd hv =>
    have hsame := hs.reading _ _ hp trivial
    obtain ⟨hcert, hkey⟩ := hfiles.resolve_left (by simp [hsame])
    obtain ⟨-, hc, hk⟩ := hi _ _ hp trivial
    rw [hc, hk, hs.cert_eq, hs.key_eq] at hd
    obtain ⟨c, rfl⟩ := Option.isSome_iff_exists.mp hcert
    obtain ⟨k, rfl⟩ := Option.isSome_iff_exists.mp hkey
    exact absurd hd (inspect_explicit hexplicit)
  | saveCert hp hr | certSaved hp | saveKey hp hr | keySaved hp =>
    exact (hs.quiet _ _ hp trivial).elim
  | fail err removed hp hn =>
    rw [State.discard_of_not_saving (hs.quiet _ _ hp), ite_self]
    exact hs.setPC (active id (by simp [Reading]))
  | readCert hp hsame => exact hs.setPC (active id fun _ => hsame)
  | readKey hp => exact hs.setPC (active id fun _ => hs.reading _ _ hp trivial)
  | @acquire p hp hl =>
    have hlocked : Untouched paths cert key { s with lock := some p } :=
      ⟨hs.cert_eq, hs.key_eq, hs.quiet, hs.reading⟩
    exact hlocked.setPC (active id (by simp [Reading]))
  | @ret p result hp | crash p =>
    have hfree : Untouched paths cert key (s.unlock p) :=
      ⟨hs.cert_eq, hs.key_eq, hs.quiet, hs.reading⟩
    exact hfree.setPC (by simp)
  | restart hp => exact hs.setPC (by simp)
  | call hp | ensureDir hp | samePath hp hsame | use hp hd | refuse hp hd =>
    exact hs.setPC (active id (by simp [Reading]))

/-- With two files, or with one path for both, nobody touches the files, in any run. -/
theorem untouched_trace (hs : Initial s) (hexplicit : paths.usesExplicitPath = true)
    (hfiles : paths.same = true ∨ (s.cert.file.isSome ∧ s.key.file.isSome))
    (h : Trace (Step makeServerConfig paths) s xs t) :
    Invariant makeServerConfig t ∧ Untouched paths s.cert.file s.key.file t := by
  have hidle : ∀ q stage, s.pc q ≠ .active stage := by
    intro q stage hq
    rcases hs.2 q with hi | hi <;> simp [hi] at hq
  have hstart : Untouched paths s.cert.file s.key.file s :=
    ⟨rfl, rfl, fun q stage hq => absurd hq (hidle q stage),
      fun q stage hq => absurd hq (hidle q stage)⟩
  exact h.invariant (P := fun u => Invariant makeServerConfig u ∧ Untouched paths _ _ u)
    ⟨invariant_initial hs, hstart⟩ fun h ⟨hi, hu⟩ =>
      ⟨invariant_step h hi, untouched_step h hi hexplicit hfiles hu⟩

/-- A call that finds no pair generates one, and returns it if no system call fails. -/
theorem exists_calls (pair : Pair) (hp : s.pc p = .idle) (hlock : s.lock = none)
    (hsame : paths.same = false)
    (hgenerate : inspect makeServerConfig paths s.cert.file s.key.file = .generate)
    (hvalid : makeServerConfig pair.1 pair.2 = .ok ()) {nonce nonce' : String}
    (hcert : s.cert.tmp nonce = none) (hkey : s.key.tmp nonce' = none) :
    ∃ t, Calls makeServerConfig paths p s (.ok pair) t ∧ t.cert.file = some pair.1 ∧
      t.key.file = some pair.2 := by
  have hself : ∀ {u : State Proc} {pc : PC}, (u.setPC p pc).pc p = pc := State.setPC_pc_self _
  refine ⟨_, ⟨List.replicate 13 (.internal p), by simp [Action.within],
    .stepL (.call hp) <| .stepL (.ensureDir hself) <| .stepL (.acquire hself hlock) <|
    .stepL (.readCert hself hsame) <| .stepL (.readKey hself) <|
    .stepL (.generate pair hself hgenerate hvalid) <|
    .stepL (.saveCert hself (.create nonce [] hcert)) <| .stepL (.saveCert hself .sync) <|
    .stepL (.saveCert hself .rename) <| .stepL (.certSaved hself) <|
    .stepL (.saveKey hself (.create nonce' [] hkey)) <| .stepL (.saveKey hself .sync) <|
    .stepL (.saveKey hself .rename) <| .stepL (.keySaved hself) <|
    .single (.ret hself)⟩, ?_, ?_⟩
  · exact Dir.setTmp_tmp_self _ _ _
  · exact Dir.setTmp_tmp_self _ _ _

theorem Calls.kept (h : Calls makeServerConfig paths p s result t) (hs : Initial s)
    (hexplicit : paths.usesExplicitPath = true)
    (hfiles : paths.same = true ∨ (s.cert.file.isSome ∧ s.key.file.isSome)) :
    Kept makeServerConfig s result t := by
  obtain ⟨xs, -, htrace⟩ := h
  obtain ⟨-, hend⟩ := untouched_trace hs hexplicit hfiles htrace
  have hok : ∀ pair, result = .ok pair → s.cert.file = some pair.1 ∧ s.key.file = some pair.2 ∧
      makeServerConfig pair.1 pair.2 = .ok () := by
    rintro pair rfl
    obtain ⟨v, w, before, after, -, hbefore, hret, -⟩ := htrace.takes_of_mem
      (a := .ret p (.ok pair)) (by simp)
    obtain ⟨hi, hu⟩ := untouched_trace hs hexplicit hfiles hbefore
    have hholds := (ret_ok_settled hi hret).1
    exact ⟨hu.cert_eq ▸ hholds.cert, hu.key_eq ▸ hholds.key, hholds.valid⟩
  refine ⟨fun cert h => hend.cert_eq.trans h, fun key h => hend.key_eq.trans h, ?_, ?_⟩
  · intro hhalf
    cases result with
    | error err => exact ⟨err, rfl⟩
    | ok pair =>
      obtain ⟨hc, hk, -⟩ := hok pair rfl
      simp [hc, hk] at hhalf
  · intro cert key hcert hkey hinvalid
    cases result with
    | error err => exact ⟨err, rfl⟩
    | ok pair =>
      obtain ⟨hc, hk, hvalid⟩ := hok pair rfl
      rw [hc, Option.some.injEq] at hcert
      rw [hk, Option.some.injEq] at hkey
      exact absurd (hcert ▸ hkey ▸ hvalid) hinvalid

/-- A call with an explicit path keeps what it finds, and refuses what is no pair, exactly if it
does not find one file without the other. -/
theorem explicit_files_kept_iff (makeServerConfig : Bytes → Bytes → Except String Unit)
    (hpair : ∃ pair : Pair, makeServerConfig pair.1 pair.2 = .ok ()) (paths : Paths)
    (hexplicit : paths.usesExplicitPath = true) (p : Proc) (s : State Proc) (hs : Initial s)
    (hp : s.pc p = .idle) (hcert : ∃ nonce, s.cert.tmp nonce = none)
    (hkey : ∃ nonce, s.key.tmp nonce = none) :
    (∀ result t, Calls makeServerConfig paths p s result t → Kept makeServerConfig s result t) ↔
      paths.same = true ∨ s.cert.file.isSome = s.key.file.isSome := by
  constructor
  · intro hkept
    by_contra hnot
    obtain ⟨hsame, hhalf⟩ := not_or.mp hnot
    obtain ⟨pair, hvalid⟩ := hpair
    obtain ⟨nonce, hcert⟩ := hcert
    obtain ⟨nonce', hkey⟩ := hkey
    obtain ⟨t, hcalls, -⟩ := exists_calls pair hp hs.1 (by simpa using hsame)
      (inspect_half hhalf) hvalid hcert hkey
    obtain ⟨err, herr⟩ := (hkept _ t hcalls).half hhalf
    cases herr
  · intro hfiles result t hcalls
    by_cases hfound : paths.same = true ∨ (s.cert.file.isSome ∧ s.key.file.isSome)
    · exact hcalls.kept hs hexplicit hfound
    · have hnone : s.cert.file = none ∧ s.key.file = none := by
        obtain ⟨hsame, hboth⟩ := not_or.mp hfound
        have heq := hfiles.resolve_left hsame
        cases hc : s.cert.file <;> cases hk : s.key.file <;> simp_all
      constructor <;> simp [hnone]

/-- An operator's certificate whose key is missing. -/
def halfPresent : State Unit where
  cert := ⟨some [0x30, 9], fun _ => none⟩
  key := ⟨none, fun _ => none⟩
  lock := none
  pc := fun _ => .idle

theorem explicit_files_kept_iff_half :
    Initial halfPresent ∧
    ((∀ result t, Calls oneByteConfig ⟨true, false⟩ () halfPresent result t →
      Kept oneByteConfig halfPresent result t) ↔
      false = true ∨ halfPresent.cert.file.isSome = halfPresent.key.file.isSome) :=
  ⟨⟨rfl, fun _ => Or.inl rfl⟩, explicit_files_kept_iff oneByteConfig ⟨([0x30, 7], [7]), rfl⟩
    ⟨true, false⟩ rfl () halfPresent ⟨rfl, fun _ => Or.inl rfl⟩ rfl ⟨"00", rfl⟩ ⟨"01", rfl⟩⟩

/-- The certificate is replaced by one for a new key, and the call succeeds. -/
theorem explicit_cert_replaced :
    halfPresent.cert.file = some [0x30, 9] ∧
    ∃ t, Calls oneByteConfig ⟨true, false⟩ () halfPresent (.ok ([0x30, 7], [7])) t ∧
      t.cert.file = some [0x30, 7] ∧ ¬ Kept oneByteConfig halfPresent (.ok ([0x30, 7], [7])) t := by
  have hcert : halfPresent.cert.tmp "00" = none := rfl
  have hkey : halfPresent.key.tmp "01" = none := rfl
  obtain ⟨t, hcalls, hcert, -⟩ : ∃ t, Calls oneByteConfig ⟨true, false⟩ () halfPresent _ t ∧ _ :=
    exists_calls ([0x30, 7], [7]) rfl rfl rfl rfl rfl hcert hkey
  refine ⟨rfl, t, hcalls, hcert, fun hkept => ?_⟩
  have := hkept.cert _ rfl
  rw [hcert] at this
  cases this

end

end Hush.HostIdentity
