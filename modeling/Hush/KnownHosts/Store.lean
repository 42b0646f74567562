import Hush.Lib.Text

/-! The known_hosts pin map: reading it, checking a certificate against it and pinning. -/
namespace Hush.KnownHosts
open Hush.Lib

/-- How the server's host certificate is checked against known_hosts. -/
inductive HostTrust
  | tofu
  | knownOnly
  | insecure
  deriving DecidableEq, Repr

/-- `BTreeMap<String, String>` from host keys to certificate fingerprints. -/
abbrev Entries := Std.ExtTreeMap String String

/-- The TOML crate on a `KnownHostsFile`. -/
structure Toml where
  toStringPretty : Entries → String
  fromStr : String → Except String Entries

/-- Serialization round-trips, and a blank document is the defaulted empty table. -/
structure Toml.Lawful (toml : Toml) : Prop where
  roundTrip : ∀ m, toml.fromStr (toml.toStringPretty m) = .ok m
  blank : ∀ data, Text.blank data.toList = true → toml.fromStr data = .ok ∅

/-- The key a host is pinned under. -/
def hostKey (host : String) (port : UInt16) : String := s!"{host}:{port.toNat}"

/-- `KnownHosts::read_entries` on the file's contents; `none` is a missing file. -/
def readEntries (toml : Toml) (path : String) : Option String → Except String Entries
  | none => .ok ∅
  | some data =>
    if Text.blank data.toList then .ok ∅
    else match toml.fromStr data with
      | .ok hosts => .ok hosts
      | .error err => .error s!"parse {path}: {err}"

/-- What `check_existing` does with the entries in memory. -/
inductive Verdict
  | known
  | refused (err : String)
  | insert (entries : Entries)

def checkExisting (entries : Entries) (host fingerprint : String) (insert : Bool) : Verdict :=
  match entries[host]? with
  | some old =>
    if old = fingerprint then .known
    else .refused
      s!"host certificate mismatch for {host}: known {old}, got {fingerprint}; use -k to bypass"
  | none =>
    if insert then .insert (entries.insert host fingerprint) else .refused s!"unknown host {host}"

/-- How the system calls of one `check_or_insert` end; `none` is success. A save can fail
before its rename or, syncing the directory, after it. -/
structure Io where
  ensureDir : Option String := none
  lock : Option String := none
  read : Option String := none
  saveDir : Option String := none
  beforeRename : Option String := none
  afterRename : Option String := none

/-- `KnownHosts::save`: the result and the file afterwards. -/
def save (toml : Toml) (io : Io) (entries : Entries) (file : Option String) :
    Except String Unit × Option String :=
  match io.saveDir, io.beforeRename, io.afterRename with
  | some err, _, _ => (.error err, file)
  | none, some err, _ => (.error err, file)
  | none, none, some err => (.error err, some (toml.toStringPretty entries))
  | none, none, none => (.ok (), some (toml.toStringPretty entries))

/-- The entries a call checks against: under the lock for Tofu, without it for KnownOnly. -/
def reread (toml : Toml) (path : String) (io : Io) (file : Option String) :
    HostTrust → Except String Entries
  | .tofu =>
    match io.ensureDir, io.lock, io.read with
    | some err, _, _ | none, some err, _ | none, none, some err => .error err
    | none, none, none => readEntries toml path file
  | .knownOnly | .insecure =>
    match io.read with
    | some err => .error err
    | none => readEntries toml path file

/-- `check_existing` with its save: the result, `self.entries` and the file afterwards. -/
def checkAndSave (toml : Toml) (io : Io) (entries : Entries) (file : Option String)
    (host fingerprint : String) (insert : Bool) : Except String Unit × Entries × Option String :=
  match checkExisting entries host fingerprint insert with
  | .known => (.ok (), entries, file)
  | .refused err => (.error err, entries, file)
  | .insert entries =>
    let (result, file) := save toml io entries file
    (result, entries, file)

/-- `KnownHosts::check_or_insert` by a client that runs alone. -/
def checkOrInsert (toml : Toml) (path : String) (io : Io) (entries : Entries)
    (file : Option String) (host fingerprint : String) (trust : HostTrust) :
    Except String Unit × Entries × Option String :=
  if trust = .insecure then (.ok (), entries, file)
  else match reread toml path io file trust with
    | .error err => (.error err, entries, file)
    | .ok entries => checkAndSave toml io entries file host fingerprint (trust == .tofu)

/-- The entry is in the file, as every reader of it would find. -/
def Pinned (toml : Toml) (path : String) (file : Option String) (host fingerprint : String) :
    Prop :=
  ∃ m, readEntries toml path file = .ok m ∧ m[host]? = some fingerprint

/-- Every pin of one version of the file is still in the other. -/
def Extends (toml : Toml) (path : String) (file file' : Option String) : Prop :=
  ∀ host fingerprint, Pinned toml path file host fingerprint →
    Pinned toml path file' host fingerprint

variable {toml : Toml} {path : String} {file file' file'' : Option String}
  {host host' fingerprint fingerprint' : String} {m : Entries}

theorem Extends.refl : Extends toml path file file := fun _ _ h => h

theorem Extends.trans (h : Extends toml path file file') (h' : Extends toml path file' file'') :
    Extends toml path file file'' := fun host fp hp => h' host fp (h host fp hp)

theorem Pinned.unique (h : Pinned toml path file host fingerprint)
    (h' : Pinned toml path file host fingerprint') : fingerprint = fingerprint' := by
  obtain ⟨m, hm, hf⟩ := h
  obtain ⟨m', hm', hf'⟩ := h'
  rw [hm, Except.ok.injEq] at hm'
  subst hm'
  rw [hf, Option.some.injEq] at hf'
  exact hf'

theorem pinned_of_read (hm : readEntries toml path file = .ok m)
    (hf : m[host]? = some fingerprint) : Pinned toml path file host fingerprint := ⟨m, hm, hf⟩

/-- What a save writes is what the next reader finds. -/
theorem readEntries_saved (ht : toml.Lawful) :
    readEntries toml path (some (toml.toStringPretty m)) = .ok m := by
  have hr := ht.roundTrip m
  simp only [readEntries]
  split
  · next hb =>
    rw [ht.blank _ hb] at hr
    exact hr
  · rw [hr]

theorem lookup_insert_self : (m.insert host fingerprint)[host]? = some fingerprint := by
  simp

/-- Inserting an absent host keeps every entry of the map. -/
theorem lookup_insert_of_absent (hm : m[host]? = none) (hf : m[host']? = some fingerprint') :
    (m.insert host fingerprint)[host']? = some fingerprint' := by
  have hne : host ≠ host' := by
    intro he
    subst he
    simp [hm] at hf
  simp [Std.ExtTreeMap.getElem?_insert, Std.LawfulEqCmp.compare_eq_iff_eq, hne, hf]

/-- Saving the file's entries with one absent host added extends the file by that pin. -/
theorem extends_saved (ht : toml.Lawful) (hm : readEntries toml path file = .ok m)
    (hn : m[host]? = none) :
    Extends toml path file (some (toml.toStringPretty (m.insert host fingerprint))) := by
  rintro host' fp ⟨m', hm', hf⟩
  rw [hm, Except.ok.injEq] at hm'
  subst hm'
  exact pinned_of_read (readEntries_saved ht) (lookup_insert_of_absent hn hf)

theorem pinned_saved (ht : toml.Lawful) :
    Pinned toml path (some (toml.toStringPretty (m.insert host fingerprint))) host fingerprint :=
  pinned_of_read (readEntries_saved ht) lookup_insert_self

/-- The calls up to the rename succeed and the file has no entry for the host. -/
def Inserts (toml : Toml) (path : String) (io : Io) (file : Option String) (host : String) :
    Prop :=
  (io.ensureDir = none ∧ io.lock = none ∧ io.read = none ∧ io.saveDir = none ∧
    io.beforeRename = none) ∧
  ∃ m, readEntries toml path file = .ok m ∧ m[host]? = none

theorem reread_tofu {io : Io} : reread toml path io file .tofu = .ok m ↔
    (io.ensureDir = none ∧ io.lock = none ∧ io.read = none) ∧
      readEntries toml path file = .ok m := by
  obtain ⟨dir, lock, read, _, _, _⟩ := io
  cases dir <;> cases lock <;> cases read <;> simp [reread]

/-- A save fails before its rename and changes nothing, or the rename installs the map. -/
theorem save_cases (toml : Toml) (io : Io) (entries : Entries) (file : Option String) :
    ((io.saveDir = none ∧ io.beforeRename = none) ∧
      (save toml io entries file).2 = some (toml.toStringPretty entries) ∧
      ((save toml io entries file).1 = .ok () ↔ io.afterRename = none)) ∨
    (¬ (io.saveDir = none ∧ io.beforeRename = none) ∧ (save toml io entries file).2 = file) := by
  obtain ⟨_, _, _, saveDir, before, after⟩ := io
  cases saveDir <;> cases before <;> cases after <;> simp [save]

/-- What a Tofu call that runs alone does to the file. -/
theorem checkOrInsert_tofu {io : Io} {entries entries' : Entries} {result : Except String Unit}
    (h : checkOrInsert toml path io entries file host fingerprint .tofu =
      (result, entries', file')) :
    (Inserts toml path io file host ∧
      (∃ m, readEntries toml path file = .ok m ∧ m[host]? = none ∧
        file' = some (toml.toStringPretty (m.insert host fingerprint))) ∧
      (result = .ok () ↔ io.afterRename = none)) ∨
    (¬ Inserts toml path io file host ∧ file' = file) := by
  simp only [checkOrInsert, reduceCtorEq, ↓reduceIte] at h
  split at h
  · next err hr =>
    refine Or.inr ⟨?_, (congrArg (·.2.2) h).symm⟩
    rintro ⟨⟨h1, h2, h3, _⟩, m, hm, _⟩
    rw [reread_tofu.mpr ⟨⟨h1, h2, h3⟩, hm⟩] at hr
    cases hr
  · next m hr =>
    obtain ⟨hio, hm⟩ := reread_tofu.mp hr
    have known : ∀ old, m[host]? = some old → ¬ Inserts toml path io file host := by
      rintro old hold ⟨_, m', hm', hn⟩
      rw [hm, Except.ok.injEq] at hm'
      rw [← hm', hold] at hn
      cases hn
    unfold checkAndSave checkExisting at h
    cases hold : m[host]? with
    | some old =>
      refine Or.inr ⟨known old hold, ?_⟩
      simp only [hold] at h
      split at h
      · exact (congrArg (·.2.2) h).symm
      all_goals
        next hne => split at hne <;> simp_all
    | none =>
      simp only [hold, beq_self_eq_true, ↓reduceIte, Prod.mk.injEq] at h
      obtain ⟨rfl, _, rfl⟩ := h
      rcases save_cases toml io (m.insert host fingerprint) file with ⟨hs, hf, hr⟩ | ⟨hs, hf⟩
      · exact Or.inl ⟨⟨⟨hio.1, hio.2.1, hio.2.2, hs⟩, m, hm, hold⟩, ⟨m, hm, hold, hf⟩, hr⟩
      · exact Or.inr ⟨fun hi => hs ⟨hi.1.2.2.2.1, hi.1.2.2.2.2⟩, hf⟩

theorem hostKey_toList (host : String) (port : UInt16) :
    (hostKey host port).toList = host.toList ++ ':' :: Nat.toDigits 10 port.toNat := by
  simp [hostKey, toString, String.toList_append, Nat.toList_repr]

/-- The port's digits hold no colon, so the last colon of a key ends its host. -/
theorem hostKey_injective {host host' : String} {port port' : UInt16}
    (h : hostKey host port = hostKey host' port') : host = host' ∧ port = port' := by
  have hl := congrArg String.toList h
  rw [hostKey_toList, hostKey_toList] at hl
  obtain ⟨hh, hp⟩ := Text.append_cons_inj_of_notMem_right hl (Text.colon_notMem_toDigits _)
    (Text.colon_notMem_toDigits _)
  exact ⟨String.toList_inj.mp hh, UInt16.toNat_inj.mp (Text.toDigits_injective hp)⟩

end Hush.KnownHosts
