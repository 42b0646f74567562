import Hush.Auth.AuthorizedKeys

/-! A reader of key lines, on which the laws hold. -/
namespace Hush.Auth.KeyLine
open Hush.Lib

structure PublicKey where
  algorithm : Algorithm
  blob : Bytes
  comment : List Char
  deriving DecidableEq, Repr

def algorithmOf (name : String) : Algorithm :=
  if name = "ssh-dss" then .dsa
  else if name = "ecdsa-sha2-nistp256" then .ecdsa .nistP256
  else if name = "ecdsa-sha2-nistp384" then .ecdsa .nistP384
  else if name = "ecdsa-sha2-nistp521" then .ecdsa .nistP521
  else if name = "ssh-ed25519" then .ed25519
  else if name = "ssh-rsa" then .rsa none
  else if name = "rsa-sha2-256" then .rsa (some .sha256)
  else if name = "rsa-sha2-512" then .rsa (some .sha512)
  else if name = "sk-ecdsa-sha2-nistp256@openssh.com" then .skEcdsaSha2NistP256
  else if name = "sk-ssh-ed25519@openssh.com" then .skEd25519
  else .other name

def sextet (c : Char) : Option Nat :=
  if 'A' ≤ c && c ≤ 'Z' then some (c.toNat - 65)
  else if 'a' ≤ c && c ≤ 'z' then some (c.toNat - 71)
  else if '0' ≤ c && c ≤ '9' then some (c.toNat + 4)
  else if c == '+' then some 62
  else if c == '/' then some 63
  else none

/-- Standard base64 with padding. -/
def decodeBase64 : List Char → Option Bytes
  | [] => some []
  | [a, b, '=', '='] => do
    let a ← sextet a
    let b ← sextet b
    return [.ofNat (a * 4 + b / 16)]
  | [a, b, c, '='] => do
    let a ← sextet a
    let b ← sextet b
    let c ← sextet c
    return [.ofNat (a * 4 + b / 16), .ofNat (b % 16 * 16 + c / 4)]
  | a :: b :: c :: d :: rest => do
    let a ← sextet a
    let b ← sextet b
    let c ← sextet c
    let d ← sextet d
    return .ofNat (a * 4 + b / 16) :: .ofNat (b % 16 * 16 + c / 4) :: .ofNat (c % 4 * 64 + d) ::
      (← decodeBase64 rest)
  | _ => none

/-- A blob starts with the length and name of its algorithm. -/
def names (algorithm : Algorithm) (blob : Bytes) : Bool :=
  let name := Utf8.encode algorithm.asStr.toList
  (0 :: 0 :: 0 :: .ofNat name.length :: name).isPrefixOf blob

def decodeKey (algorithm : Algorithm) (base64 : List Char) : Option Bytes :=
  match decodeBase64 base64 with
  | some blob =>
    if algorithmOf algorithm.asStr = algorithm ∧ ' ' ∉ algorithm.asStr.toList ∧
      names algorithm blob = true then some blob else none
  | none => none

/-- The text up to the first blank, and what follows that. -/
def segment : List Char → List Char × Option (List Char)
  | [] => ([], none)
  | c :: rest =>
    if c == ' ' then ([], some rest)
    else
      let (first, rest) := segment rest
      (c :: first, rest)

def fromOpenssh (line : List Char) : Option PublicKey :=
  match segment line with
  | (_, none) => none
  | (name, some rest) =>
    let (base64, comment) := segment rest
    let algorithm := algorithmOf (String.ofList name)
    (decodeKey algorithm base64).map fun blob => ⟨algorithm, blob, comment.getD []⟩

def keys : SshKeys PublicKey where
  fromOpenssh := fromOpenssh
  toBytes := fun k => .ok k.blob
  algorithm := PublicKey.algorithm
  decodeKey := decodeKey

theorem asStr_ite {name known : String} {a b : Algorithm} (ha : a.asStr = known)
    (hb : b.asStr = name) : (if name = known then a else b).asStr = name := by
  split
  · next h => rw [ha, h]
  · exact hb

theorem asStr_algorithmOf (name : String) : (algorithmOf name).asStr = name := by
  unfold algorithmOf
  -- one name after the other, and any other one is kept as it is
  repeat refine asStr_ite rfl ?_
  rfl

theorem segment_notMem_append {s : List Char} (h : ' ' ∉ s) (t : List Char) :
    segment (s ++ t) = (s ++ (segment t).1, (segment t).2) := by
  induction s with
  | nil => rfl
  | cons c s ih =>
    have hc : c ≠ ' ' := fun he => h (by simp [he])
    have hs : ' ' ∉ s := fun hm => h (List.mem_cons_of_mem _ hm)
    simp [segment, hc, ih hs]

theorem segment_of_notMem {s : List Char} (h : ' ' ∉ s) : segment s = (s, none) := by
  have happend := segment_notMem_append h []
  rwa [segment, List.append_nil] at happend

theorem segment_append {s rest : List Char} (h : ' ' ∉ s) :
    segment (s ++ ' ' :: rest) = (s, some rest) := by
  have hblank : segment (' ' :: rest) = ([], some rest) := rfl
  rw [segment_notMem_append h, hblank, List.append_nil]

theorem segment_none {s first : List Char} (h : segment s = (first, none)) : s = first := by
  induction s generalizing first with
  | nil =>
    cases h
    rfl
  | cons c s ih =>
    simp only [segment] at h
    split at h
    · cases h
    · simp only [Prod.mk.injEq] at h
      rw [← h.1]
      exact congrArg _ (ih (Prod.ext rfl h.2))

theorem segment_some {s first rest : List Char} (h : segment s = (first, some rest)) :
    s = first ++ ' ' :: rest := by
  induction s generalizing first with
  | nil => cases h
  | cons c s ih =>
    simp only [segment] at h
    split at h
    · next hc =>
      cases h
      simp [beq_iff_eq.mp hc]
    · simp only [Prod.mk.injEq] at h
      rw [← h.1, List.cons_append, ← ih (Prod.ext rfl h.2)]

theorem blank_notMem_base64 {s : List Char} {blob : Bytes} (h : decodeBase64 s = some blob) :
    ' ' ∉ s := by
  have hblank : ∀ {c n}, sextet c = some n → ' ' ≠ c := by
    rintro c n hc rfl
    simp [sextet] at hc
  fun_induction decodeBase64 s generalizing blob with
  | case1 => simp
  | case2 a b =>
    simp only [Option.bind_eq_bind, Option.bind_eq_some_iff] at h
    obtain ⟨_, ha, _, hb, _⟩ := h
    simp only [List.mem_cons, List.not_mem_nil, or_false, not_or]
    exact ⟨hblank ha, hblank hb, by decide, by decide⟩
  | case3 a b c =>
    simp only [Option.bind_eq_bind, Option.bind_eq_some_iff] at h
    obtain ⟨_, ha, _, hb, _, hc, _⟩ := h
    simp only [List.mem_cons, List.not_mem_nil, or_false, not_or]
    exact ⟨hblank ha, hblank hb, hblank hc, by decide⟩
  | case4 a b c d rest _ _ ih =>
    simp only [Option.bind_eq_bind, Option.bind_eq_some_iff] at h
    obtain ⟨_, ha, _, hb, _, hc, _, hd, _, hrest, _⟩ := h
    simp only [List.mem_cons, not_or]
    exact ⟨hblank ha, hblank hb, hblank hc, hblank hd, ih hrest⟩
  | case5 => cases h

theorem decodeKey_some {algorithm : Algorithm} {base64 : List Char} {blob : Bytes}
    (h : decodeKey algorithm base64 = some blob) :
    algorithmOf algorithm.asStr = algorithm ∧ ' ' ∉ algorithm.asStr.toList ∧ ' ' ∉ base64 := by
  unfold decodeKey at h
  split at h
  · next blob' hb =>
    split at h
    · next hc => exact ⟨hc.1, hc.2.1, blank_notMem_base64 hb⟩
    · cases h
  · cases h

theorem keys_lawful : keys.Lawful := by
  constructor
  · intro line k h
    change fromOpenssh line = some k at h
    unfold fromOpenssh at h
    split at h
    · cases h
    · next name rest hline =>
      cases hrest : segment rest with
      | mk base64 comment =>
        simp only [hrest, Option.map_eq_some_iff] at h
        obtain ⟨blob, hd, rfl⟩ := h
        refine ⟨base64, blob, ?_, hd, rfl⟩
        have hname : (algorithmOf (String.ofList name)).asStr.toList = name := by
          rw [asStr_algorithmOf, String.toList_ofList]
        cases comment with
        | none =>
          left
          rw [segment_some hline, segment_none hrest]
          simp only [keys, hname]
        | some comment =>
          right
          refine ⟨comment, ?_⟩
          rw [segment_some hline, segment_some hrest]
          simp only [keys, hname]
  · intro algorithm base64 blob line hline hd
    change decodeKey algorithm base64 = some blob at hd
    obtain ⟨halg, hname, hbase⟩ := decodeKey_some hd
    rcases hline with rfl | ⟨comment, rfl⟩
    · refine ⟨⟨algorithm, blob, []⟩, ?_, rfl, rfl⟩
      simp [keys, fromOpenssh, segment_append hname, segment_of_notMem hbase, halg, hd]
    · refine ⟨⟨algorithm, blob, comment⟩, ?_, rfl, rfl⟩
      simp [keys, fromOpenssh, segment_append hname, segment_append hbase, halg, hd]

theorem names_of_decodeKey {algorithm : Algorithm} {base64 : List Char} {blob : Bytes}
    (h : decodeKey algorithm base64 = some blob) : names algorithm blob = true := by
  unfold decodeKey at h
  split at h
  · split at h
    · next hc =>
      cases h
      exact hc.2.2
    · cases h
  · cases h

/-- In a blob of the length that keys have, the name at its start is read in one way. -/
theorem asStr_eq_of_names {a b : Algorithm} {blob : Bytes} (ha : names a blob = true)
    (hb : names b blob = true) (hlength : blob.length < 256) : a.asStr = b.asStr := by
  simp only [names, List.isPrefixOf_iff_prefix] at ha hb
  obtain ⟨rest, rfl⟩ := ha
  obtain ⟨rest', heq⟩ := hb
  simp only [List.cons_append, List.cons.injEq, true_and] at heq
  obtain ⟨hlen, happend⟩ := heq
  have hsame := congrArg List.length happend
  simp only [List.cons_append, List.length_cons, List.length_append] at hlength hsame
  have hnames : (Utf8.encode b.asStr.toList).length = (Utf8.encode a.asStr.toList).length := by
    have := congrArg UInt8.toNat hlen
    simp only [UInt8.toNat_ofNat'] at this
    omega
  have hbytes := (List.append_inj happend hnames).1
  have := congrArg Utf8.lossy hbytes
  rw [Utf8.lossy_encode, Utf8.lossy_encode] at this
  exact (String.toList_inj.mp this).symm

theorem keys_bytesName {key : PublicKey} (hname : algorithmOf key.algorithm.asStr = key.algorithm)
    (hblob : names key.algorithm key.blob = true) (hlength : key.blob.length < 256) :
    keys.BytesName key key.blob := by
  intro algorithm base64 hdecode
  have hsame := asStr_eq_of_names (names_of_decodeKey hdecode) hblob hlength
  calc algorithm = algorithmOf algorithm.asStr := (decodeKey_some hdecode).1.symm
    _ = algorithmOf key.algorithm.asStr := by rw [hsame]
    _ = key.algorithm := hname

end Hush.Auth.KeyLine
