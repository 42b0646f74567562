import Hush.Auth.AuthorizedKeys
import Hush.Lib.Wire

/-! The client's question to an ssh-agent for its identities, and the parser of the reply. -/
namespace Hush.Auth.Agent
open Hush.Lib Hush.Lib.Wire

/-- An error that the caller sees, by its outermost message, or an index out of range. -/
inductive Fault
  | error (message : String)
  | panic
  deriving DecidableEq, Repr

theorem Fault.error_ne_panic (message : String) : Fault.error message ≠ .panic := nofun

def sshAgentFailure : UInt8 := 5

def sshAgentcRequestIdentities : UInt8 := 11

def sshAgentIdentitiesAnswer : UInt8 := 12

def maxAgentMessageSize : Nat := 1 <<< 20

/-- The socket of an agent. Where the bytes that the agent sends run out, a read ends in
`short`. -/
structure Socket where
  connect : Except String Unit
  write : Bytes → Except String Unit
  sent : Bytes
  short : String

/-- `input.get(..n)` -/
def getTo (input : Bytes) (n : Nat) : Option Bytes :=
  if n ≤ input.length then some (input.take n) else none

/-- `&input[n..]` -/
def sliceFrom (input : Bytes) (n : Nat) : Except Fault Bytes :=
  if n ≤ input.length then .ok (input.drop n) else .error .panic

/-- `bytes.try_into().expect("four-byte slice")` -/
def fourByteSlice (bytes : Bytes) : Except Fault Bytes :=
  if bytes.length = 4 then .ok bytes else .error .panic

def readAgentU32 : Reader Fault Nat := fun input =>
  match getTo input 4 with
  | none => .error (.error "truncated ssh-agent integer")
  | some bytes => do
    let rest ← sliceFrom input 4
    return (beValue (← fourByteSlice bytes), rest)

def readAgentString : Reader Fault Bytes := do
  let len ← readAgentU32
  fun input =>
    match getTo input len with
    | none => .error (.error "truncated ssh-agent string")
    | some value => do
      let rest ← sliceFrom input len
      return (value, rest)

/-- `read_exact` -/
def readExact (short : String) (n : Nat) : Reader Fault Bytes := take (.error short) n

def readAgentPacket (short : String) : Reader Fault Bytes := do
  let len := beValue (← readExact short 4)
  if len = 0 ∨ maxAgentMessageSize < len then
    throw (.error ("invalid ssh-agent response length " ++ toString len))
  else readExact short len

def writeAgentPacket (socket : Socket) (body : Bytes) : Except Fault Unit :=
  if maxAgentMessageSize < body.length ∨ 2 ^ 32 ≤ body.length then
    .error (.error "ssh-agent request is too large")
  else
    match socket.write (beBytes 4 body.length ++ body) with
    | .error e => .error (.error e)
    | .ok () => .ok ()

section Identities
variable {κ : Type} (fromBytes : Bytes → Option κ)

/-- The loop over the count of identities. -/
def readIdentities : Nat → List κ → Reader Fault (List κ)
  | 0, identities => pure identities
  | count + 1, identities => do
    let key ← readAgentString
    let _comment ← readAgentString
    match fromBytes key with
    | some publicKey => readIdentities count (identities ++ [publicKey])
    | none => readIdentities count identities

/-- The reply after its type byte. -/
def readAnswer : Reader Fault (List κ) := do
  let count ← readAgentU32
  if maxAgentMessageSize / 8 < count then
    throw (.error "ssh-agent returned too many identities")
  else readIdentities fromBytes count []

def parseResponse : Bytes → Except Fault (List κ)
  | [] => .error (.error "empty ssh-agent response")
  | kind :: body =>
    if kind = sshAgentFailure then .error (.error "ssh-agent refused identity request")
    else if kind ≠ sshAgentIdentitiesAnswer then
      .error (.error ("unexpected ssh-agent identity response " ++ toString kind))
    else
      match readAnswer fromBytes body with
      | .error e => .error e
      | .ok (identities, []) => .ok identities
      | .ok (_, _ :: _) => .error (.error "trailing data in ssh-agent identity response")

/-- `PublicKey::from_bytes` is the ssh-key crate's. -/
def listAgentIdentities (path : String) (socket : Socket) : Except Fault (List κ) :=
  match socket.connect with
  | .error _ => .error (.error ("connect ssh-agent " ++ path))
  | .ok () => do
    writeAgentPacket socket [sshAgentcRequestIdentities]
    let (response, _) ← readAgentPacket socket.short socket.sent
    parseResponse fromBytes response

end Identities

/-! The readers are those of the wire format: what they index they have checked. -/

theorem readAgentU32_eq : readAgentU32 = u32 (.error "truncated ssh-agent integer") := by
  funext input
  change readAgentU32 input = (take _ 4 input >>= fun p => pure (beValue p.1, p.2))
  unfold readAgentU32 getTo take
  by_cases h : 4 ≤ input.length
  · rw [if_pos h, if_neg (Nat.not_lt.mpr h)]
    simp only [sliceFrom, fourByteSlice, h, List.length_take, Nat.min_eq_left, if_true]
    rfl
  · rw [if_neg h, if_pos (Nat.lt_of_not_le h)]
    rfl

theorem readAgentString_eq :
    readAgentString = (do take (.error "truncated ssh-agent string") (← readAgentU32)) := by
  unfold readAgentString
  congr 1
  funext len input
  unfold getTo take
  by_cases h : len ≤ input.length
  · rw [if_pos h, if_neg (Nat.not_lt.mpr h)]
    simp only [sliceFrom, h, if_true]
    rfl
  · rw [if_neg h, if_pos (Nat.lt_of_not_le h)]

theorem readAgentU32_eq_ok_iff {n : Nat} {buf rest : Bytes} :
    readAgentU32 buf = .ok (n, rest) ↔ n < 2 ^ 32 ∧ buf = beBytes 4 n ++ rest := by
  rw [readAgentU32_eq]
  exact u32_eq_ok_iff _

theorem readAgentString_eq_ok_iff {s buf rest : Bytes} :
    readAgentString buf = .ok (s, rest) ↔ s.length < 2 ^ 32 ∧ buf = str s ++ rest := by
  rw [readAgentString_eq, bind_eq_ok_iff]
  constructor
  · rintro ⟨len, mid, hlen, hs⟩
    obtain ⟨hlt, rfl⟩ := readAgentU32_eq_ok_iff.mp hlen
    obtain ⟨rfl, rfl⟩ := (take_eq_ok_iff _).mp hs
    exact ⟨hlt, by rw [str, List.append_assoc]⟩
  · rintro ⟨hlt, rfl⟩
    refine ⟨s.length, s ++ rest, readAgentU32_eq_ok_iff.mpr ⟨hlt, ?_⟩, ?_⟩
    · rw [str, List.append_assoc]
    · exact (take_eq_ok_iff _).mpr ⟨rfl, rfl⟩

theorem avoids_readAgentU32 : Avoids .panic readAgentU32 := by
  rw [readAgentU32_eq]
  exact avoids_u32 _ (Fault.error_ne_panic _)

theorem avoids_readAgentString : Avoids .panic readAgentString := by
  rw [readAgentString_eq]
  exact avoids_readAgentU32.bind fun len => avoids_take _ (Fault.error_ne_panic _) len

theorem avoids_throw (message : String) {α : Type} :
    Avoids .panic (throw (.error message) : Reader Fault α) := by
  intro buf h
  cases h

theorem avoids_readAgentPacket (short : String) : Avoids .panic (readAgentPacket short) := by
  refine (avoids_take _ (Fault.error_ne_panic _) 4).bind fun bytes => ?_
  dsimp only
  split
  · exact avoids_throw _
  · exact avoids_take _ (Fault.error_ne_panic _) _

/-! The grammar of the reply. -/

def pairsBytes (pairs : List (Bytes × Bytes)) : Bytes :=
  pairs.flatMap fun pair => str pair.1 ++ str pair.2

/-- The reply with these keys and comments. -/
def answer (pairs : List (Bytes × Bytes)) : Bytes :=
  sshAgentIdentitiesAnswer :: (beBytes 4 pairs.length ++ pairsBytes pairs)

theorem pairsBytes_cons (pair : Bytes × Bytes) (pairs : List (Bytes × Bytes)) :
    pairsBytes (pair :: pairs) = str pair.1 ++ str pair.2 ++ pairsBytes pairs := rfl

/-- The two lengths of a pair take eight bytes. -/
theorem length_le_pairsBytes (pairs : List (Bytes × Bytes)) :
    8 * pairs.length ≤ (pairsBytes pairs).length := by
  induction pairs with
  | nil => exact Nat.zero_le _
  | cons pair pairs ih =>
    rw [pairsBytes_cons, List.length_append, List.length_append, length_str, length_str,
      List.length_cons]
    omega

theorem length_answer (pairs : List (Bytes × Bytes)) :
    (answer pairs).length = 5 + (pairsBytes pairs).length := by
  rw [answer, List.length_cons, List.length_append, length_beBytes]
  omega

/-- The cap on the count is implied by the cap on the size. -/
theorem count_le {pairs : List (Bytes × Bytes)}
    (h : (answer pairs).length ≤ maxAgentMessageSize) :
    pairs.length ≤ maxAgentMessageSize / 8 := by
  have := length_le_pairsBytes pairs
  rw [length_answer] at h
  omega

theorem length_lt_of_mem {pairs : List (Bytes × Bytes)} {pair : Bytes × Bytes}
    (h : pair ∈ pairs) :
    pair.1.length < (pairsBytes pairs).length ∧ pair.2.length < (pairsBytes pairs).length := by
  induction pairs with
  | nil => cases h
  | cons p pairs ih =>
    rw [pairsBytes_cons, List.length_append, List.length_append, length_str, length_str]
    rcases List.mem_cons.mp h with rfl | hmem
    · omega
    · have := ih hmem
      omega

section Identities
variable {κ : Type} (fromBytes : Bytes → Option κ)

/-- The keys among the pairs that decode, in order. -/
def decoded (pairs : List (Bytes × Bytes)) : List κ :=
  pairs.filterMap fun pair => fromBytes pair.1

theorem readIdentities_succ (count : Nat) (identities : List κ) :
    readIdentities fromBytes (count + 1) identities =
      (do
        let key ← readAgentString
        let _comment ← readAgentString
        readIdentities fromBytes count (identities ++ (fromBytes key).toList)) := by
  conv_lhs => unfold readIdentities
  congr 1
  funext key
  congr 1
  funext comment
  cases fromBytes key with
  | none => rw [Option.toList_none, List.append_nil]
  | some publicKey => rfl

theorem decoded_cons (pair : Bytes × Bytes) (pairs : List (Bytes × Bytes)) :
    decoded fromBytes (pair :: pairs) =
      (fromBytes pair.1).toList ++ decoded fromBytes pairs := by
  unfold decoded
  rw [List.filterMap_cons]
  cases fromBytes pair.1 <;> rfl

/-- The loop takes exactly its count of pairs off the front. -/
theorem readIdentities_eq_ok_iff {count : Nat} {identities keys : List κ} {buf rest : Bytes} :
    readIdentities fromBytes count identities buf = .ok (keys, rest) ↔
      ∃ pairs : List (Bytes × Bytes), pairs.length = count ∧
        (∀ pair ∈ pairs, pair.1.length < 2 ^ 32 ∧ pair.2.length < 2 ^ 32) ∧
        buf = pairsBytes pairs ++ rest ∧ keys = identities ++ decoded fromBytes pairs := by
  induction count generalizing identities buf with
  | zero =>
    constructor
    · intro h
      cases h
      exact ⟨[], rfl, nofun, rfl, (List.append_nil _).symm⟩
    · rintro ⟨pairs, hcount, -, rfl, rfl⟩
      obtain rfl := List.eq_nil_of_length_eq_zero hcount
      rw [decoded, List.filterMap_nil, List.append_nil]
      rfl
  | succ count ih =>
    rw [readIdentities_succ]
    constructor
    · intro h
      obtain ⟨key, buf₁, hkey, hafter⟩ := bind_eq_ok_iff.mp h
      obtain ⟨comment, buf₂, hcomment, hloop⟩ := bind_eq_ok_iff.mp hafter
      obtain ⟨hkeyLen, rfl⟩ := readAgentString_eq_ok_iff.mp hkey
      obtain ⟨hcommentLen, rfl⟩ := readAgentString_eq_ok_iff.mp hcomment
      obtain ⟨pairs, rfl, hpairs, rfl, rfl⟩ := ih.mp hloop
      refine ⟨(key, comment) :: pairs, rfl, ?_, ?_, ?_⟩
      · exact List.forall_mem_cons.mpr ⟨⟨hkeyLen, hcommentLen⟩, hpairs⟩
      · simp only [pairsBytes_cons, List.append_assoc]
      · rw [decoded_cons, List.append_assoc]
    · rintro ⟨pairs, hcount, hpairs, rfl, rfl⟩
      obtain ⟨pair, pairs, rfl⟩ := List.exists_cons_of_length_eq_add_one hcount
      obtain ⟨⟨hkeyLen, hcommentLen⟩, hpairs⟩ := List.forall_mem_cons.mp hpairs
      simp only [pairsBytes_cons, List.append_assoc]
      refine bind_eq_ok_iff.mpr ⟨_, _, readAgentString_eq_ok_iff.mpr ⟨hkeyLen, rfl⟩, ?_⟩
      refine bind_eq_ok_iff.mpr ⟨_, _, readAgentString_eq_ok_iff.mpr ⟨hcommentLen, rfl⟩, ?_⟩
      refine ih.mpr ⟨pairs, Nat.succ.inj hcount, hpairs, rfl, ?_⟩
      rw [decoded_cons, List.append_assoc]

theorem avoids_readIdentities (count : Nat) (identities : List κ) :
    Avoids .panic (readIdentities fromBytes count identities) := by
  induction count generalizing identities with
  | zero => exact avoids_pure _ _
  | succ count ih =>
    rw [readIdentities_succ]
    exact avoids_readAgentString.bind fun _ => avoids_readAgentString.bind fun _ => ih _

theorem avoids_readAnswer : Avoids .panic (readAnswer fromBytes) := by
  refine avoids_readAgentU32.bind fun count => ?_
  split
  · exact avoids_throw _
  · exact avoids_readIdentities fromBytes _ _

theorem parseResponse_ne_panic (response : Bytes) :
    parseResponse fromBytes response ≠ .error .panic := by
  cases response with
  | nil => nofun
  | cons kind body =>
    have hread := avoids_readAnswer fromBytes body
    simp only [parseResponse]
    split
    · nofun
    split
    · nofun
    split
    · next e he =>
      intro h
      cases h
      exact hread he
    · nofun
    · nofun

theorem readAnswer_eq_ok_iff {keys : List κ} {buf rest : Bytes} :
    readAnswer fromBytes buf = .ok (keys, rest) ↔
      ∃ pairs : List (Bytes × Bytes), pairs.length ≤ maxAgentMessageSize / 8 ∧
        (∀ pair ∈ pairs, pair.1.length < 2 ^ 32 ∧ pair.2.length < 2 ^ 32) ∧
        buf = beBytes 4 pairs.length ++ pairsBytes pairs ++ rest ∧
        keys = decoded fromBytes pairs := by
  constructor
  · intro h
    obtain ⟨count, mid, hcount, hread⟩ := bind_eq_ok_iff.mp h
    obtain ⟨-, rfl⟩ := readAgentU32_eq_ok_iff.mp hcount
    by_cases hcap : maxAgentMessageSize / 8 < count
    · rw [if_pos hcap] at hread
      cases hread
    · rw [if_neg hcap] at hread
      obtain ⟨pairs, rfl, hpairs, rfl, rfl⟩ := (readIdentities_eq_ok_iff fromBytes).mp hread
      exact ⟨pairs, Nat.not_lt.mp hcap, hpairs, (List.append_assoc _ _ _).symm, rfl⟩
  · rintro ⟨pairs, hcap, hpairs, rfl, rfl⟩
    have hlt : pairs.length < 2 ^ 32 := Nat.lt_of_le_of_lt hcap (by decide)
    rw [List.append_assoc]
    refine bind_eq_ok_iff.mpr ⟨_, _, readAgentU32_eq_ok_iff.mpr ⟨hlt, rfl⟩, ?_⟩
    rw [if_neg (Nat.not_lt.mpr hcap)]
    exact (readIdentities_eq_ok_iff fromBytes).mpr ⟨pairs, rfl, hpairs, rfl, rfl⟩

/-- A body within the size cap is accepted exactly if it is an answer. -/
theorem parseResponse_eq_ok_iff {keys : List κ} {response : Bytes}
    (hsize : response.length ≤ maxAgentMessageSize) :
    parseResponse fromBytes response = .ok keys ↔
      ∃ pairs, response = answer pairs ∧ keys = decoded fromBytes pairs := by
  constructor
  · intro h
    cases response with
    | nil => cases h
    | cons kind body =>
      simp only [parseResponse] at h
      split at h
      · cases h
      split at h
      · cases h
      next hkind =>
      split at h
      · cases h
      · next identities hread =>
        cases h
        obtain ⟨pairs, -, -, rfl, rfl⟩ := (readAnswer_eq_ok_iff fromBytes).mp hread
        obtain rfl := Decidable.of_not_not hkind
        exact ⟨pairs, by rw [answer, List.append_nil], rfl⟩
      · cases h
  · rintro ⟨pairs, rfl, rfl⟩
    have hpairs : ∀ pair ∈ pairs, pair.1.length < 2 ^ 32 ∧ pair.2.length < 2 ^ 32 := by
      intro pair hmem
      have hlt := length_lt_of_mem hmem
      have hmax : maxAgentMessageSize < 2 ^ 32 := by decide
      rw [length_answer] at hsize
      omega
    have hread : readAnswer fromBytes (beBytes 4 pairs.length ++ pairsBytes pairs) =
        .ok (decoded fromBytes pairs, []) :=
      (readAnswer_eq_ok_iff fromBytes).mpr
        ⟨pairs, count_le hsize, hpairs, (List.append_nil _).symm, rfl⟩
    have hkind : ¬ sshAgentIdentitiesAnswer = sshAgentFailure := by decide
    simp only [answer, parseResponse, if_neg hkind, ne_eq, not_true_eq_false, if_false, hread]

theorem readAgentPacket_eq_ok_iff {short : String} {body sent rest : Bytes} :
    readAgentPacket short sent = .ok (body, rest) ↔
      1 ≤ body.length ∧ body.length ≤ maxAgentMessageSize ∧
        sent = beBytes 4 body.length ++ body ++ rest := by
  have hmax : maxAgentMessageSize < 2 ^ 32 := by decide
  constructor
  · intro h
    obtain ⟨bytes, mid, htake, hread⟩ := bind_eq_ok_iff.mp h
    obtain ⟨rfl, hbytes⟩ := (take_eq_ok_iff _).mp htake
    by_cases hlen : beValue bytes = 0 ∨ maxAgentMessageSize < beValue bytes
    · rw [if_pos hlen] at hread
      cases hread
    · rw [if_neg hlen] at hread
      obtain ⟨rfl, hbody⟩ := (take_eq_ok_iff _).mp hread
      have hround := beBytes_beValue bytes
      rw [hbytes, ← hbody] at hround
      rw [not_or, ← hbody] at hlen
      exact ⟨Nat.pos_of_ne_zero hlen.1, Nat.not_lt.mp hlen.2, by rw [hround, List.append_assoc]⟩
  · rintro ⟨hpos, hsize, rfl⟩
    rw [List.append_assoc]
    refine bind_eq_ok_iff.mpr ⟨_, _, (take_eq_ok_iff _).mpr ⟨rfl, length_beBytes 4 _⟩, ?_⟩
    rw [beValue_beBytes (by omega), if_neg (by omega)]
    exact (take_eq_ok_iff _).mpr ⟨rfl, rfl⟩

/-- The agent is there and takes the request. -/
def Socket.Asked (socket : Socket) : Prop :=
  socket.connect = .ok () ∧ socket.write (str [sshAgentcRequestIdentities]) = .ok ()

theorem writeAgentPacket_request_eq_ok_iff (socket : Socket) :
    writeAgentPacket socket [sshAgentcRequestIdentities] = .ok () ↔
      socket.write (str [sshAgentcRequestIdentities]) = .ok () := by
  unfold writeAgentPacket
  rw [if_neg (by decide)]
  change (match socket.write (str [sshAgentcRequestIdentities]) with
    | .error e => _
    | .ok () => _) = _ ↔ _
  cases socket.write (str [sshAgentcRequestIdentities]) <;> simp

theorem listAgentIdentities_eq_ok_iff {path : String} {socket : Socket} {keys : List κ} :
    listAgentIdentities fromBytes path socket = .ok keys ↔
      socket.connect = .ok () ∧
        socket.write (str [sshAgentcRequestIdentities]) = .ok () ∧
        ∃ response rest, readAgentPacket socket.short socket.sent = .ok (response, rest) ∧
          parseResponse fromBytes response = .ok keys := by
  rw [← writeAgentPacket_request_eq_ok_iff]
  unfold listAgentIdentities
  cases socket.connect with
  | error e => simp
  | ok _ =>
    cases writeAgentPacket socket [sshAgentcRequestIdentities] with
    | error e => simp [bind, Except.bind]
    | ok _ =>
      cases readAgentPacket socket.short socket.sent with
      | error e => simp [bind, Except.bind]
      | ok packet =>
        obtain ⟨response, rest⟩ := packet
        simp [bind, Except.bind]

theorem writeAgentPacket_ne_panic (socket : Socket) (body : Bytes) :
    writeAgentPacket socket body ≠ .error .panic := by
  unfold writeAgentPacket
  split
  · nofun
  split <;> nofun

/-- The bytes begin with a length that is not zero and not over the cap, and a body of so many
bytes. -/
def Framed (sent body : Bytes) : Prop :=
  1 ≤ body.length ∧ body.length ≤ maxAgentMessageSize ∧
    ∃ rest, sent = beBytes 4 body.length ++ body ++ rest

/-- The parser accepts exactly its grammar, the cap on the count never decides, and nothing that
is sent makes an index go out of range. -/
theorem listAgentIdentities_grammar (path : String) (socket : Socket) :
    (∀ keys : List κ, listAgentIdentities fromBytes path socket = .ok keys ↔
      socket.Asked ∧ ∃ pairs : List (Bytes × Bytes), Framed socket.sent (answer pairs) ∧
        keys = pairs.filterMap fun pair => fromBytes pair.1) ∧
    (∀ pairs : List (Bytes × Bytes), Framed socket.sent (answer pairs) →
      pairs.length ≤ maxAgentMessageSize / 8) ∧
    listAgentIdentities fromBytes path socket ≠ .error .panic := by
  refine ⟨fun keys => ?_, fun pairs hframed => count_le hframed.2.1, ?_⟩
  · constructor
    · intro h
      obtain ⟨hconnect, hwrite, response, rest, hpacket, hparse⟩ :=
        (listAgentIdentities_eq_ok_iff fromBytes).mp h
      obtain ⟨hpos, hsize, hsent⟩ := readAgentPacket_eq_ok_iff.mp hpacket
      obtain ⟨pairs, rfl, rfl⟩ := (parseResponse_eq_ok_iff fromBytes hsize).mp hparse
      exact ⟨⟨hconnect, hwrite⟩, pairs, ⟨hpos, hsize, rest, hsent⟩, rfl⟩
    · rintro ⟨⟨hconnect, hwrite⟩, pairs, ⟨hpos, hsize, rest, hsent⟩, rfl⟩
      refine (listAgentIdentities_eq_ok_iff fromBytes).mpr
        ⟨hconnect, hwrite, answer pairs, rest, ?_, ?_⟩
      · exact readAgentPacket_eq_ok_iff.mpr ⟨hpos, hsize, hsent⟩
      · exact (parseResponse_eq_ok_iff fromBytes hsize).mpr ⟨pairs, rfl, rfl⟩
  · intro h
    unfold listAgentIdentities at h
    split at h
    · cases h
    cases hwrite : writeAgentPacket socket [sshAgentcRequestIdentities] with
    | error e =>
      rw [hwrite] at h
      cases h
      exact writeAgentPacket_ne_panic _ _ hwrite
    | ok _ =>
      rw [hwrite] at h
      cases hpacket : readAgentPacket socket.short socket.sent with
      | error e =>
        rw [hpacket] at h
        cases h
        exact avoids_readAgentPacket _ _ hpacket
      | ok packet =>
        rw [hpacket] at h
        exact parseResponse_ne_panic fromBytes packet.1 h

end Identities

/-- One key that decodes and one that does not. -/
example :
    listAgentIdentities (fun key => if key = [7] then some "key" else none) "agent"
      ⟨.ok (), fun _ => .ok (), str (answer [([7], []), ([8], [1, 2])]) ++ [0], "eof"⟩ =
      .ok ["key"] := by
  decide +kernel

end Hush.Auth.Agent
