import Hush.Auth.EcdsaKey

/-! The `mpint` encoding of the numbers in an ECDSA signature. -/
namespace Hush.Auth.Mpint
open Hush.Lib.Wire Hush.Auth.EcdsaKey

/-- The bytes after the length: leading zeros are stripped, and a zero byte is put before a most
significant bit that is set. -/
def payload (magnitude : Bytes) : Bytes :=
  let trimmed := magnitude.dropWhile (· = 0)
  let pad := trimmed.head?.any fun b => b &&& 0x80 != 0
  if pad then 0 :: trimmed else trimmed

/-- The length is written modulo 2³² (`as u32`). -/
def putMpint (buf magnitude : Bytes) : Bytes :=
  buf ++ beBytes 4 ((payload magnitude).length % 2 ^ 32) ++ payload magnitude

def ecdsaFixedToSsh (fixed : Bytes) : Except String Bytes :=
  if fixed = [] ∨ fixed.length % 2 ≠ 0 then
    .error s!"unexpected ECDSA signature length {fixed.length}"
  else
    let r := fixed.take (fixed.length / 2)
    let s := fixed.drop (fixed.length / 2)
    .ok (putMpint (putMpint [] r) s)

/-! What the encoding is to be. -/

/-- The most significant bit, which is the sign in two's complement. -/
def topBit (bs : Bytes) : Bool := bs.head?.any fun b => 128 ≤ b.toNat

def twosValue (bs : Bytes) : Int := beValue bs - if topBit bs then 256 ^ bs.length else 0

/-- The bytes are the shortest two's-complement form of a number that is not negative. -/
structure Canonical (n : Nat) (bs : Bytes) : Prop where
  value : twosValue bs = n
  shortest : ∀ cs, twosValue cs = n → bs.length ≤ cs.length
  zero : n = 0 → bs = []
  no_redundant : ∀ rest, bs = 0 :: rest → topBit rest = true
  positive : topBit bs = false

/-- The bytes are two strings and nothing else, which decode to these numbers at their widths. -/
def DecodesTo (bs r s : Bytes) : Prop :=
  ∃ p q, (do return (← string truncatedMessage, ← string truncatedMessage)) bs = .ok ((p, q), []) ∧
    normalizeScalar p r.length = .ok r ∧ normalizeScalar q s.length = .ok s

theorem and_top_iff (b : UInt8) : (b &&& 0x80 != 0) = decide (128 ≤ b.toNat) := by
  have hall : ∀ n : Fin 256,
      (UInt8.ofNat n &&& 0x80 != 0) = decide (128 ≤ (UInt8.ofNat n).toNat) := by decide +kernel
  have hb := hall ⟨b.toNat, b.toNat_lt⟩
  rwa [UInt8.ofNat_toNat] at hb

theorem payload_eq (m : Bytes) :
    payload m = if topBit (m.dropWhile (· = 0)) then 0 :: m.dropWhile (· = 0)
      else m.dropWhile (· = 0) := by
  simp only [payload, topBit, and_top_iff]
  rfl

theorem beValue_payload (m : Bytes) : beValue (payload m) = beValue m := by
  rw [payload_eq]
  split
  · exact (beValue_zeros 1 _).trans (beValue_dropWhile m)
  · exact beValue_dropWhile m

theorem length_payload_le (m : Bytes) : (payload m).length ≤ m.length + 1 := by
  have hle : (m.dropWhile (· = 0)).length ≤ m.length := (List.dropWhile_sublist _).length_le
  rw [payload_eq]
  split
  · exact Nat.succ_le_succ hle
  · exact Nat.le_succ_of_le hle

theorem topBit_payload (m : Bytes) : topBit (payload m) = false := by
  rw [payload_eq]
  split
  · rfl
  · next h => exact Bool.not_eq_true _ |>.mp h

/-- A form of a number that is not negative has the sign bit clear, and that many values. -/
theorem two_mul_lt_of_twosValue {cs : Bytes} {n : Nat} (h : twosValue cs = n) :
    beValue cs = n ∧ (2 * n < 256 ^ cs.length ∨ cs = []) := by
  have hlt := beValue_lt cs
  cases htop : topBit cs with
  | true =>
    rw [twosValue, htop, if_pos rfl] at h
    have hlt' : (beValue cs : Int) < 256 ^ cs.length := by exact_mod_cast hlt
    omega
  | false =>
    rw [twosValue, htop, if_neg Bool.false_ne_true, Int.sub_zero] at h
    have hn : beValue cs = n := by exact_mod_cast h
    refine ⟨hn, ?_⟩
    cases cs with
    | nil => exact .inr rfl
    | cons c cs =>
      left
      have hc : c.toNat < 128 := by simpa [topBit] using htop
      have hrest := beValue_lt cs
      rw [← hn, beValue_cons, List.length_cons, Nat.pow_succ]
      have : c.toNat * 256 ^ cs.length ≤ 127 * 256 ^ cs.length :=
        Nat.mul_le_mul_right _ (by omega)
      omega

/-- The sign bit of a number takes up half of the values of its bytes. -/
theorem pow_le_two_mul {bs : Bytes} (h : topBit bs = true) : 256 ^ bs.length ≤ 2 * beValue bs := by
  cases bs with
  | nil => cases h
  | cons b bs =>
    have hb : 128 ≤ b.toNat := by simpa [topBit] using h
    rw [beValue_cons, List.length_cons, Nat.pow_succ]
    have := Nat.mul_le_mul_right (256 ^ bs.length) hb
    omega

theorem canonical_payload (m : Bytes) : Canonical (beValue m) (payload m) where
  value := by
    rw [twosValue, topBit_payload, if_neg Bool.false_ne_true, beValue_payload, Int.sub_zero]
  shortest := by
    intro cs h
    obtain ⟨hvalue, hsigned⟩ := two_mul_lt_of_twosValue h
    have htrimmed := beValue_dropWhile m
    rw [payload_eq]
    split
    · next htop =>
      have hpow := pow_le_two_mul htop
      rcases hsigned with hlt | rfl
      · rw [htrimmed] at hpow
        exact (Nat.pow_lt_pow_iff_right (by decide)).mp (Nat.lt_of_le_of_lt hpow hlt)
      · have : 0 < 256 ^ (m.dropWhile (· = 0)).length := Nat.pow_pos (by decide)
        have hzero : beValue m = 0 := hvalue.symm
        omega
    · exact length_le_of_beValue_lt (head?_dropWhile_ne m) (htrimmed ▸ hvalue ▸ beValue_lt cs)
  zero := by
    intro h
    have hnil : m.dropWhile (· = 0) = [] := by
      have hlen : (m.dropWhile (· = 0)).length ≤ 0 :=
        length_le_of_beValue_lt (head?_dropWhile_ne m) (by rw [beValue_dropWhile, h]; decide)
      exact List.eq_nil_of_length_eq_zero (Nat.le_zero.mp hlen)
    rw [payload_eq, hnil]
    rfl
  no_redundant := by
    intro rest h
    rw [payload_eq] at h
    split at h
    · next htop => rwa [← (List.cons.inj h).2]
    · exact absurd (by rw [h]; rfl) (head?_dropWhile_ne m)
  positive := topBit_payload m

/-- A number has one encoding. -/
theorem payload_eq_of_beValue {m m' : Bytes} (h : beValue m = beValue m') :
    payload m = payload m' := by
  have htrimmed : m.dropWhile (· = 0) = m'.dropWhile (· = 0) := by
    have hvalue : beValue (m.dropWhile (· = 0)) = beValue (m'.dropWhile (· = 0)) := by
      rw [beValue_dropWhile, beValue_dropWhile, h]
    have hle : (m.dropWhile (· = 0)).length ≤ (m'.dropWhile (· = 0)).length :=
      length_le_of_beValue_lt (head?_dropWhile_ne m) (by rw [hvalue]; exact beValue_lt _)
    have hge : (m'.dropWhile (· = 0)).length ≤ (m.dropWhile (· = 0)).length :=
      length_le_of_beValue_lt (head?_dropWhile_ne m') (by rw [← hvalue]; exact beValue_lt _)
    rw [← beBytes_beValue (m.dropWhile (· = 0)), ← beBytes_beValue (m'.dropWhile (· = 0)), hvalue,
      Nat.le_antisymm hle hge]
  rw [payload_eq, payload_eq, htrimmed]

/-- Stripping the zeros of a number and padding it to its old width gives it back. -/
theorem normalizeScalar_payload (m : Bytes) : normalizeScalar (payload m) m.length = .ok m := by
  rw [normalizeScalar_eq (by rw [beValue_payload]; exact beValue_lt m), beValue_payload,
    beBytes_beValue]

theorem normalizeScalar_ok {p out : Bytes} {n : Nat} (h : normalizeScalar p n = .ok out) :
    beValue p < 256 ^ n ∧ out.length = n ∧ beValue out = beValue p := by
  unfold normalizeScalar at h
  simp only at h
  split at h
  · cases h
  · next hlen =>
    cases h
    have hlt := beValue_lt (p.dropWhile (· = 0))
    rw [beValue_dropWhile] at hlt
    refine ⟨Nat.lt_of_lt_of_le hlt (Nat.pow_le_pow_right (by decide) (Nat.not_lt.mp hlen)), ?_, ?_⟩
    · rw [List.length_append, List.length_replicate]
      omega
    · rw [beValue_zeros, beValue_dropWhile]

theorem putMpint_eq {m : Bytes} (h : (payload m).length < 2 ^ 32) (buf : Bytes) :
    putMpint buf m = buf ++ str (payload m) := by
  rw [putMpint, Nat.mod_eq_of_lt h, str, List.append_assoc]

/-- A number's beginning is smaller than the number. -/
theorem eq_of_beValue_take {m : Bytes} {k : Nat} (hk : k ≤ (payload m).length)
    (h : beValue ((payload m).take k) = beValue m) : k = (payload m).length := by
  by_contra hne
  have hlt : k < (payload m).length := by omega
  have hsplit := beValue_append ((payload m).take k) ((payload m).drop k)
  rw [List.take_append_drop, beValue_payload, h, List.length_drop] at hsplit
  have hpow : 256 ≤ 256 ^ ((payload m).length - k) :=
    Nat.le_self_pow (by omega) 256
  have hmul : beValue m * 256 ≤ beValue m * 256 ^ ((payload m).length - k) :=
    Nat.mul_le_mul_left _ hpow
  have hzero : beValue m = 0 := by omega
  rw [(canonical_payload m).zero hzero] at hlt
  exact absurd hlt (Nat.not_lt_zero _)

theorem putMpint_append (buf m : Bytes) : putMpint buf m = buf ++ putMpint [] m := by
  simp [putMpint]

/-- What a reader takes for the string that was written, whatever the length. -/
theorem string_putMpint (m rest : Bytes) :
    string truncatedMessage (putMpint [] m ++ rest) =
      .ok ((payload m).take ((payload m).length % 2 ^ 32),
        (payload m).drop ((payload m).length % 2 ^ 32) ++ rest) := by
  have hle : (payload m).length % 2 ^ 32 ≤ (payload m).length := Nat.mod_le _ _
  have hlt : (payload m).length % 2 ^ 32 < 2 ^ 32 := Nat.mod_lt _ (by decide)
  have hsplit : putMpint [] m ++ rest =
      beBytes 4 ((payload m).length % 2 ^ 32) ++ (payload m ++ rest) := by
    simp [putMpint]
  have htake : take truncatedMessage ((payload m).length % 2 ^ 32) (payload m ++ rest) =
      .ok ((payload m).take ((payload m).length % 2 ^ 32),
        (payload m).drop ((payload m).length % 2 ^ 32) ++ rest) := by
    rw [take, if_neg (by rw [List.length_append]; omega), List.take_append_of_le_length hle,
      List.drop_append_of_le_length hle]
  rw [hsplit]
  exact bind_eq_ok_iff.mpr ⟨_, _, (reads_u32 hlt).ok (payload m ++ rest), htake⟩

/-- The string that is read for a number decodes to it if and only if its length was written. -/
theorem string_decodes_iff {m rest mid p : Bytes} :
    (string truncatedMessage (putMpint [] m ++ rest) = .ok (p, mid) ∧
      normalizeScalar p m.length = .ok m) ↔
      (payload m).length < 2 ^ 32 ∧ p = payload m ∧ mid = rest := by
  rw [string_putMpint, Except.ok.injEq, Prod.mk.injEq]
  constructor
  · rintro ⟨⟨rfl, rfl⟩, h⟩
    have hvalue := (normalizeScalar_ok h).2.2
    have heq := eq_of_beValue_take (Nat.mod_le _ _) hvalue.symm
    refine ⟨heq ▸ Nat.mod_lt _ (by decide), ?_, ?_⟩
    · rw [heq, List.take_length]
    · rw [heq, List.drop_length, List.nil_append]
  · rintro ⟨hlt, rfl, rfl⟩
    rw [Nat.mod_eq_of_lt hlt, List.take_length, List.drop_length, List.nil_append]
    exact ⟨⟨rfl, rfl⟩, normalizeScalar_payload m⟩

theorem decodesTo_iff (r s : Bytes) :
    DecodesTo (putMpint (putMpint [] r) s) r s ↔
      (payload r).length < 2 ^ 32 ∧ (payload s).length < 2 ^ 32 := by
  have hout : putMpint (putMpint [] r) s = putMpint [] r ++ (putMpint [] s ++ []) := by
    rw [putMpint_append, List.append_nil]
  rw [hout]
  constructor
  · rintro ⟨p, q, hread, hp, hq⟩
    obtain ⟨p', mid, hfirst, hread⟩ := bind_eq_ok_iff.mp hread
    obtain ⟨q', mid', hsecond, hread⟩ := bind_eq_ok_iff.mp hread
    cases hread
    obtain ⟨hr, -, rfl⟩ := string_decodes_iff.mp ⟨hfirst, hp⟩
    exact ⟨hr, (string_decodes_iff.mp ⟨hsecond, hq⟩).1⟩
  · rintro ⟨hr, hs⟩
    obtain ⟨hfirst, hp⟩ := string_decodes_iff.mpr ⟨hr, rfl, rfl⟩
    obtain ⟨hsecond, hq⟩ := string_decodes_iff.mpr ⟨hs, rfl, rfl⟩
    exact ⟨_, _, bind_eq_ok_iff.mpr ⟨_, _, hfirst, bind_eq_ok_iff.mpr ⟨_, _, hsecond, rfl⟩⟩, hp, hq⟩

/-- The encoding is canonical and can be undone, and a signature is two of them that decode back
if and only if neither is too long for its length field. -/
theorem mpint_canonical :
    (∀ buf m : Bytes, m.length < 2 ^ 31 → ∃ p, putMpint buf m = buf ++ str p ∧
      Canonical (beValue m) p ∧ normalizeScalar p m.length = .ok m) ∧
    (∀ buf m m' : Bytes, beValue m = beValue m' → putMpint buf m = putMpint buf m') ∧
    (∀ (p : Bytes) (n : Nat), ((∃ out, normalizeScalar p n = .ok out) ↔ beValue p < 256 ^ n) ∧
      ∀ out, normalizeScalar p n = .ok out → out.length = n ∧ beValue out = beValue p) ∧
    ∀ fixed : Bytes, fixed ≠ [] → fixed.length % 2 = 0 → ∃ out, ecdsaFixedToSsh fixed = .ok out ∧
      ∀ r s, fixed = r ++ s → r.length = s.length →
        (DecodesTo out r s ↔ (payload r).length < 2 ^ 32 ∧ (payload s).length < 2 ^ 32) := by
  refine ⟨fun buf m hm => ?_, fun buf m m' h => ?_, fun p n => ⟨⟨?_, ?_⟩, ?_⟩,
    fun fixed hne heven => ?_⟩
  · have hlen : (payload m).length < 2 ^ 32 := by
      have := length_payload_le m
      omega
    exact ⟨payload m, putMpint_eq hlen buf, canonical_payload m, normalizeScalar_payload m⟩
  · rw [putMpint, putMpint, payload_eq_of_beValue h]
  · rintro ⟨out, h⟩
    exact (normalizeScalar_ok h).1
  · exact fun h => ⟨_, normalizeScalar_eq h⟩
  · exact fun out h => (normalizeScalar_ok h).2
  · refine ⟨_, if_neg (by simp [hne, heven]), ?_⟩
    rintro r s rfl hlen
    have hhalf : (r ++ s).length / 2 = r.length := by
      rw [List.length_append]
      omega
    rw [hhalf, List.take_left, List.drop_left]
    exact decodesTo_iff r s

theorem mpint_of_high_byte :
    putMpint [] [0, 0x80, 1] = [0, 0, 0, 3, 0, 0x80, 1] ∧
      normalizeScalar [0, 0x80, 1] 3 = .ok [0, 0x80, 1] := by
  obtain ⟨p, hput, hcanonical, hback⟩ := mpint_canonical.1 [] [0, 0x80, 1] (by decide)
  have hp : str p = [0, 0, 0, 3, 0, 0x80, 1] := hput.symm.trans (by decide +kernel)
  obtain rfl : p = [0, 0x80, 1] := by
    have hdrop := congrArg (List.drop 4) hp
    simpa [str] using hdrop
  exact ⟨hput.trans (by decide +kernel), hback⟩

theorem dropWhile_replicate_one (n : Nat) :
    (List.replicate n (1 : UInt8)).dropWhile (· = 0) = List.replicate n 1 := by
  cases n with
  | zero => rfl
  | succ n => rw [List.replicate_succ, List.dropWhile_cons_of_neg (by decide)]

theorem payload_replicate_one (n : Nat) :
    payload (List.replicate n 1) = List.replicate n 1 := by
  rw [payload_eq, dropWhile_replicate_one, if_neg]
  cases n with
  | zero => decide
  | succ n => simp [List.replicate_succ, topBit]

theorem ones_too_long {n : Nat} (h : 2 ^ 32 ≤ n) :
    ∃ out, ecdsaFixedToSsh (List.replicate (n + n) 1) = .ok out ∧
      ¬ DecodesTo out (List.replicate n 1) (List.replicate n 1) := by
  have hne : ¬ (List.replicate (n + n) (1 : UInt8) = [] ∨
      (List.replicate (n + n) (1 : UInt8)).length % 2 ≠ 0) := by
    rw [List.length_replicate, List.replicate_eq_nil_iff]
    omega
  have hhalf : (n + n) / 2 = n := by omega
  refine ⟨_, if_neg hne, ?_⟩
  rw [List.length_replicate, hhalf, List.take_replicate, List.drop_replicate,
    Nat.min_eq_left (Nat.le_add_right n n), Nat.add_sub_cancel, decodesTo_iff,
    payload_replicate_one, List.length_replicate]
  omega

/-- The length of a number of 2³² bytes is written as 0. -/
theorem signature_too_long :
    ∃ out, ecdsaFixedToSsh (List.replicate (2 ^ 32 + 2 ^ 32) 1) = .ok out ∧
      ¬ DecodesTo out (List.replicate (2 ^ 32) 1) (List.replicate (2 ^ 32) 1) :=
  ones_too_long (Nat.le_refl _)

end Hush.Auth.Mpint
