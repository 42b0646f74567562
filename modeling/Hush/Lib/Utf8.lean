import Mathlib.Algebra.Ring.Nat
import Mathlib.Data.List.Basic
import Mathlib.Tactic.Common

/-! UTF-8 decoding as the Rust standard library does it, byte by byte. -/
namespace Hush.Lib.Utf8

/-- The continuation bytes that a leading byte asks for, and the range of the first one. -/
def lead (b : UInt8) : Option (Nat × UInt8 × UInt8) :=
  if 0xC2 ≤ b && b ≤ 0xDF then some (1, 0x80, 0xBF)
  else if b == 0xE0 then some (2, 0xA0, 0xBF)
  else if b == 0xED then some (2, 0x80, 0x9F)
  else if 0xE1 ≤ b && b ≤ 0xEF then some (2, 0x80, 0xBF)
  else if b == 0xF0 then some (3, 0x90, 0xBF)
  else if 0xF1 ≤ b && b ≤ 0xF3 then some (3, 0x80, 0xBF)
  else if b == 0xF4 then some (3, 0x80, 0x8F)
  else none

/-- The payload of a leading byte, by the number of continuation bytes. -/
def payload (b : UInt8) : Nat → Nat
  | 1 => b.toNat % 32
  | 2 => b.toNat % 16
  | _ => b.toNat % 8

/-- Reads continuation bytes into a code point, up to the first byte that is not one. -/
def tails : Nat → UInt8 → UInt8 → Nat → List UInt8 → Option Nat × List UInt8
  | 0, _, _, code, rest => (some code, rest)
  | n + 1, low, high, code, b :: rest =>
    if low ≤ b && b ≤ high then tails n 0x80 0xBF (code * 64 + b.toNat % 64) rest
    else (none, b :: rest)
  | _ + 1, _, _, _, [] => (none, [])

/-- The characters of a byte string; `none` is a maximal sequence that starts no character. -/
def chunksFuel : Nat → List UInt8 → List (Option Char)
  | 0, _ => []
  | _ + 1, [] => []
  | fuel + 1, b :: rest =>
    if b < 0x80 then some (Char.ofNat b.toNat) :: chunksFuel fuel rest
    else match lead b with
      | none => none :: chunksFuel fuel rest
      | some (n, low, high) =>
        let (code, rest) := tails n low high (payload b n) rest
        code.map Char.ofNat :: chunksFuel fuel rest

/-- `Utf8Chunks`. -/
def chunks (bs : List UInt8) : List (Option Char) := chunksFuel bs.length bs

/-- `str::from_utf8`. -/
def decode (bs : List UInt8) : Option (List Char) := (chunks bs).mapM id

/-- `String::from_utf8_lossy`. -/
def lossy (bs : List UInt8) : List Char := (chunks bs).map fun c => c.getD '�'

def encode (cs : List Char) : List UInt8 := cs.flatMap String.utf8EncodeChar

example : decode [0x68, 0xC3, 0xA9, 0xE2, 0x82, 0xAC, 0xF0, 0x9F, 0x98, 0x80] =
    some "hé€😀".toList := by decide

example : lossy [0xE2, 0x82, 0x41, 0xC0, 0x80] = "�A��".toList := by decide

/-! Decoding one sequence at a time. -/

theorem tails_suffix (n : Nat) (low high : UInt8) (code : Nat) (bs : List UInt8) :
    (tails n low high code bs).2 <:+ bs := by
  fun_induction tails n low high code bs with
  | case1 => exact List.suffix_rfl
  | case2 n low high code b rest h ih => exact ih.trans (List.suffix_cons b rest)
  | case3 => exact List.suffix_rfl
  | case4 => exact List.suffix_rfl

/-- More fuel than bytes changes nothing. -/
theorem chunksFuel_congr {m n : Nat} {bs : List UInt8} (hm : bs.length ≤ m) (hn : bs.length ≤ n) :
    chunksFuel m bs = chunksFuel n bs := by
  induction m generalizing n bs with
  | zero =>
    obtain rfl := List.length_eq_zero_iff.mp (Nat.le_zero.mp hm)
    cases n <;> rfl
  | succ m ih =>
    cases bs with
    | nil => cases n <;> rfl
    | cons b rest =>
      simp only [List.length_cons] at hm hn
      obtain ⟨n, rfl⟩ := Nat.exists_eq_add_of_le' (Nat.le_trans (Nat.le_add_left 1 _) hn)
      have hsame : ∀ more : List UInt8, more <:+ rest → chunksFuel m more = chunksFuel n more := by
        intro more hmore
        have := hmore.length_le
        exact ih (by omega) (by omega)
      simp only [chunksFuel]
      split
      · rw [hsame rest List.suffix_rfl]
      · cases lead b with
        | none => simp only [hsame rest List.suffix_rfl]
        | some l => simp only [hsame _ (tails_suffix ..)]

theorem chunks_cons_ascii {b : UInt8} (hb : b < 0x80) (rest : List UInt8) :
    chunks (b :: rest) = some (Char.ofNat b.toNat) :: chunks rest := by
  simp [chunks, chunksFuel, hb]

theorem chunks_cons_stray {b : UInt8} (hb : ¬ b < 0x80) (hlead : lead b = none)
    (rest : List UInt8) : chunks (b :: rest) = none :: chunks rest := by
  simp [chunks, chunksFuel, hb, hlead]

theorem chunks_cons_lead {b low high : UInt8} {n : Nat} (hb : ¬ b < 0x80)
    (hlead : lead b = some (n, low, high)) (rest : List UInt8) :
    chunks (b :: rest) = (tails n low high (payload b n) rest).1.map Char.ofNat ::
      chunks (tails n low high (payload b n) rest).2 := by
  simp only [chunks, List.length_cons, chunksFuel, hb, if_false, hlead]
  rw [chunksFuel_congr (tails_suffix ..).length_le (Nat.le_refl _)]

/-- An ASCII byte is no continuation byte, so a sequence ends before it. -/
theorem tails_append {c : UInt8} (hc : c < 0x80) (n : Nat) {low : UInt8} (hlow : 0x80 ≤ low)
    (high : UInt8) (code : Nat) (bs more : List UInt8) :
    tails n low high code (bs ++ c :: more) =
      ((tails n low high code bs).1, (tails n low high code bs).2 ++ c :: more) := by
  fun_induction tails n low high code bs with
  | case1 => simp [tails]
  | case2 n low high code b rest h ih => simpa [tails, h] using ih (by decide)
  | case3 n low high code b rest h => simp [tails, h]
  | case4 n low high code =>
    have h : ¬ (low ≤ c) := by
      intro hle
      exact absurd (UInt8.lt_of_lt_of_le hc (UInt8.le_trans hlow hle)) (UInt8.lt_irrefl _)
    simp [tails, h]

theorem lead_eq (b : UInt8) : lead b =
    if 0xC2 ≤ b.toNat ∧ b.toNat ≤ 0xDF then some (1, 0x80, 0xBF)
    else if b.toNat = 0xE0 then some (2, 0xA0, 0xBF)
    else if b.toNat = 0xED then some (2, 0x80, 0x9F)
    else if 0xE1 ≤ b.toNat ∧ b.toNat ≤ 0xEF then some (2, 0x80, 0xBF)
    else if b.toNat = 0xF0 then some (3, 0x90, 0xBF)
    else if 0xF1 ≤ b.toNat ∧ b.toNat ≤ 0xF3 then some (3, 0x80, 0xBF)
    else if b.toNat = 0xF4 then some (3, 0x80, 0x8F)
    else none := by
  simp only [lead, Bool.and_eq_true, decide_eq_true_eq, UInt8.le_iff_toNat_le, beq_iff_eq,
    ← UInt8.toNat_inj, UInt8.reduceToNat]

theorem lead_low {b low high : UInt8} {n : Nat} (h : lead b = some (n, low, high)) :
    0x80 ≤ low := by
  unfold lead at h
  split_ifs at h <;> (cases h; decide)

/-- Decoding starts afresh at an ASCII byte. -/
theorem chunks_append {c : UInt8} (hc : c < 0x80) (bs more : List UInt8) :
    chunks (bs ++ c :: more) = chunks bs ++ chunks (c :: more) := by
  induction hlen : bs.length using Nat.strongRecOn generalizing bs with
  | ind len ih =>
    cases bs with
    | nil => rfl
    | cons b rest =>
      rw [List.length_cons] at hlen
      by_cases hb : b < 0x80
      · rw [List.cons_append, chunks_cons_ascii hb, chunks_cons_ascii hb,
          ih _ (by omega) rest rfl, List.cons_append]
      cases hlead : lead b with
      | none =>
        rw [List.cons_append, chunks_cons_stray hb hlead, chunks_cons_stray hb hlead,
          ih _ (by omega) rest rfl, List.cons_append]
      | some l =>
        obtain ⟨n, low, high⟩ := l
        have hle := (tails_suffix n low high (payload b n) rest).length_le
        rw [List.cons_append, chunks_cons_lead hb hlead, chunks_cons_lead hb hlead,
          tails_append hc n (lead_low hlead), ih _ (by omega) _ rfl, List.cons_append]

/-! Which characters come out. -/

theorem tails_bounds {n : Nat} {code r : Nat} {bs : List UInt8}
    (h : (tails n 0x80 0xBF code bs).1 = some r) :
    code * 64 ^ n ≤ r ∧ r < (code + 1) * 64 ^ n := by
  induction n generalizing code bs with
  | zero =>
    simp only [tails, Option.some.injEq] at h
    omega
  | succ n ih =>
    cases bs with
    | nil => simp [tails] at h
    | cons b rest =>
      simp only [tails] at h
      split at h
      · have hb := ih h
        have hpos : 0 < 64 ^ n := Nat.pow_pos (by decide)
        rw [Nat.pow_succ]
        constructor
        · calc code * (64 ^ n * 64) = code * 64 * 64 ^ n := by ac_rfl
            _ ≤ (code * 64 + b.toNat % 64) * 64 ^ n :=
              Nat.mul_le_mul_right _ (Nat.le_add_right ..)
            _ ≤ r := hb.1
        · calc r < (code * 64 + b.toNat % 64 + 1) * 64 ^ n := hb.2
            _ ≤ (code + 1) * 64 * 64 ^ n := Nat.mul_le_mul_right _ (by omega)
            _ = (code + 1) * (64 ^ n * 64) := by ac_rfl
      · cases h

/-- The first continuation byte decides the range of the code point. -/
theorem tails_succ_bounds {n : Nat} {low high : UInt8} {code r : Nat} {bs : List UInt8}
    (h : (tails (n + 1) low high code bs).1 = some r) :
    ∃ b : UInt8, low.toNat ≤ b.toNat ∧ b.toNat ≤ high.toNat ∧
      (code * 64 + b.toNat % 64) * 64 ^ n ≤ r ∧ r < (code * 64 + b.toNat % 64 + 1) * 64 ^ n := by
  cases bs with
  | nil => simp [tails] at h
  | cons b rest =>
    simp only [tails] at h
    split at h
    · next hb =>
      simp only [Bool.and_eq_true, decide_eq_true_eq, UInt8.le_iff_toNat_le] at hb
      exact ⟨b, hb.1, hb.2, tails_bounds h⟩
    · cases h

/-- A sequence of several bytes is a character beyond ASCII. -/
theorem lead_valid {b low high : UInt8} {n r : Nat} {rest : List UInt8}
    (hlead : lead b = some (n, low, high))
    (h : (tails n low high (payload b n) rest).1 = some r) : r.isValidChar ∧ 0x80 ≤ r := by
  simp only [Nat.isValidChar]
  rw [lead_eq] at hlead
  split_ifs at hlead
  all_goals
    cases hlead
    obtain ⟨c, hlow, hhigh, hge, hlt⟩ := tails_succ_bounds h
    simp only [payload, UInt8.reduceToNat] at hlow hhigh hge hlt
    omega

theorem tails_cons {n : Nat} {low high b : UInt8} (hlow : low.toNat ≤ b.toNat)
    (hhigh : b.toNat ≤ high.toNat) (code : Nat) (rest : List UInt8) :
    tails (n + 1) low high code (b :: rest) =
      tails n 0x80 0xBF (code * 64 + b.toNat % 64) rest := by
  simp [tails, UInt8.le_iff_toNat_le, hlow, hhigh]

/-- A byte that is 128 and six bits continues any sequence. -/
theorem tails_continue {n k : Nat} {b : UInt8} (hb : b.toNat = k % 64 + 128) (code : Nat)
    (rest : List UInt8) :
    tails (n + 1) 0x80 0xBF code (b :: rest) = tails n 0x80 0xBF (code * 64 + k % 64) rest := by
  have hlow : (0x80 : UInt8).toNat ≤ b.toNat := by
    rw [hb]
    exact Nat.le_add_left 128 _
  have hhigh : b.toNat ≤ (0xBF : UInt8).toNat := by
    rw [hb]
    exact Nat.add_le_add_right (Nat.le_of_lt_succ (Nat.mod_lt k (by decide))) 128
  rw [tails_cons hlow hhigh, show b.toNat % 64 = k % 64 by omega]

theorem toNat_ofNat_of_lt {n : Nat} (h : n < 256) : (UInt8.ofNat n).toNat = n := by
  simp [Nat.mod_eq_of_lt h]

theorem val_ofNat {n : Nat} (h : n.isValidChar) : (Char.ofNat n).val.toNat = n := by
  unfold Char.ofNat
  rw [dif_pos h]
  rfl

theorem ascii_iff {b : UInt8} : b < 0x80 ↔ b.toNat < 128 := UInt8.lt_iff_toNat_lt

theorem chunks_two {b x : UInt8} {v : Nat} (hb : b.toNat = v / 64 % 32 + 192)
    (hx : x.toNat = v % 64 + 128) (hge : 0x80 ≤ v) (hle : v ≤ 0x7FF) (rest : List UInt8) :
    chunks (b :: x :: rest) = some (Char.ofNat v) :: chunks rest := by
  have hlead : lead b = some (1, 0x80, 0xBF) := by
    rw [lead_eq, if_pos (by omega)]
  rw [chunks_cons_lead (by rw [ascii_iff]; omega) hlead, tails_continue hx]
  simp only [tails, payload, hb, Option.map_some]
  rw [show (v / 64 % 32 + 192) % 32 * 64 + v % 64 = v by omega]

theorem chunks_three {b x y : UInt8} {v : Nat} (hb : b.toNat = v / 4096 % 16 + 224)
    (hx : x.toNat = v / 64 % 64 + 128) (hy : y.toNat = v % 64 + 128) (hge : 0x7FF < v)
    (hle : v ≤ 0xFFFF) (hvalid : v.isValidChar) (rest : List UInt8) :
    chunks (b :: x :: y :: rest) = some (Char.ofNat v) :: chunks rest := by
  obtain ⟨low, high, hlead, hlow, hhigh⟩ : ∃ low high, lead b = some (2, low, high) ∧
      low.toNat ≤ x.toNat ∧ x.toNat ≤ high.toNat := by
    simp only [Nat.isValidChar] at hvalid
    rw [lead_eq, hb, hx]
    split_ifs <;> first | omega | exact ⟨_, _, rfl, by simp only [UInt8.reduceToNat]; omega,
      by simp only [UInt8.reduceToNat]; omega⟩
  rw [chunks_cons_lead (by rw [ascii_iff]; omega) hlead, tails_cons hlow hhigh,
    tails_continue hy]
  simp only [tails, payload, hb, hx, Option.map_some]
  rw [show ((v / 4096 % 16 + 224) % 16 * 64 + (v / 64 % 64 + 128) % 64) * 64 + v % 64 = v by omega]

theorem chunks_four {b x y z : UInt8} {v : Nat} (hb : b.toNat = v / 262144 % 8 + 240)
    (hx : x.toNat = v / 4096 % 64 + 128) (hy : y.toNat = v / 64 % 64 + 128)
    (hz : z.toNat = v % 64 + 128) (hge : 0xFFFF < v) (hvalid : v.isValidChar)
    (rest : List UInt8) :
    chunks (b :: x :: y :: z :: rest) = some (Char.ofNat v) :: chunks rest := by
  simp only [Nat.isValidChar] at hvalid
  obtain ⟨low, high, hlead, hlow, hhigh⟩ : ∃ low high, lead b = some (3, low, high) ∧
      low.toNat ≤ x.toNat ∧ x.toNat ≤ high.toNat := by
    rw [lead_eq, hb, hx]
    split_ifs <;> first | omega | exact ⟨_, _, rfl, by simp only [UInt8.reduceToNat]; omega,
      by simp only [UInt8.reduceToNat]; omega⟩
  rw [chunks_cons_lead (by rw [ascii_iff]; omega) hlead, tails_cons hlow hhigh,
    tails_continue hy, tails_continue hz]
  simp only [tails, payload, hb, hx, Option.map_some]
  rw [show (((v / 262144 % 8 + 240) % 8 * 64 + (v / 4096 % 64 + 128) % 64) * 64 +
    v / 64 % 64) * 64 + v % 64 = v by omega]

theorem chunks_encodeChar (c : Char) (rest : List UInt8) :
    chunks (String.utf8EncodeChar c ++ rest) = some c :: chunks rest := by
  have hvalid : c.val.toNat.isValidChar := c.valid
  have hofNat : Char.ofNat c.val.toNat = c := Char.ofNat_toNat c
  unfold String.utf8EncodeChar
  generalize c.val.toNat = v at hvalid hofNat ⊢
  rw [← hofNat]
  dsimp only
  split_ifs with h₁ h₂ h₃
  · have hb : (UInt8.ofNat v).toNat = v := toNat_ofNat_of_lt (by omega)
    rw [List.singleton_append, chunks_cons_ascii (by rw [ascii_iff]; omega), hb]
  · exact chunks_two (toNat_ofNat_of_lt (by omega)) (toNat_ofNat_of_lt (by omega)) (by omega) h₂ _
  · exact chunks_three (toNat_ofNat_of_lt (by omega)) (toNat_ofNat_of_lt (by omega))
      (toNat_ofNat_of_lt (by omega)) (by omega) h₃ hvalid _
  · exact chunks_four (toNat_ofNat_of_lt (by omega)) (toNat_ofNat_of_lt (by omega))
      (toNat_ofNat_of_lt (by omega)) (toNat_ofNat_of_lt (by omega)) (by omega) hvalid _

theorem chunks_encode (cs : List Char) : chunks (encode cs) = cs.map some := by
  induction cs with
  | nil => rfl
  | cons c cs ih =>
    rw [encode, List.flatMap_cons, chunks_encodeChar]
    exact congrArg (some c :: ·) ih

theorem decode_encode (cs : List Char) : decode (encode cs) = some cs := by
  have hpure : cs.mapM (fun c => some c) = some (cs.map id) := List.mapM_pure
  rw [decode, chunks_encode, List.mapM_map]
  simpa using hpure

/-- Nothing is lost where the bytes are UTF-8. -/
theorem lossy_encode (cs : List Char) : lossy (encode cs) = cs := by
  simp [lossy, chunks_encode, Function.comp_def]

/-- A character beyond ASCII has no ASCII byte. -/
theorem ge_of_mem_encodeChar {c : Char} (hc : 0x80 ≤ c.val.toNat) {b : UInt8}
    (hb : b ∈ String.utf8EncodeChar c) : ¬ b < 0x80 := by
  rw [ascii_iff]
  unfold String.utf8EncodeChar at hb
  generalize c.val.toNat = v at hc hb
  dsimp only at hb
  split_ifs at hb
  · omega
  all_goals
    simp only [List.mem_cons, List.not_mem_nil, or_false] at hb
    rcases hb with rfl | rfl | rfl | rfl <;> rw [toNat_ofNat_of_lt (by omega)] <;> omega

theorem encodeChar_ascii {c : Char} (hc : c.val.toNat < 0x80) :
    String.utf8EncodeChar c = [UInt8.ofNat c.val.toNat] := by
  simp only [String.utf8EncodeChar]
  rw [if_pos (by omega)]

/-- An ASCII byte stands for its character only. -/
theorem mem_encode_ascii {c : Char} (hc : c.val.toNat < 0x80) {cs : List Char} :
    UInt8.ofNat c.val.toNat ∈ encode cs ↔ c ∈ cs := by
  rw [encode, List.mem_flatMap]
  constructor
  · rintro ⟨d, hd, hmem⟩
    by_cases hascii : d.val.toNat < 0x80
    · rw [encodeChar_ascii hascii, List.mem_singleton] at hmem
      have hval := congrArg UInt8.toNat hmem
      rw [toNat_ofNat_of_lt (by omega), toNat_ofNat_of_lt (by omega)] at hval
      rwa [Char.ext (UInt32.toNat_inj.mp hval)]
    · exfalso
      apply ge_of_mem_encodeChar (by omega) hmem
      rw [ascii_iff, toNat_ofNat_of_lt (by omega)]
      exact hc
  · intro hmem
    exact ⟨c, hmem, by simp [encodeChar_ascii hc]⟩

/-! `from_utf8_lossy`, as bytes again. -/

theorem encode_append (cs ds : List Char) : encode (cs ++ ds) = encode cs ++ encode ds := by
  simp [encode]

theorem lossy_append {c : UInt8} (hc : c < 0x80) (bs more : List UInt8) :
    lossy (bs ++ c :: more) = lossy bs ++ lossy (c :: more) := by
  rw [lossy, chunks_append hc, List.map_append]
  rfl

theorem encode_lossy_cons_ascii {b : UInt8} (hb : b < 0x80) (rest : List UInt8) :
    encode (lossy (b :: rest)) = b :: encode (lossy rest) := by
  have hchar : String.utf8EncodeChar (Char.ofNat b.toNat) = [b] := by
    rw [ascii_iff] at hb
    have hval : (Char.ofNat b.toNat).val.toNat = b.toNat :=
      val_ofNat (Or.inl (by omega))
    rw [encodeChar_ascii (by omega), hval, UInt8.ofNat_toNat]
  rw [lossy, chunks_cons_ascii hb, List.map_cons, encode, List.flatMap_cons]
  exact congrArg (· ++ encode (lossy rest)) hchar

/-- A byte beyond ASCII starts a character beyond ASCII, if only the replacement character. -/
theorem encode_lossy_cons_high {b : UInt8} (hb : ¬ b < 0x80) (rest : List UInt8) :
    ∃ (c : Char) (rest' : List UInt8), 0x80 ≤ c.val.toNat ∧ rest' <:+ rest ∧
      encode (lossy (b :: rest)) = String.utf8EncodeChar c ++ encode (lossy rest') := by
  cases hlead : lead b with
  | none =>
    refine ⟨'�', rest, by decide, List.suffix_rfl, ?_⟩
    rw [lossy, chunks_cons_stray hb hlead]
    rfl
  | some l =>
    obtain ⟨n, low, high⟩ := l
    have hchunks := chunks_cons_lead hb hlead rest
    refine ⟨((tails n low high (payload b n) rest).1.map Char.ofNat).getD '�', _, ?_,
      tails_suffix n low high (payload b n) rest, ?_⟩
    · cases hr : (tails n low high (payload b n) rest).1 with
      | none => decide
      | some r =>
        obtain ⟨hvalid, hge⟩ := lead_valid hlead hr
        have hval : (Char.ofNat r).val.toNat = r := val_ofNat hvalid
        simpa [hval] using hge
    · rw [lossy, hchunks]
      rfl

end Hush.Lib.Utf8
