import Mathlib.Data.List.Basic
import Mathlib.Tactic.Common

/-! Base64 with the standard alphabet and canonical padding. -/
namespace Hush.Lib.Base64

/-- An engine of the base64 crate. -/
structure Engine where
  encode : List UInt8 → List Char
  decode : List Char → Option (List UInt8)

def alphabet : List Char :=
  "ABCDEFGHIJKLMNOPQRSTUVWXYZabcdefghijklmnopqrstuvwxyz0123456789+/".toList

/-- The engine reads back what it writes, in the letters of the alphabet and the padding. -/
structure Engine.Lawful (engine : Engine) : Prop where
  decode_encode : ∀ bs, engine.decode (engine.encode bs) = some bs
  mem_encode : ∀ bs, ∀ c ∈ engine.encode bs, c ∈ '=' :: alphabet

def digit (n : Nat) : Char := alphabet.getD n '='

def sextet (c : Char) : Option Nat := alphabet.idxOf? c

def encode : List UInt8 → List Char
  | [] => []
  | [x] => [digit (x.toNat / 4), digit (x.toNat % 4 * 16), '=', '=']
  | [x, y] =>
    [digit (x.toNat / 4), digit (x.toNat % 4 * 16 + y.toNat / 16), digit (y.toNat % 16 * 4), '=']
  | x :: y :: z :: rest =>
    digit (x.toNat / 4) :: digit (x.toNat % 4 * 16 + y.toNat / 16) ::
      digit (y.toNat % 16 * 4 + z.toNat / 64) :: digit (z.toNat % 64) :: encode rest

/-- Bits that are left over in the last digit have to be zero. -/
def decode : List Char → Option (List UInt8)
  | [] => some []
  | a :: b :: c :: d :: rest =>
    if rest = [] ∧ c = '=' ∧ d = '=' then do
      let a ← sextet a
      let b ← sextet b
      if b % 16 = 0 then return [.ofNat (a * 4 + b / 16)] else none
    else if rest = [] ∧ d = '=' then do
      let a ← sextet a
      let b ← sextet b
      let c ← sextet c
      if c % 4 = 0 then return [.ofNat (a * 4 + b / 16), .ofNat (b % 16 * 16 + c / 4)] else none
    else do
      let a ← sextet a
      let b ← sextet b
      let c ← sextet c
      let d ← sextet d
      return .ofNat (a * 4 + b / 16) :: .ofNat (b % 16 * 16 + c / 4) :: .ofNat (c % 4 * 64 + d) ::
        (← decode rest)
  | _ => none

theorem sextet_digit {n : Nat} (h : n < 64) : sextet (digit n) = some n := by
  have hall : ∀ n : Fin 64, sextet (digit n) = some n.val := by decide +kernel
  exact hall ⟨n, h⟩

theorem digit_ne_pad {n : Nat} (h : n < 64) : digit n ≠ '=' := by
  have hall : ∀ n : Fin 64, digit n ≠ '=' := by decide +kernel
  exact hall ⟨n, h⟩

theorem ofNat_toNat_eq {x : UInt8} {n : Nat} (h : n = x.toNat) : UInt8.ofNat n = x := by
  rw [h, UInt8.ofNat_toNat]

theorem decode_encode (bs : List UInt8) : decode (encode bs) = some bs := by
  fun_induction encode bs with
  | case1 => rfl
  | case2 x =>
    have hx := x.toNat_lt
    have hbits : x.toNat % 4 * 16 % 16 = 0 := by omega
    have h1 : UInt8.ofNat (x.toNat / 4 * 4 + x.toNat % 4 * 16 / 16) = x := ofNat_toNat_eq (by omega)
    simp only [decode, sextet_digit (show x.toNat / 4 < 64 by omega),
      sextet_digit (show x.toNat % 4 * 16 < 64 by omega), and_self, if_true]
    simp only [Option.bind_eq_bind, Option.bind_some, hbits, h1, if_true]
    rfl
  | case3 x y =>
    have hx := x.toNat_lt
    have hy := y.toNat_lt
    have hpad := digit_ne_pad (show y.toNat % 16 * 4 < 64 by omega)
    have hbits : y.toNat % 16 * 4 % 4 = 0 := by omega
    have h1 : UInt8.ofNat (x.toNat / 4 * 4 + (x.toNat % 4 * 16 + y.toNat / 16) / 16) = x :=
      ofNat_toNat_eq (by omega)
    have h2 : UInt8.ofNat ((x.toNat % 4 * 16 + y.toNat / 16) % 16 * 16 + y.toNat % 16 * 4 / 4) =
        y := ofNat_toNat_eq (by omega)
    simp only [decode, sextet_digit (show x.toNat / 4 < 64 by omega), hpad, false_and, and_false,
      sextet_digit (show x.toNat % 4 * 16 + y.toNat / 16 < 64 by omega), if_false, and_self,
      sextet_digit (show y.toNat % 16 * 4 < 64 by omega), if_true]
    simp only [Option.bind_eq_bind, Option.bind_some, hbits, h1, h2, if_true]
    rfl
  | case4 x y z rest ih =>
    have hx := x.toNat_lt
    have hy := y.toNat_lt
    have hz := z.toNat_lt
    have hpad := digit_ne_pad (show z.toNat % 64 < 64 by omega)
    have h1 : UInt8.ofNat (x.toNat / 4 * 4 + (x.toNat % 4 * 16 + y.toNat / 16) / 16) = x :=
      ofNat_toNat_eq (by omega)
    have h2 : UInt8.ofNat ((x.toNat % 4 * 16 + y.toNat / 16) % 16 * 16 +
        (y.toNat % 16 * 4 + z.toNat / 64) / 4) = y := ofNat_toNat_eq (by omega)
    have h3 : UInt8.ofNat ((y.toNat % 16 * 4 + z.toNat / 64) % 4 * 64 + z.toNat % 64) = z :=
      ofNat_toNat_eq (by omega)
    simp only [decode, sextet_digit (show x.toNat / 4 < 64 by omega), hpad, and_false, if_false,
      sextet_digit (show x.toNat % 4 * 16 + y.toNat / 16 < 64 by omega),
      sextet_digit (show y.toNat % 16 * 4 + z.toNat / 64 < 64 by omega),
      sextet_digit (show z.toNat % 64 < 64 by omega), ih]
    simp only [Option.bind_eq_bind, Option.bind_some, h1, h2, h3]
    rfl

theorem digit_mem (n : Nat) : digit n ∈ '=' :: alphabet := by
  unfold digit
  rw [List.getD_eq_getElem?_getD]
  cases h : alphabet[n]? with
  | none => exact List.mem_cons_self
  | some c => exact List.mem_cons_of_mem _ (List.mem_of_getElem? h)

/-- The characters of an encoding. -/
theorem mem_encode {bs : List UInt8} {c : Char} (h : c ∈ encode bs) : c ∈ '=' :: alphabet := by
  have hpad : '=' ∈ '=' :: alphabet := List.mem_cons_self
  fun_induction encode bs with
  | case1 => cases h
  | case2 x =>
    simp only [List.mem_cons, List.not_mem_nil, or_false] at h
    rcases h with rfl | rfl | rfl | rfl
    exacts [digit_mem _, digit_mem _, hpad, hpad]
  | case3 x y =>
    simp only [List.mem_cons, List.not_mem_nil, or_false] at h
    rcases h with rfl | rfl | rfl | rfl
    exacts [digit_mem _, digit_mem _, digit_mem _, hpad]
  | case4 x y z rest ih =>
    simp only [List.mem_cons] at h
    rcases h with rfl | rfl | rfl | rfl | h
    exacts [digit_mem _, digit_mem _, digit_mem _, digit_mem _, ih h]

/-- `general_purpose::STANDARD`. -/
def standard : Engine := ⟨encode, decode⟩

theorem standard_lawful : standard.Lawful where
  decode_encode := decode_encode
  mem_encode _ _ := mem_encode

example : encode [0x66, 0x6f, 0x6f, 0x62] = "Zm9vYg==".toList := by decide +kernel

end Hush.Lib.Base64
