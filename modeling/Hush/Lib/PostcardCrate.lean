import Hush.Lib.Postcard

/-! The encoding itself: numbers in groups of seven bits, the lowest first. -/
namespace Hush.Lib.Postcard
open Wire

/-- A number in at most `k` groups; all but the last are marked. -/
def groups : Nat → Nat → List UInt8
  | 0, _ => []
  | k + 1, n => if n < 128 then [.ofNat n] else .ofNat (n % 128 + 128) :: groups k (n / 128)

def pop : Reader Error UInt8
  | [] => .error .unexpectedEnd
  | b :: rest => .ok (b, rest)

/-- A number of at most so many groups, the last of which is not above `last`. -/
def takeGroups (last : Nat) : Nat → Reader Error Nat
  | 0 => throw .badVarint
  | k + 1 => do
    let b ← pop
    if b.toNat < 128 then
      if k = 0 ∧ last < b.toNat then throw .badVarint else return b.toNat
    else return b.toNat % 128 + 128 * (← takeGroups last k)

def flag : Bool → List UInt8
  | false => [0]
  | true => [1]

def takeFlag : Reader Error Bool := do
  match ← pop with
  | 0 => return false
  | 1 => return true
  | _ => throw .badBool

/-- The zigzag encoding of a signed number. -/
def zigzag (n : Int32) : Nat :=
  if 0 ≤ n.toInt then (2 * n.toInt).toNat else (-2 * n.toInt - 1).toNat

def unzigzag (m : Nat) : Int32 :=
  if m % 2 = 0 then .ofInt (m / 2 : Nat) else .ofInt (-(m / 2 : Nat) - 1)

def text (s : String) : List UInt8 := groups 10 (Path.ofString s).length ++ Path.ofString s

def takeText : Reader Error String := do
  match Utf8.decode (← take .unexpectedEnd (← takeGroups 1 10)) with
  | some cs => return String.ofList cs
  | none => throw .badUtf8

theorem takes_pop (b : UInt8) : Takes pop [b] b := fun _ => rfl

theorem groups_succ (k n : Nat) :
    groups (k + 1) n =
      if n < 128 then [.ofNat n] else .ofNat (n % 128 + 128) :: groups k (n / 128) := rfl

theorem takes_groups {last : Nat} (hlast : last < 128) (k : Nat) {n : Nat}
    (h : n < 128 ^ k * (last + 1)) : Takes (takeGroups last (k + 1)) (groups (k + 1) n) n := by
  induction k generalizing n with
  | zero =>
    have hn : n < 128 := by omega
    have hb : (UInt8.ofNat n).toNat = n := Utf8.toNat_ofNat_of_lt (by omega)
    rw [groups_succ, if_pos hn]
    refine (takes_pop _).bind_pure ?_
    simp only [hb, if_pos hn]
    exact if_neg (by omega)
  | succ k ih =>
    by_cases hn : n < 128
    · have hb : (UInt8.ofNat n).toNat = n := Utf8.toNat_ofNat_of_lt (by omega)
      rw [groups_succ, if_pos hn]
      refine (takes_pop _).bind_pure ?_
      simp only [hb, if_pos hn]
      exact if_neg (by omega)
    · -- The first group is marked, and the others make up the rest of the number.
      have hb : (UInt8.ofNat (n % 128 + 128)).toNat = n % 128 + 128 :=
        Utf8.toNat_ofNat_of_lt (by omega)
      have hdiv : n / 128 < 128 ^ k * (last + 1) := by
        apply Nat.div_lt_of_lt_mul
        rwa [← Nat.mul_assoc, ← Nat.pow_succ']
      rw [groups_succ, if_neg hn]
      refine (takes_pop _).bind ?_
      rw [if_neg (by omega), hb]
      have hvalue : n = (n % 128 + 128) % 128 + 128 * (n / 128) := by omega
      conv => rhs; rw [hvalue]
      exact (ih hdiv).bind_pure rfl

/-- A number that needs no more groups is written in them. -/
theorem groups_eq {k m n : Nat} (h : n < 128 ^ k) (hk : 0 < k) (hm : k ≤ m) :
    groups m n = groups k n := by
  induction k generalizing m n with
  | zero => exact absurd hk (Nat.lt_irrefl 0)
  | succ k ih =>
    obtain ⟨m, rfl⟩ : ∃ m', m = m' + 1 := ⟨m - 1, by omega⟩
    rw [groups_succ, groups_succ]
    split
    · rfl
    · next hn =>
      rw [Nat.pow_succ] at h
      have hk : 0 < k := by
        apply Nat.pos_of_ne_zero
        rintro rfl
        omega
      rw [ih (Nat.div_lt_of_lt_mul (by omega)) hk (by omega)]

theorem takes_short {last k n : Nat} (hlast : last < 128) (hk : k < 10)
    (h : n < 128 ^ k * (last + 1)) : Takes (takeGroups last (k + 1)) (groups 10 n) n := by
  have hn : n < 128 ^ (k + 1) := by
    rw [Nat.pow_succ]
    exact Nat.lt_of_lt_of_le h (Nat.mul_le_mul_left _ hlast)
  rw [groups_eq hn (Nat.succ_pos k) hk]
  exact takes_groups hlast k h

theorem takes_varint16 {n : Nat} (h : n < 2 ^ 16) : Takes (takeGroups 3 3) (groups 10 n) n :=
  takes_short (by decide) (by decide) (by omega)

theorem takes_varint32 {n : Nat} (h : n < 2 ^ 32) : Takes (takeGroups 15 5) (groups 10 n) n :=
  takes_short (by decide) (by decide) (by omega)

theorem takes_varint64 {n : Nat} (h : n < 2 ^ 64) : Takes (takeGroups 1 10) (groups 10 n) n :=
  takes_short (by decide) (by decide) (by omega)

theorem takes_flag (b : Bool) : Takes takeFlag (flag b) b := by
  cases b with
  | false => exact (takes_pop 0).bind_pure rfl
  | true => exact (takes_pop 1).bind_pure rfl

theorem zigzag_lt (n : Int32) : zigzag n < 2 ^ 32 := by
  have hlow := n.le_toInt
  have hhigh := n.toInt_lt
  unfold zigzag
  split <;> omega

theorem unzigzag_zigzag (n : Int32) : unzigzag (zigzag n) = n := by
  have hint : ∀ m : Int, m = n.toInt → Int32.ofInt m = n := by
    rintro m rfl
    exact Int32.ofInt_toInt n
  unfold unzigzag zigzag
  split
  · next hn =>
    rw [if_pos (by omega)]
    exact hint _ (by omega)
  · next hn =>
    rw [if_neg (by omega)]
    exact hint _ (by omega)

theorem takes_zigzag (n : Int32) :
    Takes (do return unzigzag (← takeGroups 15 5)) (groups 10 (zigzag n)) n := by
  refine (takes_varint32 (zigzag_lt n)).bind_pure ?_
  rw [unzigzag_zigzag]

theorem takes_text {s : String} (h : (Path.ofString s).length < 2 ^ 64) :
    Takes takeText (text s) s := by
  have hbytes : Takes (take .unexpectedEnd (Path.ofString s).length) (Path.ofString s)
      (Path.ofString s) := (reads_take rfl).ok
  refine (takes_varint64 h).bind (hbytes.bind_pure ?_)
  rw [Path.ofString, Utf8.decode_encode]
  simp

theorem length_groups_le (k n : Nat) : (groups k n).length ≤ k := by
  induction k generalizing n with
  | zero => exact Nat.le_refl 0
  | succ k ih =>
    rw [groups_succ]
    split
    · exact Nat.succ_pos k
    · exact Nat.succ_le_succ (ih _)

theorem length_groups_pos (k n : Nat) : 0 < (groups (k + 1) n).length := by
  rw [groups_succ]
  split <;> simp

theorem length_groups_one (k : Nat) {n : Nat} (h : n < 128) : (groups (k + 1) n).length = 1 := by
  rw [groups_succ, if_pos h, List.length_singleton]

instance crate : Postcard where
  varint := groups 10
  byte b := [b]
  bool := flag
  i32 n := groups 10 (zigzag n)
  str := text
  takeU16 := takeGroups 3 3
  takeU32 := takeGroups 15 5
  takeU64 := takeGroups 1 10
  takeByte := pop
  takeBool := takeFlag
  takeI32 := do return unzigzag (← takeGroups 15 5)
  takeStr := takeText
  takes_u16 := takes_varint16
  takes_u32 := takes_varint32
  takes_u64 := takes_varint64
  takes_byte := takes_pop
  takes_bool := takes_flag
  takes_i32 := takes_zigzag
  takes_str := takes_text
  length_varint_pos := length_groups_pos 9
  length_varint_le := length_groups_le 10
  length_varint_one := length_groups_one 9
  length_byte_pos _ := Nat.one_pos
  length_str _ := List.length_append

end Hush.Lib.Postcard
