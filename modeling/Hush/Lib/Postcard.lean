import Hush.Lib.UnixPath
import Hush.Lib.Wire

/-! Messages as the postcard crate writes and reads them: their numbers, strings and lists stand one
behind the other. -/
namespace Hush.Lib
open Wire

namespace Postcard

inductive Error
  | unexpectedEnd
  | badVarint
  | badBool
  | badUtf8
  | badVariant
  deriving DecidableEq, Repr

/-- The reader takes these bytes for the value, whatever is behind them. -/
def Takes {α : Type} (r : Reader Error α) (used : List UInt8) (a : α) : Prop :=
  ∀ rest, r (used ++ rest) = .ok (a, rest)

end Postcard

open Postcard (Error Takes)

/-- What the crate has for the parts of a message. Lengths and the numbers of variants are varints,
like all the numbers but bytes. What is written is read back; a varint has at most ten bytes and a
small one a single byte, and a string is its length and its bytes. -/
class Postcard where
  varint : Nat → List UInt8
  byte : UInt8 → List UInt8
  bool : Bool → List UInt8
  i32 : Int32 → List UInt8
  str : String → List UInt8
  takeU16 : Reader Error Nat
  takeU32 : Reader Error Nat
  takeU64 : Reader Error Nat
  takeByte : Reader Error UInt8
  takeBool : Reader Error Bool
  takeI32 : Reader Error Int32
  takeStr : Reader Error String
  takes_u16 : ∀ {n : Nat}, n < 2 ^ 16 → Takes takeU16 (varint n) n
  takes_u32 : ∀ {n : Nat}, n < 2 ^ 32 → Takes takeU32 (varint n) n
  takes_u64 : ∀ {n : Nat}, n < 2 ^ 64 → Takes takeU64 (varint n) n
  takes_byte : ∀ b : UInt8, Takes takeByte (byte b) b
  takes_bool : ∀ b : Bool, Takes takeBool (bool b) b
  takes_i32 : ∀ n : Int32, Takes takeI32 (i32 n) n
  takes_str : ∀ {s : String}, (Path.ofString s).length < 2 ^ 64 → Takes takeStr (str s) s
  length_varint_pos : ∀ n : Nat, 0 < (varint n).length
  length_varint_le : ∀ n : Nat, (varint n).length ≤ 10
  length_varint_one : ∀ {n : Nat}, n < 128 → (varint n).length = 1
  length_byte_pos : ∀ b : UInt8, 0 < (byte b).length
  length_str : ∀ s : String, (str s).length =
    (varint (Path.ofString s).length).length + (Path.ofString s).length

namespace Postcard

section Takes

variable {α β : Type} {r : Reader Error α} {f : α → Reader Error β} {g : α → β}
  {used used' : List UInt8} {a : α} {b : β}

theorem takes_pure (a : α) : Takes (pure a) [] a := fun _ => rfl

theorem Takes.bind (h : Takes r used a) (h' : Takes (f a) used' b) :
    Takes (r >>= f) (used ++ used') b := by
  intro rest
  rw [List.append_assoc]
  exact bind_eq_ok_iff.mpr ⟨a, _, h _, h' rest⟩

/-- The value decides what is returned. -/
theorem Takes.bind_pure (h : Takes r used a) (hf : f a = pure b) : Takes (r >>= f) used b := by
  have hpure : Takes (f a) [] b := by
    rw [hf]
    exact takes_pure b
  have hbind := h.bind hpure
  rwa [List.append_nil] at hbind

end Takes

variable [Postcard]

def seq {α : Type*} (encode : α → List UInt8) (items : List α) : List UInt8 :=
  varint items.length ++ items.flatMap encode

def takeTimes {α : Type} (r : Reader Error α) : Nat → Reader Error (List α)
  | 0 => return []
  | k + 1 => do return (← r) :: (← takeTimes r k)

def takeSeq {α : Type} (r : Reader Error α) : Reader Error (List α) := do
  takeTimes r (← takeU64)

theorem length_seq {α : Type*} (encode : α → List UInt8) (items : List α) :
    (seq encode items).length =
      (varint items.length).length + (items.map fun a => (encode a).length).sum := by
  simp [seq, List.length_flatMap]

section Seq

variable {α : Type} {encode : α → List UInt8} {r : Reader Error α} {items : List α} {a : α}

omit [Postcard] in
theorem takes_times (h : ∀ a ∈ items, Takes r (encode a) a) :
    Takes (takeTimes r items.length) (items.flatMap encode) items := by
  induction items with
  | nil => exact takes_pure []
  | cons a items ih =>
    obtain ⟨ha, hitems⟩ := List.forall_mem_cons.mp h
    exact ha.bind ((ih hitems).bind_pure rfl)

theorem takes_seq (hlen : items.length < 2 ^ 64) (h : ∀ a ∈ items, Takes r (encode a) a) :
    Takes (takeSeq r) (seq encode items) items :=
  (takes_u64 hlen).bind (takes_times h)

/-! What is in an encoding is no longer than it. -/

theorem length_le_str (s : String) : (Path.ofString s).length ≤ (str s).length := by
  rw [length_str]
  omega

theorem length_str_pos (s : String) : 0 < (str s).length := by
  have hpos := length_varint_pos (Path.ofString s).length
  rw [length_str]
  omega

omit [Postcard] in
theorem length_le_flatMap (h : ∀ a, 0 < (encode a).length) (items : List α) :
    items.length ≤ (items.flatMap encode).length := by
  induction items with
  | nil => exact Nat.zero_le _
  | cons a items ih =>
    have ha := h a
    rw [List.flatMap_cons, List.length_append, List.length_cons]
    omega

theorem length_le_seq (h : ∀ a, 0 < (encode a).length) (items : List α) :
    items.length ≤ (seq encode items).length := by
  have hle := length_le_flatMap h items
  rw [seq, List.length_append]
  omega

theorem length_item_le_seq (h : a ∈ items) : (encode a).length ≤ (seq encode items).length := by
  obtain ⟨front, back, rfl⟩ := List.append_of_mem h
  rw [seq, List.flatMap_append, List.flatMap_cons]
  simp only [List.length_append]
  omega

/-- A sequence of items that take at least a byte each. -/
theorem takes_items (hpos : ∀ a, 0 < (encode a).length)
    (hitem : ∀ a, (encode a).length < 2 ^ 64 → Takes r (encode a) a)
    (h : (seq encode items).length < 2 ^ 64) : Takes (takeSeq r) (seq encode items) items := by
  refine takes_seq (Nat.lt_of_le_of_lt (length_le_seq hpos items) h) ?_
  intro a ha
  exact hitem a (Nat.lt_of_le_of_lt (length_item_le_seq ha) h)

end Seq

theorem takes_strs {items : List String} (h : (seq str items).length < 2 ^ 64) :
    Takes (takeSeq takeStr) (seq str items) items :=
  takes_items length_str_pos
    (fun s hs => takes_str (Nat.lt_of_le_of_lt (length_le_str s) hs)) h

/-- The number of a variant, and what the variant holds. -/
theorem takes_variant {α : Type} {f : Nat → Reader Error α} {n : Nat} {used : List UInt8} {a : α}
    (hn : n < 2 ^ 32) (h : Takes (f n) used a) : Takes (takeU32 >>= f) (varint n ++ used) a :=
  (takes_u32 hn).bind h

/-- How values of a type are written, and the reader that takes them back. -/
structure Format (α : Type) where
  encode : α → List UInt8
  read : Reader Error α
  takes : ∀ a, (encode a).length < 2 ^ 64 → Takes read (encode a) a

end Postcard

end Hush.Lib
