import Mathlib.Algebra.Order.Ring.Nat
import Mathlib.Data.List.Induction
import Mathlib.Data.List.TakeWhile
import Mathlib.Tactic.Common
import Mathlib.Tactic.Ring

/-! Big-endian numbers and length-prefixed strings, with a reader that takes them from the front
of a buffer and stops where the buffer ends. -/
namespace Hush.Lib.Wire

def beValue (bs : List UInt8) : Nat := bs.foldl (fun n b => n * 256 + b.toNat) 0

/-- The number in so many bytes. -/
def beBytes : Nat → Nat → List UInt8
  | 0, _ => []
  | width + 1, n => beBytes width (n / 256) ++ [.ofNat (n % 256)]

@[simp] theorem length_beBytes (width n : Nat) : (beBytes width n).length = width := by
  induction width generalizing n with
  | zero => rfl
  | succ width ih => simp [beBytes, ih]

theorem beValue_concat (bs : List UInt8) (b : UInt8) :
    beValue (bs ++ [b]) = beValue bs * 256 + b.toNat := by
  simp [beValue]

theorem beValue_beBytes {width n : Nat} (h : n < 256 ^ width) : beValue (beBytes width n) = n := by
  induction width generalizing n with
  | zero =>
    rw [Nat.pow_zero] at h
    rw [Nat.lt_one_iff.mp h]
    rfl
  | succ width ih =>
    rw [Nat.pow_succ] at h
    have hb : (UInt8.ofNat (n % 256)).toNat = n % 256 := by simp
    rw [beBytes, beValue_concat, ih (Nat.div_lt_of_lt_mul (by omega)), hb]
    omega

theorem beBytes_beValue (bs : List UInt8) : beBytes bs.length (beValue bs) = bs := by
  induction bs using List.reverseRecOn with
  | nil => rfl
  | append_singleton bs b ih =>
    have hb := b.toNat_lt
    have hdiv : (beValue bs * 256 + b.toNat) / 256 = beValue bs := by omega
    have hmod : (beValue bs * 256 + b.toNat) % 256 = b.toNat := by omega
    rw [List.length_append, List.length_singleton, beBytes, beValue_concat, hdiv, hmod, ih,
      UInt8.ofNat_toNat]

theorem beValue_zeros (k : Nat) (bs : List UInt8) :
    beValue (List.replicate k 0 ++ bs) = beValue bs := by
  induction k with
  | zero => simp
  | succ k ih => simpa [beValue, List.replicate_succ] using ih

theorem beValue_cons (b : UInt8) (bs : List UInt8) :
    beValue (b :: bs) = b.toNat * 256 ^ bs.length + beValue bs := by
  induction bs using List.reverseRecOn with
  | nil => simp [beValue]
  | append_singleton bs c ih =>
    rw [← List.cons_append, beValue_concat, ih, beValue_concat, List.length_append,
      List.length_singleton, Nat.pow_succ]
    ring

theorem beValue_append (bs cs : List UInt8) :
    beValue (bs ++ cs) = beValue bs * 256 ^ cs.length + beValue cs := by
  induction bs with
  | nil => simp [beValue]
  | cons b bs ih =>
    rw [List.cons_append, beValue_cons, ih, beValue_cons, List.length_append, Nat.pow_add]
    ring

theorem beValue_lt (bs : List UInt8) : beValue bs < 256 ^ bs.length := by
  induction bs with
  | nil => decide
  | cons b bs ih =>
    have hb : b.toNat + 1 ≤ 256 := b.toNat_lt
    rw [beValue_cons, List.length_cons, Nat.pow_succ]
    calc b.toNat * 256 ^ bs.length + beValue bs < (b.toNat + 1) * 256 ^ bs.length := by
          rw [Nat.add_mul, Nat.one_mul]
          exact Nat.add_lt_add_left ih _
      _ ≤ 256 * 256 ^ bs.length := Nat.mul_le_mul_right _ hb
      _ = 256 ^ bs.length * 256 := Nat.mul_comm _ _

/-! A number without the zeros before it. -/

theorem exists_zeros (bs : List UInt8) :
    ∃ k, bs = List.replicate k 0 ++ bs.dropWhile (· = 0) := by
  refine ⟨(bs.takeWhile (· = 0)).length, ?_⟩
  have hzeros : bs.takeWhile (· = 0) = List.replicate (bs.takeWhile (· = 0)).length 0 :=
    List.eq_replicate_of_mem fun b hb => by simpa using List.mem_takeWhile_imp hb
  rw [← hzeros, List.takeWhile_append_dropWhile]

theorem beValue_dropWhile (bs : List UInt8) : beValue (bs.dropWhile (· = 0)) = beValue bs := by
  obtain ⟨k, hk⟩ := exists_zeros bs
  conv_rhs => rw [hk]
  rw [beValue_zeros]

theorem head?_dropWhile_ne (bs : List UInt8) : (bs.dropWhile (· = 0)).head? ≠ some 0 := by
  intro h0
  have := List.head?_dropWhile_not (· = 0) bs
  rw [h0] at this
  simp at this

theorem pow_le_beValue {b : UInt8} {bs : List UInt8} (hhead : (b :: bs).head? ≠ some 0) :
    256 ^ bs.length ≤ beValue (b :: bs) := by
  have hb : 0 < b.toNat := by
    refine Nat.pos_of_ne_zero fun h0 => hhead ?_
    have hzero : b = 0 := UInt8.toNat_inj.mp h0
    rw [List.head?_cons, hzero]
  rw [beValue_cons]
  calc 256 ^ bs.length ≤ b.toNat * 256 ^ bs.length := Nat.le_mul_of_pos_left _ hb
    _ ≤ b.toNat * 256 ^ bs.length + beValue bs := Nat.le_add_right _ _

/-- Without leading zeros, a number that fits into a width takes no more bytes. -/
theorem length_le_of_beValue_lt {bs : List UInt8} {width : Nat} (hhead : bs.head? ≠ some 0)
    (h : beValue bs < 256 ^ width) : bs.length ≤ width := by
  cases bs with
  | nil => exact Nat.zero_le _
  | cons b bs =>
    have hpow : 256 ^ bs.length < 256 ^ width := Nat.lt_of_le_of_lt (pow_le_beValue hhead) h
    exact (Nat.pow_lt_pow_iff_right (by decide)).mp hpow

abbrev Reader (ε α : Type) := StateT (List UInt8) (Except ε) α

section Reader
variable {ε α β : Type} (truncated : ε)

def take (n : Nat) : Reader ε (List UInt8) := fun buf =>
  if buf.length < n then .error truncated else .ok (buf.take n, buf.drop n)

def u32 : Reader ε Nat := do return beValue (← take truncated 4)

def string : Reader ε (List UInt8) := do take truncated (← u32 truncated)

/-- A string with its length before it. -/
def str (s : List UInt8) : List UInt8 := beBytes 4 s.length ++ s

theorem length_str (s : List UInt8) : (str s).length = 4 + s.length := by
  rw [str, List.length_append, length_beBytes]

theorem bind_eq_ok_iff {r : Reader ε α} {f : α → Reader ε β} {buf rest : List UInt8} {b : β} :
    (r >>= f) buf = .ok (b, rest) ↔ ∃ a mid, r buf = .ok (a, mid) ∧ f a mid = .ok (b, rest) := by
  change (r buf >>= fun p => f p.1 p.2) = _ ↔ _
  cases r buf with
  | error e => simp [bind, Except.bind]
  | ok p =>
    obtain ⟨a, mid⟩ := p
    simp [bind, Except.bind]

theorem take_eq_ok_iff {n : Nat} {buf s rest : List UInt8} :
    take truncated n buf = .ok (s, rest) ↔ buf = s ++ rest ∧ s.length = n := by
  unfold take
  split
  · next hlt =>
    simp only [reduceCtorEq, false_iff, not_and]
    rintro rfl
    rw [List.length_append] at hlt
    omega
  · next hle =>
    rw [Except.ok.injEq, Prod.mk.injEq]
    constructor
    · rintro ⟨rfl, rfl⟩
      exact ⟨(List.take_append_drop n buf).symm, List.length_take_of_le (Nat.not_lt.mp hle)⟩
    · rintro ⟨rfl, rfl⟩
      exact ⟨List.take_left, List.drop_left⟩

theorem u32_eq_ok_iff {n : Nat} {buf rest : List UInt8} :
    u32 truncated buf = .ok (n, rest) ↔ n < 2 ^ 32 ∧ buf = beBytes 4 n ++ rest := by
  constructor
  · intro h
    obtain ⟨bytes, mid, htake, h⟩ := bind_eq_ok_iff.mp h
    cases h
    obtain ⟨rfl, hlen⟩ := (take_eq_ok_iff truncated).mp htake
    refine ⟨?_, by rw [← hlen, beBytes_beValue]⟩
    have := beValue_lt bytes
    rwa [hlen] at this
  · rintro ⟨hn, rfl⟩
    have htake : take truncated 4 (beBytes 4 n ++ rest) = .ok (beBytes 4 n, rest) :=
      (take_eq_ok_iff truncated).mpr ⟨rfl, length_beBytes 4 n⟩
    refine bind_eq_ok_iff.mpr ⟨_, _, htake, ?_⟩
    rw [beValue_beBytes (by omega)]
    rfl

/-- No buffer makes the reader end in this error. -/
def Avoids (e : ε) (r : Reader ε α) : Prop := ∀ buf, r buf ≠ .error e

theorem avoids_pure (e : ε) (a : α) : Avoids e (pure a : Reader ε α) := by
  intro buf h
  cases h

theorem Avoids.bind {e : ε} {r : Reader ε α} {f : α → Reader ε β} (h : Avoids e r)
    (hf : ∀ a, Avoids e (f a)) : Avoids e (r >>= f) := by
  intro buf herr
  change (r buf >>= fun p => f p.1 p.2) = _ at herr
  cases hr : r buf with
  | error e' =>
    rw [hr] at herr
    cases herr
    exact h buf hr
  | ok p =>
    rw [hr] at herr
    exact hf p.1 p.2 herr

theorem avoids_take {e : ε} (h : truncated ≠ e) (n : Nat) : Avoids e (take truncated n) := by
  intro buf herr
  unfold take at herr
  split at herr <;> cases herr
  exact h rfl

theorem avoids_u32 {e : ε} (h : truncated ≠ e) : Avoids e (u32 truncated) :=
  (avoids_take truncated h 4).bind fun bytes => avoids_pure e (beValue bytes)

/-- The reader takes these bytes for this value, and fails on less of them. -/
structure Reads (r : Reader ε α) (used : List UInt8) (a : α) : Prop where
  ok : ∀ rest, r (used ++ rest) = .ok (a, rest)
  short : ∀ m < used.length, r (used.take m) = .error truncated

variable {truncated} {r : Reader ε α} {f : α → Reader ε β} {used more : List UInt8} {a : α} {b : β}

theorem Reads.bind (h : Reads truncated r used a) (hf : Reads truncated (f a) more b) :
    Reads truncated (r >>= f) (used ++ more) b := by
  constructor
  · intro rest
    change (r (used ++ more ++ rest) >>= fun p => f p.1 p.2) = _
    rw [List.append_assoc, h.ok]
    exact hf.ok rest
  · intro m hm
    change (r ((used ++ more).take m) >>= fun p => f p.1 p.2) = _
    by_cases hshort : m < used.length
    · rw [List.take_append_of_le_length (Nat.le_of_lt hshort), h.short m hshort]
      rfl
    · rw [List.take_append, List.take_of_length_le (Nat.not_lt.mp hshort), h.ok]
      refine hf.short _ ?_
      rw [List.length_append] at hm
      omega

theorem Reads.bind_error {e : ε} {rest : List UInt8} (h : Reads truncated r used a)
    (hf : f a rest = .error e) : (r >>= f) (used ++ rest) = .error e := by
  change (r (used ++ rest) >>= fun p => f p.1 p.2) = _
  rw [h.ok]
  exact hf

theorem Reads.map (g : α → β) (h : Reads truncated r used a) :
    Reads truncated (r >>= fun a => pure (g a)) used (g a) := by
  have hpure : Reads truncated (pure (g a) : Reader ε β) [] (g a) :=
    ⟨fun _ => rfl, fun _ hm => absurd hm (Nat.not_lt_zero _)⟩
  have hread := h.bind (f := fun a => pure (g a)) hpure
  rwa [List.append_nil] at hread

theorem reads_take {s : List UInt8} {n : Nat} (h : s.length = n) :
    Reads truncated (take truncated n) s s := by
  subst h
  constructor
  · intro rest
    simp [take]
  · intro m hm
    simp [take, hm]

theorem reads_u32 {n : Nat} (h : n < 2 ^ 32) : Reads truncated (u32 truncated) (beBytes 4 n) n := by
  have htake : Reads truncated (take truncated 4) (beBytes 4 n) (beBytes 4 n) :=
    reads_take (length_beBytes 4 n)
  have hread := htake.map beValue
  rwa [beValue_beBytes (by omega)] at hread

theorem reads_string {s : List UInt8} (h : s.length < 2 ^ 32) :
    Reads truncated (string truncated) (str s) s :=
  (reads_u32 h).bind (reads_take rfl)

end Reader

end Hush.Lib.Wire
