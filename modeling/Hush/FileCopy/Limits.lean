import Mathlib.Algebra.Ring.Nat
import Mathlib.Tactic.Common

/-! The limits of a copy, in saturating 64-bit arithmetic. -/
namespace Hush.FileCopy

abbrev Bytes := List UInt8

def u64Max : Nat := 2 ^ 64 - 1

/-- `u64::saturating_add`. -/
def satAdd (a b : Nat) : Nat := min (a + b) u64Max

/-- `u64::saturating_mul`. -/
def satMul (a b : Nat) : Nat := min (a * b) u64Max

structure FileCopyLimits where
  maxBytes : UInt64
  maxEntries : UInt64
  deriving DecidableEq, Repr

/-- A zero limit disables copying. -/
def FileCopyLimits.disabled (limits : FileCopyLimits) : Bool :=
  limits.maxBytes == 0 || limits.maxEntries == 0

def disabledMessage : String := "file copy is disabled by its configured limit"

/-- What a copy has used up so far. -/
structure CopyBudget where
  limits : FileCopyLimits
  bytes : Nat
  entries : Nat
  deriving DecidableEq, Repr

def CopyBudget.new (limits : FileCopyLimits) : CopyBudget := ⟨limits, 0, 0⟩

def CopyBudget.add (budget : CopyBudget) (bytes : Nat) : Except String CopyBudget :=
  let entries := satAdd budget.entries 1
  let bytes := satAdd budget.bytes bytes
  if budget.limits.maxEntries.toNat < entries then
    .error s!"file copy exceeds the {budget.limits.maxEntries} entry limit"
  else if budget.limits.maxBytes.toNat < bytes then
    .error s!"file copy exceeds the {budget.limits.maxBytes} byte limit"
  else .ok { budget with bytes, entries }

/-- Entries of these sizes stay within the limits. A limit of 2⁶⁴ - 1 is none, since the
counters saturate there. -/
def FileCopyLimits.Allows (limits : FileCopyLimits) (sizes : List Nat) : Prop :=
  (sizes.length ≤ limits.maxEntries.toNat ∨ limits.maxEntries.toNat = u64Max) ∧
  (sizes.sum ≤ limits.maxBytes.toNat ∨ limits.maxBytes.toNat = u64Max)

instance (limits : FileCopyLimits) (sizes : List Nat) : Decidable (limits.Allows sizes) :=
  inferInstanceAs (Decidable (_ ∧ _))

/-- The budget after entries of these sizes. -/
def CopyBudget.Spent (budget : CopyBudget) (limits : FileCopyLimits) (sizes : List Nat) : Prop :=
  budget = ⟨limits, min sizes.sum u64Max, min sizes.length u64Max⟩

/-- `STREAM_BUFFER`: bytes buffered between the tar layer and the stream. -/
def streamBuffer : Nat := 2 ^ 20

def archiveByteLimit (limits : FileCopyLimits) : Nat :=
  satAdd (satAdd limits.maxBytes.toNat (satMul limits.maxEntries.toNat 1024)) streamBuffer

def wireByteLimit (limits : FileCopyLimits) : Nat :=
  satAdd (satAdd (archiveByteLimit limits) (archiveByteLimit limits / 100)) streamBuffer

section Budget

variable {limits : FileCopyLimits} {budget budget' : CopyBudget} {sizes : List Nat} {n : Nat}

theorem FileCopyLimits.Allows.of_append {more : List Nat} (h : limits.Allows (sizes ++ more)) :
    limits.Allows sizes := by
  simp only [FileCopyLimits.Allows, List.length_append, List.sum_append] at h ⊢
  omega

theorem CopyBudget.spent_new : (CopyBudget.new limits).Spent limits [] := by
  simp [CopyBudget.new, CopyBudget.Spent]

/-- An entry is charged exactly if the limits allow it too. -/
theorem CopyBudget.add_ok_iff (h : budget.Spent limits sizes) :
    budget.add n = .ok budget' ↔
      limits.Allows (sizes ++ [n]) ∧ budget'.Spent limits (sizes ++ [n]) := by
  subst h
  have hentries : limits.maxEntries.toNat ≤ u64Max := Nat.le_pred_of_lt limits.maxEntries.toNat_lt
  have hbytes : limits.maxBytes.toNat ≤ u64Max := Nat.le_pred_of_lt limits.maxBytes.toNat_lt
  have hcount : satAdd (min sizes.length u64Max) 1 = min (sizes.length + 1) u64Max := by
    unfold satAdd
    omega
  have hsum : satAdd (min sizes.sum u64Max) n = min (sizes.sum + n) u64Max := by
    unfold satAdd
    omega
  simp only [CopyBudget.add, CopyBudget.Spent, FileCopyLimits.Allows, hcount, hsum,
    List.length_append, List.length_singleton, List.sum_append, List.sum_singleton]
  split
  · simp only [reduceCtorEq, false_iff, not_and]
    omega
  · split
    · simp only [reduceCtorEq, false_iff, not_and]
      omega
    · simp only [Except.ok.injEq, eq_comm, iff_and_self]
      omega

end Budget

theorem archiveByteLimit_le (limits : FileCopyLimits) : archiveByteLimit limits ≤ u64Max :=
  Nat.min_le_right _ _

theorem archiveByteLimit_le_wire (limits : FileCopyLimits) :
    archiveByteLimit limits ≤ wireByteLimit limits := by
  have := archiveByteLimit_le limits
  unfold wireByteLimit satAdd
  omega

/-- The margin of the wire limit covers zstd's worst expansion, unless it saturates. -/
theorem expansion_le_wire (limits : FileCopyLimits) {n : Nat} (h : n ≤ archiveByteLimit limits) :
    n + n / 256 + 65536 ≤ wireByteLimit limits ∨ wireByteLimit limits = u64Max := by
  unfold wireByteLimit satAdd streamBuffer
  omega

end Hush.FileCopy
