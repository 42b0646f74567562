import Mathlib.Algebra.Ring.Nat
import Mathlib.Data.List.Basic
import Mathlib.Tactic.Common

/-! A list of processes, of which one moves: what holds of all, of some, and how many. -/
namespace Hush.Lib

variable {α : Type*} {front back : List α} {x y : α}

theorem countP_middle (p : α → Bool) (front back : List α) (x : α) :
    (front ++ x :: back).countP p = (front ++ back).countP p + if p x then 1 else 0 := by
  simp only [List.countP_append, List.countP_cons]
  omega

theorem mem_middle : y ∈ front ++ x :: back ↔ y = x ∨ y ∈ front ++ back := by
  simp only [List.mem_append, List.mem_cons]
  tauto

theorem forall_middle {P : α → Prop} :
    (∀ y ∈ front ++ x :: back, P y) ↔ P x ∧ ∀ y ∈ front ++ back, P y := by
  simp only [mem_middle, or_imp, forall_and, forall_eq]

theorem exists_middle {P : α → Prop} :
    (∃ y ∈ front ++ x :: back, P y) ↔ P x ∨ ∃ y ∈ front ++ back, P y := by
  simp only [mem_middle, or_and_right, exists_or, exists_eq_left]

/-- Another process is where it was. -/
theorem getElem?_middle_ne {i : Nat} (h : i ≠ front.length) :
    (front ++ x :: back)[i]? = (front ++ y :: back)[i]? := by
  rw [List.getElem?_append, List.getElem?_append]
  split
  · rfl
  · obtain ⟨k, hk⟩ : ∃ k, i - front.length = k + 1 := ⟨i - front.length - 1, by omega⟩
    rw [hk, List.getElem?_cons_succ, List.getElem?_cons_succ]

theorem getElem?_middle : (front ++ x :: back)[front.length]? = some x := by
  rw [List.getElem?_append_right (Nat.le_refl _), Nat.sub_self, List.getElem?_cons_zero]

/-- Only the counted processes contribute to the sum, and each of them no more than the bound. -/
theorem sum_le_countP_mul {p : α → Bool} {f : α → Nat} {bound : Nat} {xs : List α}
    (hle : ∀ x ∈ xs, f x ≤ bound) (hzero : ∀ x ∈ xs, p x = false → f x = 0) :
    (xs.map f).sum ≤ xs.countP p * bound := by
  induction xs with
  | nil => exact Nat.zero_le _
  | cons x xs ih =>
    rw [List.forall_mem_cons] at hle hzero
    have hrest := ih hle.2 hzero.2
    rw [List.map_cons, List.sum_cons, List.countP_cons, Nat.add_mul]
    cases hx : p x with
    | true =>
      rw [if_pos rfl, Nat.one_mul]
      have hfirst := hle.1
      omega
    | false =>
      rw [hzero.1 hx, if_neg (by simp)]
      omega

end Hush.Lib
