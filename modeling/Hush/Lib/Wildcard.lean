import Mathlib.Data.List.Basic
import Mathlib.Tactic.Common

/-! Patterns in which one letter stands for any string and another for any letter. -/
namespace Hush.Lib

variable {α : Type*} {star any c : α} {p q t : List α}

/-- The text comes from the pattern by putting some string for each `star` and some letter for
each `any`, and keeping every other letter. -/
inductive Wildcard (star any : α) : List α → List α → Prop
  | nil : Wildcard star any [] []
  | star {p t : List α} (gap : List α) (h : Wildcard star any p t) :
      Wildcard star any (star :: p) (gap ++ t)
  | any {p t : List α} (c : α) (h : Wildcard star any p t) : Wildcard star any (any :: p) (c :: t)
  | letter {c : α} {p t : List α} (hstar : c ≠ star) (hany : c ≠ any)
      (h : Wildcard star any p t) : Wildcard star any (c :: p) (c :: t)

namespace Wildcard

theorem nil_iff : Wildcard star any [] t ↔ t = [] := by
  constructor
  · intro h
    cases h
    rfl
  · rintro rfl
    exact .nil

theorem of_star (hne : star ≠ any) (h : Wildcard star any (star :: p) t) :
    ∃ gap rest, t = gap ++ rest ∧ Wildcard star any p rest := by
  generalize hs : star :: p = s at h
  cases h with
  | nil => cases hs
  | star gap h =>
    cases hs
    exact ⟨gap, _, rfl, h⟩
  | any c h =>
    cases hs
    exact absurd rfl hne
  | letter hstar hany h =>
    cases hs
    exact absurd rfl hstar

theorem star_append (hne : star ≠ any) (gap : List α) (h : Wildcard star any (star :: p) t) :
    Wildcard star any (star :: p) (gap ++ t) := by
  obtain ⟨gap', rest, rfl, hrest⟩ := h.of_star hne
  rw [← List.append_assoc]
  exact .star _ hrest

/-- A `star` takes nothing, or the first letter and then goes on. -/
theorem star_iff (hne : star ≠ any) :
    Wildcard star any (star :: p) t ↔
      Wildcard star any p t ∨ Wildcard star any (star :: p) t.tail := by
  constructor
  · intro h
    obtain ⟨gap, rest, rfl, hrest⟩ := h.of_star hne
    cases gap with
    | nil => exact .inl hrest
    | cons c gap => exact .inr (.star gap hrest)
  · rintro (h | h)
    · exact .star [] h
    · cases t with
      | nil => exact h
      | cons c t => exact h.star_append hne [c]

theorem letter_iff {b : α} (hstar : c ≠ star) :
    Wildcard star any (c :: p) (b :: t) ↔ (c = any ∨ c = b) ∧ Wildcard star any p t := by
  constructor
  · intro h
    generalize ht : b :: t = s at h
    cases h with
    | star gap h => exact absurd rfl hstar
    | any c h =>
      cases ht
      exact ⟨.inl rfl, h⟩
    | letter _ hany h =>
      cases ht
      exact ⟨.inr rfl, h⟩
  · rintro ⟨hc, h⟩
    by_cases hany : c = any
    · subst hany
      exact .any b h
    · obtain rfl := hc.resolve_left hany
      exact .letter hstar hany h

/-- Only `star`s are left for the empty text. -/
theorem nil_right_iff : Wildcard star any p [] ↔ ∀ c ∈ p, c = star := by
  constructor
  · intro h
    generalize ht : ([] : List α) = t at h
    induction h with
    | nil => simp
    | star gap h ih =>
      obtain ⟨-, rfl⟩ := List.append_eq_nil_iff.mp ht.symm
      simpa using ih rfl
    | any c h => cases ht
    | letter hstar hany h => cases ht
  · intro h
    induction p with
    | nil => exact .nil
    | cons c p ih =>
      obtain ⟨rfl, hp⟩ := List.forall_mem_cons.mp h
      exact .star [] (ih hp)

theorem append_iff :
    Wildcard star any (p ++ q) t ↔
      ∃ front back, t = front ++ back ∧ Wildcard star any p front ∧ Wildcard star any q back := by
  constructor
  · intro h
    induction p generalizing t with
    | nil => exact ⟨[], t, rfl, .nil, h⟩
    | cons c p ih =>
      rw [List.cons_append] at h
      cases h with
      | star gap h =>
        obtain ⟨front, back, rfl, hp, hq⟩ := ih h
        exact ⟨gap ++ front, back, by simp, .star gap hp, hq⟩
      | any b h =>
        obtain ⟨front, back, rfl, hp, hq⟩ := ih h
        exact ⟨b :: front, back, rfl, .any b hp, hq⟩
      | letter hstar hany h =>
        obtain ⟨front, back, rfl, hp, hq⟩ := ih h
        exact ⟨c :: front, back, rfl, .letter hstar hany hp, hq⟩
  · rintro ⟨front, back, rfl, hp, hq⟩
    induction hp with
    | nil => exact hq
    | star gap h ih =>
      rw [List.append_assoc]
      exact .star gap ih
    | any b h ih => exact .any b ih
    | letter hstar hany h ih => exact .letter hstar hany ih

theorem length_eq (h : Wildcard star any p t) (hp : star ∉ p) : t.length = p.length := by
  induction h with
  | nil => rfl
  | star gap h ih => exact absurd List.mem_cons_self hp
  | any c h ih => simp [ih fun hmem => hp (List.mem_cons_of_mem _ hmem)]
  | letter hstar hany h ih => simp [ih fun hmem => hp (List.mem_cons_of_mem _ hmem)]

/-- What an earlier `star` can leave, the next one can take from where it stands: it is enough to
go back to the last one. -/
theorem last_star (hne : star ≠ any) (hq : star ∉ q)
    (h : Wildcard star any (star :: (q ++ star :: p)) t) :
    Wildcard star any (star :: p) (t.drop q.length) := by
  obtain ⟨gap, rest, rfl, hrest⟩ := h.of_star hne
  obtain ⟨front, back, rfl, hfront, hback⟩ := append_iff.mp hrest
  have hlen := hfront.length_eq hq
  rw [← List.append_assoc, List.drop_append_of_le_length (by rw [List.length_append]; omega)]
  exact hback.star_append hne _

end Wildcard

end Hush.Lib
