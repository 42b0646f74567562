import Mathlib.Data.List.Basic
import Mathlib.Tactic.Common

/-! Finite labelled traces of a transition relation, and the invariant rules over them. -/
namespace Hush.Lib

variable {σ α : Type*} {step : σ → α → σ → Prop} {s t u : σ} {a : α} {xs ys : List α}

/-- A finite run with one label per atomic transition. -/
inductive Trace (step : σ → α → σ → Prop) : σ → List α → σ → Prop
  | refl {s : σ} : Trace step s [] s
  | stepL {s u t : σ} {a : α} {xs : List α} :
      step s a u → Trace step u xs t → Trace step s (a :: xs) t

namespace Trace

theorem single (h : step s a t) : Trace step s [a] t := .stepL h .refl

theorem append (h : Trace step s xs u) (h' : Trace step u ys t) :
    Trace step s (xs ++ ys) t := by
  induction h with
  | refl => exact h'
  | stepL hs _ ih => exact .stepL hs (ih h')

theorem of_append (h : Trace step s (xs ++ ys) t) : ∃ u, Trace step s xs u ∧ Trace step u ys t := by
  induction xs generalizing s with
  | nil => exact ⟨s, .refl, h⟩
  | cons a xs ih =>
    cases h with
    | stepL hs h =>
      obtain ⟨u, hxs, hys⟩ := ih h
      exact ⟨u, .stepL hs hxs, hys⟩

/-- What every step preserves holds along every run. -/
theorem invariant {P : σ → Prop} (h : Trace step s xs t) (hs : P s)
    (hstep : ∀ {s a t}, step s a t → P s → P t) : P t := by
  induction h with
  | refl => exact hs
  | stepL h _ ih => exact ih (hstep h hs)

/-- A preorder that every step from an invariant state respects relates the ends of a run. -/
theorem related {P : σ → Prop} {R : σ → σ → Prop} (h : Trace step s xs t) (hs : P s)
    (hstep : ∀ {s a t}, step s a t → P s → P t) (hrefl : ∀ s, R s s)
    (htrans : ∀ {s u t}, R s u → R u t → R s t)
    (hrel : ∀ {s a t}, step s a t → P s → R s t) : R s t := by
  induction h with
  | refl => exact hrefl _
  | stepL h _ ih => exact htrans (hrel h hs) (ih (hstep h hs))

/-- The run takes the step from `v` to `w` labelled `a` somewhere. -/
def Takes (step : σ → α → σ → Prop) (s : σ) (xs : List α) (t v : σ) (a : α) (w : σ) : Prop :=
  ∃ before after, xs = before ++ a :: after ∧
    Trace step s before v ∧ step v a w ∧ Trace step w after t

/-- Every label of a run is the label of a step it takes. -/
theorem takes_of_mem (h : Trace step s xs t) (ha : a ∈ xs) : ∃ v w, Takes step s xs t v a w := by
  induction h with
  | refl => simp at ha
  | @stepL s u t b xs hs hx ih =>
    rcases List.mem_cons.mp ha with hb | ha
    · subst hb
      exact ⟨s, u, [], xs, rfl, refl, hs, hx⟩
    · obtain ⟨v, w, before, after, he, hbefore, hstep, hafter⟩ := ih ha
      refine ⟨v, w, b :: before, after, ?_, stepL hs hbefore, hstep, hafter⟩
      rw [he, List.cons_append]

/-- A run whose steps all meet a condition is a run of the steps that meet it. -/
theorem restrict {P : σ → α → Prop} (h : Trace step s xs t)
    (hP : ∀ v a w, Takes step s xs t v a w → P v a) :
    Trace (fun v a w => step v a w ∧ P v a) s xs t := by
  induction h with
  | refl => exact .refl
  | @stepL s u t a xs hs h ih =>
    refine .stepL ⟨hs, hP s a u ⟨[], xs, rfl, .refl, hs, h⟩⟩ (ih ?_)
    rintro v b w ⟨before, after, rfl, hbefore, hb, hafter⟩
    exact hP v b w ⟨a :: before, after, rfl, .stepL hs hbefore, hb, hafter⟩

theorem mono {step' : σ → α → σ → Prop} (hstep : ∀ {s a t}, step s a t → step' s a t)
    (h : Trace step s xs t) : Trace step' s xs t := by
  induction h with
  | refl => exact .refl
  | stepL hs _ ih => exact .stepL (hstep hs) ih

/-- A run of a part is a run of the whole. -/
theorem image {τ β : Type*} {step' : τ → β → τ → Prop} (f : σ → τ) (g : α → β)
    (hstep : ∀ {s a t}, step s a t → step' (f s) (g a) (f t)) (h : Trace step s xs t) :
    Trace step' (f s) (xs.map g) (f t) := by
  induction h with
  | refl => exact .refl
  | stepL hs _ ih => exact .stepL (hstep hs) ih

end Trace

end Hush.Lib
