import Mathlib.Tactic.Common

/-! Loops as step functions, and the rules to reason about what they return. -/
namespace Hush.Lib

/-- What one iteration of a loop ends in. -/
inductive Outcome (σ ρ : Type*)
  | next (s : σ)
  | done (r : ρ)

def Outcome.mapNext {σ ρ : Type*} (f : σ → σ) : Outcome σ ρ → Outcome σ ρ
  | .next s => .next (f s)
  | .done r => .done r

namespace Loop

variable {σ ρ : Type*} {step : σ → Outcome σ ρ} {s t : σ} {r : ρ}

def run (step : σ → Outcome σ ρ) : Nat → σ → Option ρ
  | 0, _ => none
  | n + 1, s =>
    match step s with
    | .next s => run step n s
    | .done r => some r

/-- The loop ends, with this result. -/
def Returns (step : σ → Outcome σ ρ) (s : σ) (r : ρ) : Prop := ∃ n, run step n s = some r

/-- The loop gets from one state to another. -/
inductive Reaches (step : σ → Outcome σ ρ) : σ → σ → Prop
  | refl {s : σ} : Reaches step s s
  | next {s u t : σ} (h : step s = .next u) (ht : Reaches step u t) : Reaches step s t

theorem Reaches.invariant {P : σ → Prop} (h : Reaches step s t) (hs : P s)
    (hstep : ∀ {s t}, P s → step s = .next t → P t) : P t := by
  induction h with
  | refl => exact hs
  | next h _ ih => exact ih (hstep hs h)

theorem Reaches.snoc {u : σ} (h : Reaches step s t) (hu : step t = .next u) :
    Reaches step s u := by
  induction h with
  | refl => exact .next hu .refl
  | next hstep _ ih => exact .next hstep (ih hu)

theorem Reaches.trans {u : σ} (h : Reaches step s t) (h' : Reaches step t u) :
    Reaches step s u := by
  induction h with
  | refl => exact h'
  | next hstep _ ih => exact .next hstep (ih h')

/-- A result is returned in the last state reached. -/
theorem Returns.last (h : Returns step s r) : ∃ t, Reaches step s t ∧ step t = .done r := by
  obtain ⟨n, hn⟩ := h
  induction n generalizing s with
  | zero => cases hn
  | succ n ih =>
    simp only [run] at hn
    split at hn
    · next u hu =>
      obtain ⟨t, ht, hr⟩ := ih hn
      exact ⟨t, .next hu ht, hr⟩
    · next r' hr =>
      cases hn
      exact ⟨s, .refl, hr⟩

theorem Returns.done (h : step s = .done r) : Returns step s r := ⟨1, by simp [run, h]⟩

theorem Returns.next (h : step s = .next t) (ht : Returns step t r) : Returns step s r := by
  obtain ⟨n, hn⟩ := ht
  exact ⟨n + 1, by simp [run, h, hn]⟩

theorem Reaches.of_returns (h : Reaches step s t) (ht : Returns step t r) : Returns step s r := by
  induction h with
  | refl => exact ht
  | next hstep _ ih => exact .next hstep (ih ht)

theorem Reaches.returns (h : Reaches step s t) (ht : step t = .done r) : Returns step s r :=
  h.of_returns (.done ht)

/-- A loop whose iterations make a measure smaller ends within as many of them. -/
theorem exists_run {P : σ → Prop} (measure : σ → Nat)
    (hstep : ∀ {s t}, P s → step s = .next t → P t ∧ measure t < measure s) {n : Nat} (hs : P s)
    (hn : measure s < n) : ∃ r, run step n s = some r := by
  induction n generalizing s with
  | zero => exact absurd hn (Nat.not_lt_zero _)
  | succ n ih =>
    cases h : step s with
    | next t =>
      obtain ⟨ht, hlt⟩ := hstep hs h
      obtain ⟨r, hr⟩ := ih ht (by omega)
      exact ⟨r, by simp only [run, h, hr]⟩
    | done r => exact ⟨r, by simp only [run, h]⟩

theorem exists_returns (measure : σ → Nat)
    (hstep : ∀ {s t}, step s = .next t → measure t < measure s) (s : σ) :
    ∃ r, Returns step s r := by
  obtain ⟨r, hr⟩ := exists_run (P := fun _ => True) measure (fun _ h => ⟨trivial, hstep h⟩) trivial
    (Nat.lt_succ_self (measure s))
  exact ⟨r, _, hr⟩

/-- The same for any order in which there is no infinite descent. -/
theorem exists_returns_of_wellFounded {R : σ → σ → Prop} (hR : WellFounded R)
    (hstep : ∀ {s t}, step s = .next t → R t s) (s : σ) : ∃ r, Returns step s r := by
  induction s using hR.induction with
  | _ s ih =>
    cases h : step s with
    | next t =>
      obtain ⟨r, hr⟩ := ih t (hstep h)
      exact ⟨r, .next h hr⟩
    | done r => exact ⟨r, .done h⟩

theorem Returns.unique {r' : ρ} (h : Returns step s r) (h' : Returns step s r') : r = r' := by
  obtain ⟨n, hn⟩ := h
  obtain ⟨m, hm⟩ := h'
  induction n generalizing s m with
  | zero => cases hn
  | succ n ih =>
    cases m with
    | zero => cases hm
    | succ m =>
      cases hs : step s with
      | next t =>
        simp only [run, hs] at hn hm
        exact ih hn m hm
      | done r₀ =>
        simp only [run, hs, Option.some.injEq] at hn hm
        exact hn.symm.trans hm

/-- A loop that does the same in every state that another one reaches ends as that one does. -/
theorem returns_congr {step' : σ → Outcome σ ρ} (h : ∀ t, Reaches step s t → step' t = step t) :
    Returns step' s r ↔ Returns step s r := by
  have hrun : ∀ n, run step' n s = run step n s := by
    intro n
    induction n generalizing s with
    | zero => rfl
    | succ n ih =>
      simp only [run, h s .refl]
      cases hs : step s with
      | next u => exact ih fun t ht => h t (.next hs ht)
      | done r' => rfl
  simp only [Returns, hrun]

/-- The loop ends with this result, and its iterations emit these items. -/
inductive Emits {ε : Type*} (step : σ → Outcome σ ρ) (emit : σ → List ε) : σ → List ε → ρ → Prop
  | done {s : σ} {r : ρ} (h : step s = .done r) : Emits step emit s (emit s) r
  | next {s t : σ} {items : List ε} {r : ρ} (h : step s = .next t)
      (ht : Emits step emit t items r) : Emits step emit s (emit s ++ items) r

theorem returns_iff_emits {ε : Type*} (emit : σ → List ε) :
    Returns step s r ↔ ∃ items, Emits step emit s items r := by
  constructor
  · rintro ⟨n, hn⟩
    induction n generalizing s with
    | zero => cases hn
    | succ n ih =>
      simp only [run] at hn
      split at hn
      · next t ht =>
        obtain ⟨items, hitems⟩ := ih hn
        exact ⟨_, .next ht hitems⟩
      · next r' hr =>
        cases hn
        exact ⟨_, .done hr⟩
  · rintro ⟨items, h⟩
    induction h with
    | done h => exact .done h
    | next h _ ih => exact .next h ih

/-- Running the loop for some steps shows what it returns. -/
theorem Returns.of_run {α : Type*} {f : ρ → α} {a : α} {n : Nat}
    (h : (run step n s).map f = some a) : ∃ r, Returns step s r ∧ f r = a := by
  obtain ⟨r, hr, hf⟩ := Option.map_eq_some_iff.mp h
  exact ⟨r, ⟨n, hr⟩, hf⟩

end Loop

section TryEach

variable {σ α ε : Type*} {f : σ → α → σ × Option ε} {s s' : σ} {a : α} {items : List α} {e : ε}

/-- A loop over a list that ends at the first error. -/
def tryEach (f : σ → α → σ × Option ε) (s : σ) : List α → σ × Option ε
  | [] => (s, none)
  | a :: rest =>
    match f s a with
    | (s, none) => tryEach f s rest
    | (s, some e) => (s, some e)

theorem tryEach_cons_ok (h : tryEach f s (a :: items) = (s', none)) :
    ∃ u, f s a = (u, none) ∧ tryEach f u items = (s', none) := by
  simp only [tryEach] at h
  split at h
  · next u hu => exact ⟨u, hu, h⟩
  · cases h

theorem tryEach_cons_err (h : tryEach f s (a :: items) = (s', some e)) :
    f s a = (s', some e) ∨ ∃ u, f s a = (u, none) ∧ tryEach f u items = (s', some e) := by
  simp only [tryEach] at h
  split at h
  · next u hu => exact Or.inr ⟨u, hu, h⟩
  · next u e' hu =>
    cases h
    exact Or.inl hu

theorem tryEach_invariant {P : σ → Prop} (items : List α) (hs : P s)
    (hf : ∀ {s a}, a ∈ items → P s → P (f s a).1) : P (tryEach f s items).1 := by
  induction items generalizing s with
  | nil => exact hs
  | cons a rest ih =>
    have hu : P (f s a).1 := hf List.mem_cons_self hs
    simp only [tryEach]
    split
    · next u h =>
      rw [h] at hu
      exact ih hu fun hmem => hf (List.mem_cons_of_mem _ hmem)
    · next u e h =>
      rwa [h] at hu

/-- The loop deals with a beginning of the list. The step that ends it may leave its element out. -/
theorem tryEach_front {P : σ → List α → Prop} {before : List α} (items : List α)
    (hs : P s before)
    (hf : ∀ {s before} a, P s before →
      P (f s a).1 (before ++ [a]) ∨ (f s a).2 ≠ none ∧ P (f s a).1 before) :
    ∃ front, front <+: items ∧ P (tryEach f s items).1 (before ++ front) := by
  induction items generalizing s before with
  | nil => exact ⟨[], List.nil_prefix, by rwa [List.append_nil]⟩
  | cons a rest ih =>
    have ha := hf a hs
    simp only [tryEach]
    split
    · next u h =>
      rw [h] at ha
      rcases ha with hu | ⟨hne, -⟩
      · obtain ⟨front, hfront, hend⟩ := ih hu
        refine ⟨a :: front, List.cons_prefix_cons.mpr ⟨rfl, hfront⟩, ?_⟩
        rwa [List.append_assoc] at hend
      · exact absurd rfl hne
    · next u e h =>
      rw [h] at ha
      rcases ha with hu | ⟨-, hu⟩
      · exact ⟨[a], ⟨rest, rfl⟩, hu⟩
      · exact ⟨[], List.nil_prefix, by rwa [List.append_nil]⟩

end TryEach

section First

variable {α : Type*} {P : α → Prop} {x y : α} {l : List α}

/-- The element is where a search of the list ends. -/
def First (P : α → Prop) (l : List α) (x : α) : Prop :=
  ∃ front back, l = front ++ x :: back ∧ P x ∧ ∀ y ∈ front, ¬ P y

theorem first_cons_of_pos (hx : P x) : First P (x :: l) y ↔ y = x := by
  constructor
  · rintro ⟨front, back, heq, -, hfront⟩
    cases front with
    | nil => exact (List.cons.inj heq).1.symm
    | cons z front =>
      obtain rfl := (List.cons.inj heq).1
      exact (hfront x List.mem_cons_self hx).elim
  · rintro rfl
    exact ⟨[], l, rfl, hx, by simp⟩

theorem first_cons_of_neg (hx : ¬ P x) : First P (x :: l) y ↔ First P l y := by
  constructor
  · rintro ⟨front, back, heq, hy, hfront⟩
    cases front with
    | nil =>
      obtain rfl := (List.cons.inj heq).1
      exact (hx hy).elim
    | cons z front =>
      exact ⟨front, back, (List.cons.inj heq).2, hy, fun z hz =>
        hfront z (List.mem_cons_of_mem _ hz)⟩
  · rintro ⟨front, back, rfl, hy, hfront⟩
    exact ⟨x :: front, back, rfl, hy, List.forall_mem_cons.mpr ⟨hx, hfront⟩⟩

theorem exists_first (hx : x ∈ l) (hP : P x) : ∃ y, First P l y := by
  induction l with
  | nil => cases hx
  | cons z l ih =>
    by_cases hz : P z
    · exact ⟨z, (first_cons_of_pos hz).mpr rfl⟩
    · rcases List.mem_cons.mp hx with rfl | hx
      · exact (hz hP).elim
      · obtain ⟨y, hy⟩ := ih hx
        exact ⟨y, (first_cons_of_neg hz).mpr hy⟩

theorem First.unique (hx : First P l x) (hy : First P l y) : x = y := by
  induction l with
  | nil =>
    obtain ⟨front, back, heq, -⟩ := hx
    simp at heq
  | cons z l ih =>
    by_cases hz : P z
    · rw [first_cons_of_pos hz] at hx hy
      exact hx.trans hy.symm
    · rw [first_cons_of_neg hz] at hx hy
      exact ih hx hy

/-- A search ends in the part of the list that has something to find. -/
theorem First.mem_of_append {front back : List α} (h : First P (front ++ back) x) (hy : y ∈ front)
    (hP : P y) : x ∈ front := by
  obtain ⟨z, front', back', rfl, hz, hfront⟩ := exists_first hy hP
  have hsame : First P ((front' ++ z :: back') ++ back) z :=
    ⟨front', back' ++ back, by simp, hz, hfront⟩
  rw [h.unique hsame]
  simp

end First

/-- A computation that may fail returns what its second part makes of the first part's result. -/
theorem bind_ok {ε α β : Type} {x : Except ε α} {f : α → Except ε β} {y : β}
    (h : (x >>= f) = .ok y) : ∃ a, x = .ok a ∧ f a = .ok y := by
  cases x with
  | error e => cases h
  | ok a => exact ⟨a, rfl, h⟩

end Hush.Lib
