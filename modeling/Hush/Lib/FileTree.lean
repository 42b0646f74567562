import Mathlib.Data.List.Infix
import Mathlib.Tactic.Common

/-! What there is below a directory, and what putting a forest there node by node leaves. -/
namespace Hush.Lib

inductive Node (β γ : Type*)
  | dir
  | file (data : β)
  | symlink (target : γ)
  deriving DecidableEq, Repr

/-- The node at each path below a directory. -/
def FileTree (α β γ : Type*) := List α → Option (Node β γ)

namespace FileTree

variable {α β γ : Type*}

/-- Nothing is in the way of the node: above it there are directories or nothing, and where it
goes there is nothing or what it can replace, a directory for a directory. -/
def Takes (t : FileTree α β γ) (p : List α) (node : Node β γ) : Prop :=
  (∀ q ∈ p.inits, q ≠ p → t q = none ∨ t q = some .dir) ∧
    (t p = none ∨ (t p = some .dir ↔ node = .dir))

instance [DecidableEq α] [DecidableEq β] [DecidableEq γ] (t : FileTree α β γ) (p : List α)
    (node : Node β γ) : Decidable (t.Takes p node) :=
  haveI : DecidablePred fun q => q ≠ p → t q = none ∨ t q = some .dir := fun _ => inferInstance
  inferInstanceAs (Decidable ((∀ q ∈ p.inits, q ≠ p → _) ∧ _))

/-- The node is at its path, and what was missing above it is there as directories. -/
def put [DecidableEq α] (t : FileTree α β γ) (p : List α) (node : Node β γ) : FileTree α β γ :=
  fun q =>
    if q = p then some node
    else if q <+: p ∧ t q = none then some .dir
    else t q

/-- The forest in its place, and elsewhere the tree as it is. -/
def overlay (forest t : FileTree α β γ) : FileTree α β γ := fun q => (forest q).or (t q)

/-- The forest can be put into the tree: each of its nodes is below directories, its own or the
tree's, and replaces nothing of another kind. -/
structure Fits (forest t : FileTree α β γ) : Prop where
  above : ∀ p q, forest p ≠ none → q <+: p → q ≠ p →
    forest q = some .dir ∨ t q = some .dir
  free : ∀ p node, forest p = some node → t p = none ∨ (t p = some .dir ↔ node = .dir)

/-- The tree has become `u` after some of the nodes: they are in their places, and of the others
there are at most directories. -/
structure Filled (forest t : FileTree α β γ) (done : List (List α)) (u : FileTree α β γ) :
    Prop where
  mem : ∀ p ∈ done, forest p ≠ none
  placed : ∀ p ∈ done, u p = forest p
  other : ∀ q, q ∉ done → u q = t q ∨ u q = some .dir ∧ forest q = some .dir

variable {forest t u : FileTree α β γ} {done : List (List α)} {p q : List α} {node : Node β γ}

theorem Filled.start (forest t : FileTree α β γ) : forest.Filled t [] t :=
  ⟨fun _ h => absurd h List.not_mem_nil, fun _ h => absurd h List.not_mem_nil,
    fun _ _ => Or.inl rfl⟩

/-- Above a node there are directories, or they are still missing. -/
theorem Filled.above (h : forest.Filled t done u) (hfits : forest.Fits t)
    (hp : forest p ≠ none) (hq : q <+: p) (hne : q ≠ p) : u q = none ∨ u q = some .dir := by
  have habove := hfits.above p q hp hq hne
  by_cases hdone : q ∈ done
  · right
    rw [h.placed q hdone]
    rcases habove with hdir | hdir
    · exact hdir
    · obtain ⟨node, hnode⟩ := Option.ne_none_iff_exists'.mp (h.mem q hdone)
      have hfree := hfits.free q node hnode
      simp only [hdir, reduceCtorEq, true_iff, false_or] at hfree
      rw [hnode, hfree]
  · rcases h.other q hdone with hsame | ⟨hdir, -⟩
    · rw [hsame]
      rcases habove with hdir | hdir
      · have hfree := hfits.free q .dir hdir
        rwa [eq_self, iff_true] at hfree
      · exact Or.inr hdir
    · exact Or.inr hdir

/-- Nothing is in the way of the next node, whichever it is. -/
theorem Filled.takes (h : forest.Filled t done u) (hfits : forest.Fits t)
    (hp : forest p = some node) (hnew : p ∉ done) : u.Takes p node := by
  have hne : forest p ≠ none := by
    rw [hp]
    exact Option.some_ne_none node
  refine ⟨fun q hq hqp => h.above hfits hne ((List.mem_inits _ _).mp hq) hqp, ?_⟩
  rcases h.other p hnew with hsame | ⟨hdir, hforest⟩
  · rw [hsame]
    exact hfits.free p node hp
  · rw [hp] at hforest
    exact Or.inr ⟨fun _ => Option.some.inj hforest, fun _ => hdir⟩

theorem Filled.put [DecidableEq α] (h : forest.Filled t done u) (hfits : forest.Fits t)
    (hp : forest p = some node) (hnew : p ∉ done) :
    forest.Filled t (done ++ [p]) (u.put p node) := by
  have hne : forest p ≠ none := by
    rw [hp]
    exact Option.some_ne_none node
  refine ⟨?_, ?_, ?_⟩
  · intro q hq
    rcases List.mem_append.mp hq with hq | hq
    · exact h.mem q hq
    · rw [List.mem_singleton.mp hq]
      exact hne
  · intro q hq
    rcases List.mem_append.mp hq with hq | hq
    · have hqp : q ≠ p := fun heq => hnew (heq ▸ hq)
      have hq' := h.placed q hq
      have hmem := h.mem q hq
      rw [← hq'] at hmem ⊢
      simp [FileTree.put, hqp, hmem]
    · rw [List.mem_singleton.mp hq, hp]
      simp [FileTree.put]
  · intro q hq
    rw [List.mem_append, not_or, List.mem_singleton] at hq
    obtain ⟨hq, hqp⟩ := hq
    simp only [FileTree.put, if_neg hqp]
    split
    · next hmissing =>
      -- What was missing above the node is a directory of the forest.
      refine Or.inr ⟨rfl, (hfits.above p q hne hmissing.1 hqp).resolve_right fun hdir => ?_⟩
      have hnone := hmissing.2
      rcases h.other q hq with hsame | ⟨hdir', -⟩
      · rw [hsame, hdir] at hnone
        cases hnone
      · rw [hdir'] at hnone
        cases hnone
    · exact h.other q hq

/-- With the whole forest there, nothing else has changed. -/
theorem Filled.finished (h : forest.Filled t done u)
    (hdone : ∀ p, forest p ≠ none → p ∈ done) : u = forest.overlay t := by
  funext q
  by_cases hq : q ∈ done
  · obtain ⟨node, hnode⟩ := Option.ne_none_iff_exists'.mp (h.mem q hq)
    rw [h.placed q hq, overlay, hnode, Option.some_or]
  · have hnone : forest q = none := by
      by_contra hne
      exact hq (hdone q hne)
    rw [overlay, hnone, Option.none_or]
    rcases h.other q hq with hsame | ⟨-, hdir⟩
    · exact hsame
    · rw [hnone] at hdir
      cases hdir

end FileTree

end Hush.Lib
