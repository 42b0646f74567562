import Mathlib.Data.List.Induction
import Mathlib.Data.List.Nodup
import Mathlib.Data.List.Perm.Basic
import Mathlib.Tactic.Common

/-! Finite trees as sets of paths from the root, and the traversal of one with a stack. -/
namespace Hush.Lib

/-- A finite set of paths that has with each path all those above it. -/
structure PrefixTree (α : Type*) where
  nodes : List (List α)
  nodup : nodes.Nodup
  root_mem : [] ∈ nodes
  closed : ∀ p a, p ++ [a] ∈ nodes → p ∈ nodes

namespace PrefixTree

variable {α : Type*} [DecidableEq α] {t : PrefixTree α} {p q : List α}
  {visited pending children : List (List α)} {names : List α}

omit [DecidableEq α] in
theorem mem_of_isPrefix (hq : q ∈ t.nodes) (h : p <+: q) : p ∈ t.nodes := by
  obtain ⟨r, rfl⟩ := h
  induction r using List.reverseRecOn with
  | nil => rwa [List.append_nil] at hq
  | append_singleton r a ih =>
    rw [← List.append_assoc] at hq
    exact ih (t.closed _ _ hq)

/-- The nodes of the subtree at a path. -/
def below (t : PrefixTree α) (p : List α) : List (List α) := t.nodes.filter (p <+: ·)

theorem mem_below : q ∈ t.below p ↔ q ∈ t.nodes ∧ p <+: q := by
  rw [below, List.mem_filter, decide_eq_true_iff]

theorem nodup_below : (t.below p).Nodup := t.nodup.filter _

theorem below_root : t.below [] = t.nodes := by
  rw [below, List.filter_eq_self]
  exact fun q _ => decide_eq_true List.nil_prefix

omit [DecidableEq α] in
theorem eq_of_isPrefix_singleton {a b : α} (ha : p ++ [a] <+: q) (hb : p ++ [b] <+: q) : a = b := by
  have heq : p ++ [a] = p ++ [b] :=
    (List.prefix_of_prefix_length_le ha hb (by simp)).eq_of_length (by simp)
  simpa using heq

/-- A subtree is its root and the subtrees of the children. -/
theorem below_perm (hp : p ∈ t.nodes) (hnodup : names.Nodup)
    (hnames : ∀ a, a ∈ names ↔ p ++ [a] ∈ t.nodes) :
    (t.below p).Perm (p :: names.flatMap fun a => t.below (p ++ [a])) := by
  have hmem : ∀ q, q ∈ t.below p ↔ q ∈ p :: names.flatMap fun a => t.below (p ++ [a]) := by
    intro q
    rw [mem_below, List.mem_cons, List.mem_flatMap]
    constructor
    · rintro ⟨hq, r, rfl⟩
      cases r with
      | nil => exact Or.inl (List.append_nil p)
      | cons a r =>
        have hprefix : p ++ [a] <+: p ++ a :: r := ⟨r, by simp⟩
        exact Or.inr ⟨a, (hnames a).mpr (mem_of_isPrefix hq hprefix), mem_below.mpr ⟨hq, hprefix⟩⟩
    · rintro (rfl | ⟨a, _, hq⟩)
      · exact ⟨hp, List.prefix_rfl⟩
      · obtain ⟨hq, hprefix⟩ := mem_below.mp hq
        exact ⟨hq, (List.prefix_append p [a]).trans hprefix⟩
  refine (List.perm_ext_iff_of_nodup nodup_below ?_).mpr hmem
  refine List.nodup_cons.mpr ⟨?_, List.nodup_flatMap.mpr ⟨fun a _ => nodup_below, ?_⟩⟩
  · intro hroot
    obtain ⟨a, _, hroot⟩ := List.mem_flatMap.mp hroot
    have := (mem_below.mp hroot).2.length_le
    rw [List.length_append, List.length_singleton] at this
    omega
  · refine hnodup.imp fun hne q hqa hqb => ?_
    exact hne (eq_of_isPrefix_singleton (mem_below.mp hqa).2 (mem_below.mp hqb).2)

/-- What has been visited, in order, and the stack: together with the subtrees on the stack it is
the whole tree, and nothing was visited before what is above it. -/
structure Traversed (t : PrefixTree α) (visited pending : List (List α)) : Prop where
  perm : t.nodes.Perm (visited ++ pending.flatMap t.below)
  pending_mem : ∀ p ∈ pending, p ∈ t.nodes
  parentsFirst : visited.Pairwise fun earlier later => ¬ (later <+: earlier ∧ later ≠ earlier)

theorem Traversed.start (t : PrefixTree α) : t.Traversed [] [[]] := by
  refine ⟨?_, ?_, .nil⟩
  · rw [List.flatMap_singleton, below_root]
    exact .refl _
  · rintro p hp
    rw [List.mem_singleton.mp hp]
    exact t.root_mem

theorem Traversed.mem_nodes (h : t.Traversed visited pending) (hq : q ∈ visited) : q ∈ t.nodes :=
  h.perm.mem_iff.mpr (List.mem_append_left _ hq)

theorem Traversed.nodup (h : t.Traversed visited pending) :
    (visited ++ pending.flatMap t.below).Nodup := h.perm.nodup_iff.mp t.nodup

/-- The top of the stack is visited, and its children take its place in any order. -/
theorem Traversed.visit (h : t.Traversed visited (p :: pending)) (hnodup : names.Nodup)
    (hnames : ∀ a, a ∈ names ↔ p ++ [a] ∈ t.nodes)
    (hchildren : children.Perm (names.map fun a => p ++ [a])) :
    t.Traversed (visited ++ [p]) (children ++ pending) := by
  obtain ⟨hp, hpending⟩ := List.forall_mem_cons.mp h.pending_mem
  have hbelow : (t.below p).Perm (p :: children.flatMap t.below) := by
    refine (below_perm hp hnodup hnames).trans (.cons p ?_)
    rw [← List.flatMap_map]
    exact (hchildren.flatMap_right t.below).symm
  refine ⟨?_, ?_, ?_⟩
  · refine h.perm.trans ?_
    rw [List.flatMap_cons, List.append_assoc, List.flatMap_append]
    exact .append_left visited (hbelow.append_right _)
  · refine List.forall_mem_append.mpr ⟨fun q hq => ?_, hpending⟩
    obtain ⟨a, ha, rfl⟩ := List.mem_map.mp (hchildren.mem_iff.mp hq)
    exact (hnames a).mp ha
  · refine List.pairwise_append.mpr ⟨h.parentsFirst, List.pairwise_singleton _ _, ?_⟩
    -- What is below the top of the stack is still to come.
    rintro v hv q hq ⟨hunder, -⟩
    rw [List.mem_singleton.mp hq] at hunder
    have hdisjoint := (List.nodup_append.mp h.nodup).2.2
    refine hdisjoint v hv v ?_ rfl
    rw [List.flatMap_cons]
    exact List.mem_append_left _ (mem_below.mpr ⟨h.mem_nodes hv, hunder⟩)

/-- With nothing left on the stack every node has been visited, once. -/
theorem Traversed.finished (h : t.Traversed visited []) : visited.Perm t.nodes := by
  have hperm := h.perm
  rw [List.flatMap_nil, List.append_nil] at hperm
  exact hperm.symm

/-- The visit leaves less to do. -/
theorem Traversed.length_lt (h : t.Traversed visited (p :: pending)) :
    (visited ++ [p]).length ≤ t.nodes.length := by
  have hp : p ∈ t.below p := mem_below.mpr ⟨h.pending_mem p List.mem_cons_self, List.prefix_rfl⟩
  have hpos := List.length_pos_of_mem hp
  rw [h.perm.length_eq, List.flatMap_cons]
  simp only [List.length_append, List.length_singleton]
  omega

/-- The visited nodes and the top of the stack are among the nodes. -/
theorem Traversed.exists_perm (h : t.Traversed visited (p :: pending)) :
    ∃ more, t.nodes.Perm (visited ++ p :: more) := by
  have hp : p ∈ t.below p := mem_below.mpr ⟨h.pending_mem p List.mem_cons_self, List.prefix_rfl⟩
  obtain ⟨front, back, hsplit⟩ := List.append_of_mem hp
  refine ⟨front ++ back ++ pending.flatMap t.below, h.perm.trans (.append_left visited ?_)⟩
  rw [List.flatMap_cons, hsplit]
  exact List.perm_middle.append_right _

end PrefixTree

end Hush.Lib
