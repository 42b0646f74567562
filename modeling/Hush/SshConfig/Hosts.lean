import Hush.Lib.Loop
import Hush.Lib.Text
import Hush.Lib.Utf8

/-! The patterns of a `Host` line. -/
namespace Hush.SshConfig
open Hush.Lib

/-- The matcher's positions in the pattern and in the host, the last `*` it took, and where in
the host it took it. -/
structure Glob where
  p : Nat
  h : Nat
  star : Option Nat
  afterStar : Nat

def globStep (pattern host : List UInt8) (s : Glob) : Outcome Glob Bool :=
  match host[s.h]? with
  | some c =>
    if pattern[s.p]? = some '?'.toUInt8 ∨ pattern[s.p]? = some c then
      .next { s with p := s.p + 1, h := s.h + 1 }
    else if pattern[s.p]? = some '*'.toUInt8 then
      .next { s with star := some s.p, p := s.p + 1, afterStar := s.h }
    else match s.star with
      -- the last `*` takes one byte more
      | some star =>
        .next { s with p := star + 1, afterStar := s.afterStar + 1, h := s.afterStar + 1 }
      | none => .done false
  | none =>
    let stars := (pattern.drop s.p).takeWhile (· = '*'.toUInt8)
    .done (s.p + stars.length = pattern.length)

/-- More iterations than the matcher can need. -/
def globFuel (pattern host : List UInt8) : Nat :=
  (pattern.length + 2) * (host.length + 1) * (host.length + 1)

def lowerBytes (s : List Char) : List UInt8 := Utf8.encode (Text.toLower s)

def hostPatternMatches (pattern host : List Char) : Bool :=
  let pattern := lowerBytes pattern
  let host := lowerBytes host
  (Loop.run (globStep pattern host) (globFuel pattern host) ⟨0, 0, none, 0⟩).getD false

/-- The positions stay in range, and the last `*` is before the pattern's position. -/
structure Glob.Inv (pattern host : List UInt8) (s : Glob) : Prop where
  p_le : s.p ≤ pattern.length
  h_le : s.h ≤ host.length
  afterStar_le : s.afterStar ≤ s.h
  star_lt : ∀ star, s.star = some star → star < s.p

def Glob.rank (s : Glob) : Nat :=
  match s.star with
  | none => 0
  | some star => star + 1

/-- A later `*` counts most, then how much it took, then the position in the host. -/
def Glob.measure (pattern host : List UInt8) (s : Glob) : Nat :=
  ((pattern.length + 1 - s.rank) * (host.length + 1) + (host.length - s.afterStar)) *
    (host.length + 1) + (host.length - s.h)

theorem lex_lt {a a' b b' n : Nat} (ha : a' < a) (hb : b' ≤ n) :
    a' * (n + 1) + b' < a * (n + 1) + b := by
  have h : (a' + 1) * (n + 1) ≤ a * (n + 1) := Nat.mul_le_mul_right _ ha
  rw [Nat.add_mul] at h
  omega

theorem Glob.Inv.rank_le {pattern host : List UInt8} {s : Glob} (hs : s.Inv pattern host) :
    s.rank ≤ s.p := by
  unfold Glob.rank
  split
  · exact Nat.zero_le _
  · next star hstar => exact hs.star_lt star hstar

theorem globStep_next {pattern host : List UInt8} {s t : Glob} (hs : s.Inv pattern host)
    (h : globStep pattern host s = .next t) :
    t.Inv pattern host ∧ t.measure pattern host < s.measure pattern host := by
  unfold globStep at h
  split at h
  · next c hc =>
    have hh : s.h < host.length := (List.getElem?_eq_some_iff.mp hc).1
    have hafter := hs.afterStar_le
    have hp : ∀ b, pattern[s.p]? = some b → s.p < pattern.length :=
      fun b hb => (List.getElem?_eq_some_iff.mp hb).1
    split at h
    · next heq =>
      cases h
      have hlt : s.p < pattern.length := heq.elim (hp _) (hp _)
      refine ⟨⟨hlt, hh, Nat.le_succ_of_le hafter, fun star hstar => ?_⟩, ?_⟩
      · exact Nat.lt_succ_of_lt (hs.star_lt star hstar)
      · simp only [Glob.measure, Glob.rank]
        omega
    · split at h
      · next hstar =>
        cases h
        have hlt := hp _ hstar
        refine ⟨⟨hlt, Nat.le_of_lt hh, Nat.le_refl _, fun star h => ?_⟩, ?_⟩
        · cases h
          exact Nat.lt_succ_self _
        · have hrank := hs.rank_le
          refine lex_lt (lex_lt ?_ (by omega)) (by omega)
          simp only [Glob.rank] at hrank ⊢
          omega
      · split at h
        · next star hstar =>
          cases h
          have hlt := hs.star_lt star hstar
          have hle := hs.p_le
          refine ⟨⟨by dsimp only; omega, by dsimp only; omega, Nat.le_refl _, fun i hi => ?_⟩, ?_⟩
          · rw [hstar] at hi
            cases hi
            exact Nat.lt_succ_self _
          · refine lex_lt ?_ (by omega)
            simp only [Glob.rank]
            omega
        · cases h
  · cases h

theorem Glob.inv_start {pattern host : List UInt8} : Glob.Inv pattern host ⟨0, 0, none, 0⟩ :=
  ⟨Nat.zero_le _, Nat.zero_le _, Nat.le_refl _, by simp⟩

/-- The matcher's loop always ends, and `hostPatternMatches` is what it returns. -/
theorem hostPatternMatches_returns (pattern host : List Char) :
    Loop.Returns (globStep (lowerBytes pattern) (lowerBytes host)) ⟨0, 0, none, 0⟩
      (hostPatternMatches pattern host) := by
  generalize hp : lowerBytes pattern = pattern'
  generalize hh : lowerBytes host = host'
  have hfuel : Glob.measure pattern' host' ⟨0, 0, none, 0⟩ < globFuel pattern' host' := by
    have hrank : (pattern'.length + 1) * (host'.length + 1) + host'.length <
        (pattern'.length + 2) * (host'.length + 1) + 0 :=
      lex_lt (Nat.lt_succ_self _) (Nat.le_refl _)
    have := lex_lt (b := 0) hrank (Nat.le_refl host'.length)
    simpa [Glob.measure, Glob.rank, globFuel] using this
  obtain ⟨r, hr⟩ := Loop.exists_run (Glob.measure pattern' host') globStep_next Glob.inv_start hfuel
  refine ⟨globFuel pattern' host', ?_⟩
  simp only [hostPatternMatches, hp, hh, hr, Option.getD_some]

/-- The loop over the patterns of a line; the first negated one that matches ends it. -/
def blockMatches (host : List Char) : Bool → List (List Char) → Bool
  | positiveMatch, [] => positiveMatch
  | positiveMatch, word :: rest =>
    let negated := word.head? = some '!'
    let pattern := if negated then word.tail else word
    if pattern = [] ∨ hostPatternMatches pattern host = false then
      blockMatches host positiveMatch rest
    else if negated then false
    else blockMatches host true rest

def hostBlockMatches (patterns host : List Char) : Bool :=
  blockMatches host false (Text.words patterns)

/-- A pattern of a `Host` line that matches. -/
def MatchesPositive (host word : List Char) : Prop :=
  word.head? ≠ some '!' ∧ hostPatternMatches word host = true

/-- A pattern after `!` that matches; a lone `!` negates nothing. -/
def MatchesNegated (host word : List Char) : Prop :=
  word.head? = some '!' ∧ word.tail ≠ [] ∧ hostPatternMatches word.tail host = true

/-- A `Host` line applies to a host that a pattern matches and no negated one does. -/
def BlockMatches (patterns host : List Char) : Prop :=
  (∃ word ∈ Text.words patterns, MatchesPositive host word) ∧
  ∀ word ∈ Text.words patterns, ¬ MatchesNegated host word

theorem matchesPositive_iff {host word : List Char} (hne : word ≠ [])
    (hpos : word.head? ≠ some '!') :
    MatchesPositive host word ↔ ¬ (word = [] ∨ hostPatternMatches word host = false) := by
  simp [MatchesPositive, hne, hpos]

theorem matchesNegated_iff {host word : List Char} (hneg : word.head? = some '!') :
    MatchesNegated host word ↔
      ¬ (word.tail = [] ∨ hostPatternMatches word.tail host = false) := by
  simp [MatchesNegated, hneg]

theorem blockMatches_iff {host : List Char} {words : List (List Char)} (hne : ∀ w ∈ words, w ≠ [])
    (positiveMatch : Bool) :
    blockMatches host positiveMatch words = true ↔
      (positiveMatch = true ∨ ∃ word ∈ words, MatchesPositive host word) ∧
      ∀ word ∈ words, ¬ MatchesNegated host word := by
  induction words generalizing positiveMatch with
  | nil => simp [blockMatches]
  | cons word rest ih =>
    have ih := ih (fun w hw => hne w (List.mem_cons_of_mem _ hw))
    have hword : word ≠ [] := hne word List.mem_cons_self
    simp only [blockMatches, List.forall_mem_cons, List.exists_mem_cons_iff]
    by_cases hneg : word.head? = some '!'
    · have hpos : ¬ MatchesPositive host word := fun h => h.1 hneg
      have hmatch : MatchesNegated host word ↔ _ := matchesNegated_iff hneg
      rw [if_pos hneg]
      split
      · next hskip =>
        have hnot : ¬ MatchesNegated host word := fun h => hmatch.mp h hskip
        rw [ih]
        simp [hpos, hnot]
      · next hskip => simp [hmatch.mpr hskip]
    · have hnot : ¬ MatchesNegated host word := fun h => hneg h.1
      have hmatch : MatchesPositive host word ↔ _ := matchesPositive_iff hword hneg
      rw [if_neg hneg]
      split
      · next hskip =>
        have hpos : ¬ MatchesPositive host word := fun h => hmatch.mp h hskip
        rw [ih]
        simp [hpos, hnot]
      · next hskip =>
        rw [ih]
        simp [hmatch.mpr hskip, hnot]

/-- The order of the patterns does not matter. -/
theorem hostBlockMatches_iff (patterns host : List Char) :
    hostBlockMatches patterns host = true ↔ BlockMatches patterns host := by
  rw [hostBlockMatches, blockMatches_iff (fun w => Text.ne_nil_of_mem_words)]
  simp [BlockMatches]

end Hush.SshConfig
