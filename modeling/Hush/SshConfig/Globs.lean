import Hush.Lib.Wildcard
import Hush.SshConfig.Hosts
import Mathlib.Data.List.Forall2
import Mathlib.Data.List.TakeWhile

/-! What the matcher of `Host` patterns computes, on hosts without a `*` and on others. -/
namespace Hush.SshConfig
open Hush.Lib

/-- The host can be had from the pattern by putting some bytes for each `*` and one for each `?`. -/
abbrev Globs (pattern host : List UInt8) : Prop :=
  Wildcard '*'.toUInt8 '?'.toUInt8 pattern host

/-- A byte of the pattern that takes this byte of the host by itself. -/
def Fits (b c : UInt8) : Prop := b = '?'.toUInt8 ∨ b = c

/-- Nothing in front of the pattern takes this byte. -/
def Stuck (pattern : List UInt8) (c : UInt8) : Prop :=
  ∀ b rest, pattern = b :: rest → b ≠ '*'.toUInt8 ∧ ¬ Fits b c

section Matcher

variable {pattern host p rest : List UInt8} {s t : Glob} {r : Bool} {b c : UInt8}

theorem star_ne_any : '*'.toUInt8 ≠ '?'.toUInt8 := by decide

theorem globs_cons (hb : b ≠ '*'.toUInt8) :
    Globs (b :: p) (c :: rest) ↔ Fits b c ∧ Globs p rest :=
  Wildcard.letter_iff hb

theorem globs_star :
    Globs ('*'.toUInt8 :: p) rest ↔ Globs p rest ∨ Globs ('*'.toUInt8 :: p) rest.tail :=
  Wildcard.star_iff star_ne_any

theorem Stuck.not_globs (h : Stuck p c) : ¬ Globs p (c :: rest) := by
  intro hglobs
  cases p with
  | nil => cases Wildcard.nil_iff.mp hglobs
  | cons b p =>
    obtain ⟨hb, hfits⟩ := h b p rfl
    exact hfits ((globs_cons hb).mp hglobs).1

/-- What an iteration does that goes on: the byte fits, there is a `*`, or it goes back to the
last one. -/
inductive Advances (pattern : List UInt8) (s : Glob) (c : UInt8) : Glob → Prop
  | fits {b : UInt8} {rest : List UInt8} (hp : pattern.drop s.p = b :: rest) (hb : Fits b c) :
      Advances pattern s c { s with p := s.p + 1, h := s.h + 1 }
  | star {rest : List UInt8} (hp : pattern.drop s.p = '*'.toUInt8 :: rest) :
      Advances pattern s c { s with star := some s.p, p := s.p + 1, afterStar := s.h }
  | back {star : Nat} (hstar : s.star = some star) (hp : Stuck (pattern.drop s.p) c) :
      Advances pattern s c
        { s with p := star + 1, afterStar := s.afterStar + 1, h := s.afterStar + 1 }

theorem getElem?_iff_drop {l : List UInt8} {i : Nat} :
    l[i]? = some b ↔ ∃ rest, l.drop i = b :: rest := by
  rw [← List.head?_drop, List.head?_eq_some_iff]

theorem drop_succ_of_cons {l : List UInt8} {i : Nat} (h : l.drop i = b :: rest) :
    l.drop (i + 1) = rest := by
  rw [← List.tail_drop, h, List.tail_cons]

theorem stuck_of_getElem? (hfits : ¬ (p[s.p]? = some '?'.toUInt8 ∨ p[s.p]? = some c))
    (hstar : ¬ p[s.p]? = some '*'.toUInt8) : Stuck (p.drop s.p) c := by
  intro b rest hp
  rw [getElem?_iff_drop.mpr ⟨rest, hp⟩] at hfits hstar
  refine ⟨fun heq => hstar (congrArg some heq), ?_⟩
  rintro (heq | heq)
  · exact hfits (.inl (congrArg some heq))
  · exact hfits (.inr (congrArg some heq))

theorem globStep_cases (h : globStep pattern host s = .next t) :
    ∃ c rest, host.drop s.h = c :: rest ∧ Advances pattern s c t := by
  unfold globStep at h
  split at h
  · next c hc =>
    obtain ⟨rest, hrest⟩ := getElem?_iff_drop.mp hc
    refine ⟨c, rest, hrest, ?_⟩
    split at h
    · next hfits =>
      cases h
      rcases hfits with hp | hp
      · obtain ⟨prest, hp⟩ := getElem?_iff_drop.mp hp
        exact .fits hp (.inl rfl)
      · obtain ⟨prest, hp⟩ := getElem?_iff_drop.mp hp
        exact .fits hp (.inr rfl)
    · next hfits =>
      split at h
      · next hp =>
        cases h
        obtain ⟨prest, hp⟩ := getElem?_iff_drop.mp hp
        exact .star hp
      · next hstar =>
        split at h
        · next star hs =>
          cases h
          exact .back hs (stuck_of_getElem? hfits hstar)
        · cases h
  · cases h

theorem inv_of_reaches (h : Loop.Reaches (globStep pattern host) ⟨0, 0, none, 0⟩ s) :
    s.Inv pattern host :=
  h.invariant Glob.inv_start fun hs h => (globStep_next hs h).1

/-- The loop ends with the host, or stuck without a `*` to go back to. -/
theorem globStep_done (h : globStep pattern host s = .done r) (hp : s.p ≤ pattern.length) :
    (host.drop s.h = [] ∧ (r = true ↔ ∀ b ∈ pattern.drop s.p, b = '*'.toUInt8)) ∨
    ∃ c rest, host.drop s.h = c :: rest ∧ s.star = none ∧ r = false ∧
      Stuck (pattern.drop s.p) c := by
  unfold globStep at h
  split at h
  · next c hc =>
    obtain ⟨rest, hrest⟩ := getElem?_iff_drop.mp hc
    split at h
    · cases h
    · next hfits =>
      split at h
      · cases h
      · next hstar =>
        split at h
        · cases h
        · next hnone =>
          cases h
          exact .inr ⟨c, rest, hrest, hnone, rfl, stuck_of_getElem? hfits hstar⟩
  · next hc =>
    cases h
    refine .inl ⟨List.drop_eq_nil_iff.mpr (List.getElem?_eq_none_iff.mp hc), ?_⟩
    have hprefix := List.takeWhile_prefix (p := (· = '*'.toUInt8)) (l := pattern.drop s.p)
    have hlen := hprefix.length_le
    have hall := List.takeWhile_eq_self_iff (p := (· = '*'.toUInt8)) (l := pattern.drop s.p)
    rw [List.length_drop] at hlen
    rw [decide_eq_true_eq]
    constructor
    · intro hcount
      have hself := hprefix.eq_of_length (by rw [List.length_drop]; omega)
      simpa using hall.mp hself
    · intro hstars
      rw [hall.mpr (by simpa using hstars), List.length_drop]
      omega

/-- The pattern matches if the rest of it matches the rest of the host, or if it does so once the
last `*` takes more. What has been matched since that one has no other `*`. -/
structure Glob.Sound (pattern host : List UInt8) (s : Glob) : Prop where
  globs_iff : Globs pattern host ↔ Globs (pattern.drop s.p) (host.drop s.h) ∨
    ∃ star, s.star = some star ∧
      Globs ('*'.toUInt8 :: pattern.drop (star + 1)) (host.drop (s.afterStar + 1))
  segment : ∀ star, s.star = some star → ∃ q, '*'.toUInt8 ∉ q ∧
    pattern.drop (star + 1) = q ++ pattern.drop s.p ∧ s.h = s.afterStar + q.length

/-- At a `*` the one before it is not needed any more. -/
theorem Glob.Sound.earlier_star (hs : s.Sound pattern host) {star : Nat}
    (hstar : s.star = some star) (hp : pattern.drop s.p = '*'.toUInt8 :: p)
    (hglobs : Globs ('*'.toUInt8 :: pattern.drop (star + 1)) (host.drop (s.afterStar + 1))) :
    Globs ('*'.toUInt8 :: p) (host.drop (s.h + 1)) := by
  obtain ⟨q, hq, heq, hlen⟩ := hs.segment star hstar
  rw [heq, hp] at hglobs
  have hlast := hglobs.last_star star_ne_any hq
  rw [List.drop_drop, show s.afterStar + 1 + q.length = s.h + 1 by omega] at hlast
  exact hlast

/-- At the end of the host the last `*` cannot take more. -/
theorem Glob.Sound.last_star_full (hs : s.Sound pattern host) {star : Nat}
    (hstar : s.star = some star) (hend : host.drop s.h = [])
    (hglobs : Globs ('*'.toUInt8 :: pattern.drop (star + 1)) (host.drop (s.afterStar + 1))) :
    Globs (pattern.drop s.p) [] := by
  obtain ⟨q, hq, heq, hlen⟩ := hs.segment star hstar
  obtain ⟨gap, more, hgap, hmore⟩ := hglobs.of_star star_ne_any
  rw [heq] at hmore
  obtain ⟨front, back, rfl, hfront, hback⟩ := Wildcard.append_iff.mp hmore
  have hshort : back.length = 0 := by
    have hfixed := hfront.length_eq hq
    have hcount := congrArg List.length hgap
    have hend := List.drop_eq_nil_iff.mp hend
    simp only [List.length_drop, List.length_append] at hcount
    omega
  rw [List.eq_nil_of_length_eq_zero hshort] at hback
  exact hback

theorem Glob.Sound.step (hhost : '*'.toUInt8 ∉ host) (hs : s.Sound pattern host)
    (h : globStep pattern host s = .next t) : t.Sound pattern host := by
  obtain ⟨c, rest, hrest, hadvances⟩ := globStep_cases h
  cases hadvances with
  | @fits b prest hp hb =>
    have hstar : b ≠ '*'.toUInt8 := by
      rcases hb with rfl | rfl
      · exact star_ne_any.symm
      · rintro rfl
        exact hhost (List.mem_of_mem_drop (hrest ▸ List.mem_cons_self))
    refine ⟨?_, ?_⟩
    · rw [hs.globs_iff, hp, hrest, globs_cons hstar, and_iff_right hb]
      simp only [drop_succ_of_cons hp, drop_succ_of_cons hrest]
    · intro star hsome
      obtain ⟨q, hq, heq, hlen⟩ := hs.segment star hsome
      refine ⟨q ++ [b], ?_, ?_, ?_⟩
      · simp [hq, hstar.symm]
      · rw [heq, hp, drop_succ_of_cons hp, List.append_assoc, List.singleton_append]
      · simp only [hlen, List.length_append, List.length_singleton]
        omega
  | @star prest hp =>
    refine ⟨?_, ?_⟩
    · have hold : (∃ star, s.star = some star ∧
          Globs ('*'.toUInt8 :: pattern.drop (star + 1)) (host.drop (s.afterStar + 1))) →
          Globs prest (host.drop s.h) ∨ Globs ('*'.toUInt8 :: prest) (host.drop (s.h + 1)) := by
        rintro ⟨star, hstar, hglobs⟩
        exact .inr (hs.earlier_star hstar hp hglobs)
      rw [hs.globs_iff, hp, globs_star, List.tail_drop, or_iff_left_of_imp hold]
      simp only [Option.some.injEq, exists_eq_left', drop_succ_of_cons hp]
    · rintro star ⟨⟩
      exact ⟨[], by simp, rfl, rfl⟩
  | @back star hstar hp =>
    have hstuck : ¬ Globs (pattern.drop s.p) (host.drop s.h) := by
      rw [hrest]
      exact hp.not_globs
    refine ⟨?_, ?_⟩
    · rw [hs.globs_iff, or_iff_right hstuck]
      simp only [hstar, Option.some.injEq, exists_eq_left']
      rw [globs_star, List.tail_drop]
    · intro star' hstar'
      obtain rfl : star = star' := Option.some.inj (hstar.symm.trans hstar')
      exact ⟨[], by simp, rfl, rfl⟩

/-- On a host without a `*` the matcher decides `Globs`. -/
theorem globs_of_returns (hhost : '*'.toUInt8 ∉ host)
    (h : Loop.Returns (globStep pattern host) ⟨0, 0, none, 0⟩ r) :
    r = true ↔ Globs pattern host := by
  obtain ⟨t, hreaches, hdone⟩ := h.last
  have hstart : Glob.Sound pattern host ⟨0, 0, none, 0⟩ := ⟨by simp, by simp⟩
  have hs : t.Sound pattern host := hreaches.invariant hstart fun hs h => hs.step hhost h
  rcases globStep_done hdone (inv_of_reaches hreaches).p_le with
    ⟨hend, hr⟩ | ⟨c, rest, hrest, hnone, rfl, hstuck⟩
  · have hfull : (∃ star, t.star = some star ∧
        Globs ('*'.toUInt8 :: pattern.drop (star + 1)) (host.drop (t.afterStar + 1))) →
        Globs (pattern.drop t.p) [] := by
      rintro ⟨star, hstar, hglobs⟩
      exact hs.last_star_full hstar hend hglobs
    rw [hr, hs.globs_iff, hend, or_iff_left_of_imp hfull]
    exact Wildcard.nil_right_iff.symm
  · rw [hs.globs_iff, hrest]
    simp [hnone, hstuck.not_globs]

/-- Bytes that fit are taken one by one, also where they are a `*` in both. -/
theorem returns_of_fits {q u : List UInt8} (hfits : List.Forall₂ Fits q u)
    (hp : pattern.drop s.p = q ++ p) (hh : host.drop s.h = u ++ rest)
    (hr : Loop.Returns (globStep pattern host)
      { s with p := s.p + q.length, h := s.h + u.length } r) :
    Loop.Returns (globStep pattern host) s r := by
  induction hfits generalizing s with
  | nil => exact hr
  | @cons b c q u hb hrest ih =>
    have hstep : globStep pattern host s = .next { s with p := s.p + 1, h := s.h + 1 } := by
      have hc : host[s.h]? = some c := getElem?_iff_drop.mpr ⟨_, hh⟩
      have hpb : pattern[s.p]? = some b := getElem?_iff_drop.mpr ⟨_, hp⟩
      have hfit : pattern[s.p]? = some '?'.toUInt8 ∨ pattern[s.p]? = some c := by
        rw [hpb]
        exact hb.imp (congrArg some) (congrArg some)
      simp only [globStep, hc, if_pos hfit]
    refine Loop.Returns.next hstep (ih (drop_succ_of_cons hp) (drop_succ_of_cons hh) ?_)
    simpa [Nat.add_assoc, Nat.add_comm 1] using hr

/-- All of the host fits the beginning of the pattern. -/
theorem returns_of_host_fits {q u : List UInt8} (hfits : List.Forall₂ Fits q u) :
    Loop.Returns (globStep (q ++ p) u) ⟨0, 0, none, 0⟩
      (decide ((p.takeWhile (· = '*'.toUInt8)).length = p.length)) := by
  refine returns_of_fits hfits rfl (List.append_nil u).symm (.done ?_)
  simp [globStep]

/-- All of the pattern fits a beginning of the host. -/
theorem returns_of_pattern_fits {q u : List UInt8} (hfits : List.Forall₂ Fits q u) :
    Loop.Returns (globStep q (u ++ c :: rest)) ⟨0, 0, none, 0⟩ false := by
  refine returns_of_fits hfits (List.append_nil q).symm rfl (.done ?_)
  simp [globStep]

end Matcher

theorem lowerBytes_append (a b : List Char) :
    lowerBytes (a ++ b) = lowerBytes a ++ lowerBytes b := by
  rw [lowerBytes, Text.toLower, List.map_append, Utf8.encode_append]
  rfl

theorem toLower_eq_star {c : Char} : c.toLower = '*' ↔ c = '*' := by
  constructor
  · intro h
    unfold Char.toLower at h
    split at h
    · next hupper =>
      have hval := congrArg (fun c : Char => c.val.toNat) h
      simp only [ge_iff_le, UInt32.le_iff_toNat_le, UInt32.toNat_add, UInt32.reduceSub,
        UInt32.reduceToNat, Char.reduceVal] at hupper hval
      omega
    · exact h
  · rintro rfl
    rfl

theorem star_mem_lowerBytes {s : List Char} : '*'.toUInt8 ∈ lowerBytes s ↔ '*' ∈ s := by
  have h : '*'.toUInt8 ∈ lowerBytes s ↔ '*' ∈ Text.toLower s :=
    Utf8.mem_encode_ascii (c := '*') (by decide)
  rw [h, Text.toLower, List.mem_map]
  simp [toLower_eq_star]

/-- The matcher ends with its positions in range, and finds a match exactly if there is one. -/
theorem host_pattern_matches_correct (pattern host : List Char) (hhost : '*' ∉ host) :
    Loop.Returns (globStep (lowerBytes pattern) (lowerBytes host)) ⟨0, 0, none, 0⟩
      (hostPatternMatches pattern host) ∧
    (∀ s, Loop.Reaches (globStep (lowerBytes pattern) (lowerBytes host)) ⟨0, 0, none, 0⟩ s →
      s.p ≤ (lowerBytes pattern).length ∧ s.h ≤ (lowerBytes host).length) ∧
    (hostPatternMatches pattern host = true ↔ Globs (lowerBytes pattern) (lowerBytes host)) := by
  refine ⟨hostPatternMatches_returns pattern host, ?_, ?_⟩
  · intro s hs
    exact ⟨(inv_of_reaches hs).p_le, (inv_of_reaches hs).h_le⟩
  · exact globs_of_returns (mt star_mem_lowerBytes.mp hhost)
      (hostPatternMatches_returns pattern host)

theorem host_pattern_matches_correct_web :
    '*' ∉ "Web-1".toList ∧ hostPatternMatches "w*?".toList "Web-1".toList = true ∧
      Globs (lowerBytes "w*?".toList) (lowerBytes "Web-1".toList) := by
  obtain ⟨-, -, hiff⟩ := host_pattern_matches_correct "w*?".toList "Web-1".toList (by decide)
  have hmatches : hostPatternMatches "w*?".toList "Web-1".toList = true := by decide +kernel
  exact ⟨by decide, hmatches, hiff.mp hmatches⟩

theorem fits_refl (u : List UInt8) : List.Forall₂ Fits u u :=
  List.forall₂_same.mpr fun _ _ => .inr rfl

theorem hostPatternMatches_eq {pattern host : List Char} {r : Bool}
    (h : Loop.Returns (globStep (lowerBytes pattern) (lowerBytes host)) ⟨0, 0, none, 0⟩ r) :
    hostPatternMatches pattern host = r :=
  (hostPatternMatches_returns pattern host).unique h

theorem lowerBytes_cons_ne_nil (c : Char) (s : List Char) : lowerBytes (c :: s) ≠ [] := by
  simp [lowerBytes, Text.toLower, Utf8.encode, String.utf8EncodeChar_ne_nil]

/-- Putting a `*` for a part of the pattern keeps the match, and `*` alone matches. -/
def Generalizes (host : List Char) : Prop :=
  (∀ a m b, hostPatternMatches (a ++ m ++ b) host = true →
    hostPatternMatches (a ++ ['*'] ++ b) host = true) ∧
  hostPatternMatches ['*'] host = true

theorem generalizes_of_notMem {host : List Char} (hhost : '*' ∉ host) : Generalizes host := by
  have hbytes : '*'.toUInt8 ∉ lowerBytes host := mt star_mem_lowerBytes.mp hhost
  have hiff : ∀ pattern, hostPatternMatches pattern host = true ↔
      Globs (lowerBytes pattern) (lowerBytes host) :=
    fun pattern => globs_of_returns hbytes (hostPatternMatches_returns pattern host)
  have hstar : lowerBytes ['*'] = ['*'.toUInt8] := by decide
  refine ⟨fun a m b hmatches => ?_, ?_⟩
  · simp only [hiff, lowerBytes_append, hstar, Globs, Wildcard.append_iff] at hmatches ⊢
    obtain ⟨front, last, hhost, ⟨first, gap, rfl, ha, -⟩, hb⟩ := hmatches
    refine ⟨first ++ gap, last, hhost, ⟨first, gap, rfl, ha, ?_⟩, hb⟩
    simpa using Wildcard.star gap Wildcard.nil
  · rw [hiff, hstar]
    simpa using Wildcard.star (lowerBytes host) Wildcard.nil

/-- A `*` of the host is taken by that of the pattern as a byte, and is none any more. -/
theorem not_generalizes_of_mem {host : List Char} (hhost : '*' ∈ host) : ¬ Generalizes host := by
  rintro ⟨hgeneral, -⟩
  obtain ⟨u, v, rfl⟩ := List.append_of_mem hhost
  cases v with
  | cons c v =>
    -- the host itself is a pattern that matches, and `u*` is stuck behind the `*` of the host
    have hsame : hostPatternMatches (u ++ '*' :: c :: v ++ []) (u ++ '*' :: c :: v) = true := by
      apply hostPatternMatches_eq
      simpa using returns_of_host_fits (p := []) (fits_refl (lowerBytes (u ++ '*' :: c :: v)))
    obtain ⟨b, rest, hrest⟩ := List.exists_cons_of_ne_nil (lowerBytes_cons_ne_nil c v)
    have hstuck : hostPatternMatches (u ++ ['*'] ++ []) (u ++ '*' :: c :: v) = false := by
      apply hostPatternMatches_eq
      have hsplit : lowerBytes (u ++ '*' :: c :: v) = lowerBytes (u ++ ['*']) ++ b :: rest := by
        rw [← hrest, ← lowerBytes_append, List.append_assoc, List.singleton_append]
      rw [hsplit, List.append_nil]
      exact returns_of_pattern_fits (fits_refl _)
    exact Bool.false_ne_true (hstuck.symm.trans (hgeneral u ('*' :: c :: v) [] hsame))
  | nil =>
    -- `u?` matches, and `u*?` has a `?` too much
    have hmark : lowerBytes ['?'] = ['?'.toUInt8] := by decide
    have hstar : lowerBytes ['*'] = ['*'.toUInt8] := by decide
    have hsame : hostPatternMatches (u ++ [] ++ ['?']) (u ++ ['*']) = true := by
      apply hostPatternMatches_eq
      have hfits : List.Forall₂ Fits (lowerBytes (u ++ ['?'])) (lowerBytes (u ++ ['*'])) := by
        rw [lowerBytes_append, lowerBytes_append, hmark, hstar]
        exact List.rel_append (fits_refl _) (.cons (.inl rfl) .nil)
      simpa using returns_of_host_fits (p := []) hfits
    have hlong : hostPatternMatches (u ++ ['*'] ++ ['?']) (u ++ ['*']) = false := by
      apply hostPatternMatches_eq
      rw [lowerBytes_append _ ['?'], hmark]
      exact returns_of_host_fits (p := ['?'.toUInt8]) (fits_refl _)
    exact Bool.false_ne_true (hlong.symm.trans (hgeneral u [] ['?'] hsame))

/-- Generalizing a pattern keeps its matches exactly on the hosts without a `*`. -/
theorem generalizes_iff (host : List Char) : Generalizes host ↔ '*' ∉ host :=
  ⟨fun h hmem => not_generalizes_of_mem hmem h, generalizes_of_notMem⟩

/-- `*` does not match the alias `*a`, which its own text matches. -/
theorem star_misses_host :
    hostPatternMatches ([] ++ "*a".toList ++ []) "*a".toList = true ∧
      hostPatternMatches ([] ++ ['*'] ++ []) "*a".toList = false ∧
      hostPatternMatches ['*'] "*a".toList = false := by
  decide +kernel

end Hush.SshConfig
