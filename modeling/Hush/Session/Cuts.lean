import Hush.Session.Keys

/-! Where the terminal input is cut into reads does not matter to the filter. -/
namespace Hush.Session
open Hush.Lib

/-- Every CSI sequence has few enough parameter bytes to be carried over a cut. -/
def ShortCsi (stream : Bytes) : Prop :=
  ∀ front rest, stream = front ++ 0x1b :: 0x5b :: rest →
    (rest.takeWhile isCsiParam).length ≤ 254

/-- The cut between the two is not one between an ESC and a `[`. -/
def CleanCut (past next : Bytes) : Prop :=
  ∀ front rest, past = front ++ [0x1b] → next ≠ 0x5b :: rest

/-- What the pump sends: all of the output, with the rest at the end of the input. -/
def Pushed.total (r : Pushed) : Bytes := if r.fired then r.output else r.filter.finish r.output

section Cut

variable {past next more : Bytes} {s : Pushing} {len : Nat} {key : EscapeKey}

theorem ShortCsi.drop (h : ShortCsi (past ++ next)) : ShortCsi next := by
  intro front rest heq
  refine h (past ++ front) rest ?_
  rw [heq, List.append_assoc]

theorem CleanCut.drop {front : Bytes} (h : CleanCut (front ++ past) next) : CleanCut past next := by
  intro front' rest heq
  refine h (front ++ front') rest ?_
  rw [heq, List.append_assoc]

/-- A key that is read before a clean cut is read without the cut too. -/
theorem nextEscapeKey_append (h : nextEscapeKey past = some (len, key)) (hne : past ≠ [])
    (hshort : ShortCsi (past ++ more)) (hcut : CleanCut past more) :
    nextEscapeKey (past ++ more) = some (len, key) := by
  unfold nextEscapeKey at h
  split at h
  · next rest =>
    have hrest := List.takeWhile_append_dropWhile (p := isCsiParam) (l := rest)
    have hp : ∀ b ∈ rest.takeWhile isCsiParam, isCsiParam b := fun b => List.mem_takeWhile_imp
    split at h
    · next byte tail hdrop =>
      have hb : isCsiParam byte = false := by
        have := List.head_dropWhile_not isCsiParam (l := rest) (by simp [hdrop])
        simpa [hdrop] using this
      rw [← h, ← hrest, hdrop, List.cons_append, List.cons_append, List.append_assoc,
        List.cons_append, nextEscapeKey_csi hp hb, List.takeWhile_append_of_pos hp]
      simp [hb]
    · next hdrop =>
      -- all of it are parameter bytes, and there are more than a sequence may have
      exfalso
      rw [hdrop, List.append_nil] at hrest
      rw [hrest] at hp
      have hlen := hshort [] (rest ++ more) rfl
      rw [List.takeWhile_append_of_pos hp, List.length_append] at hlen
      split at h
      · next hlong =>
        simp only [maxPartialCsiLen, List.length_cons] at hlong
        omega
      · cases h
  · next byte tail hcsi =>
    cases h
    rw [List.cons_append, nextEscapeKey]
    rintro rest rfl heq
    rcases tail with _ | ⟨c, tail⟩
    · exact hcut [] rest rfl heq
    · exact hcsi tail rfl (by rw [(List.cons.inj heq).1])
  · exact absurd rfl hne

/-- The push with more input to come. -/
def Pushing.extend (s : Pushing) (more : Bytes) : Pushing := { s with rest := s.rest ++ more }

/-- An iteration that reads a key does the same with more input to come. -/
theorem pushStep_extend (hkey : nextEscapeKey s.rest = some (len, key)) (hne : s.rest ≠ [])
    (hshort : ShortCsi (s.rest ++ more)) (hcut : CleanCut s.rest more) :
    pushStep (s.extend more) = (pushStep s).mapNext (Pushing.extend · more) := by
  have hle := (nextEscapeKey_bounds hkey hne).2
  have hne' : s.rest ++ more ≠ [] := by simp [hne]
  simp only [pushStep, Pushing.extend, hkey, nextEscapeKey_append hkey hne hshort hcut, if_neg hne,
    if_neg hne', List.take_append_of_le_length hle, List.drop_append_of_le_length hle]
  split <;> rfl

/-- What a push leaves for the next one. -/
structure Leaves (s : Pushing) (r : Pushed) : Prop where
  suffix : r.filter.carried <:+ s.rest
  incomplete : r.filter.carried = [] ∨ nextEscapeKey r.filter.carried = none

theorem uncarried {f : EscapeFilter} (h : f.carried = []) : { f with carried := [] } = f := by
  rw [← h]

/-- A push before a clean cut, and then the rest, is one push of both. -/
theorem extend_of_emits {keys : List Key} {r : Pushed}
    (h : Loop.Emits pushStep Pushing.key s keys r) (hcarried : s.filter.carried = [])
    (hshort : ShortCsi (s.rest ++ more)) (hcut : CleanCut s.rest more) :
    (r.fired = true → Loop.Returns pushStep (s.extend more) r) ∧
    (r.fired = false → Leaves s r ∧ ∀ r',
      Loop.Returns pushStep
        ⟨{ r.filter with carried := [] }, r.output, r.filter.carried ++ more⟩ r' →
      Loop.Returns pushStep (s.extend more) r') := by
  induction h with
  | @done s r h =>
    rcases pushStep_done h with ⟨hrest, rfl⟩ | ⟨hkey, rfl⟩ | ⟨len, hkey, hheld, rfl⟩
    · refine ⟨by simp, fun _ => ⟨⟨by simp [hcarried], Or.inl hcarried⟩, fun r' hr' => ?_⟩⟩
      rw [uncarried hcarried, hcarried] at hr'
      rwa [Pushing.extend, hrest]
    · refine ⟨by simp, fun _ => ⟨⟨by simp [hcarried], Or.inr ?_⟩, fun r' hr' => ?_⟩⟩
      · simpa [hcarried] using hkey
      · simp only [hcarried, List.nil_append] at hr'
        rwa [uncarried hcarried] at hr'
    · have hne : s.rest ≠ [] := by
        intro hnil
        rw [hnil] at hkey
        cases hkey
      refine ⟨fun _ => .done ?_, by simp⟩
      rw [pushStep_extend hkey hne hshort hcut, h, Outcome.mapNext]
  | @next s t keys r h _ ih =>
    obtain ⟨len, key, hkey, hpos, hle, hp, hrest⟩ := pushStep_next h
    have hne : s.rest ≠ [] := by
      intro hnil
      rw [hnil, List.length_nil] at hle
      omega
    have hstep : pushStep (s.extend more) = .next (t.extend more) := by
      rw [pushStep_extend hkey hne hshort hcut, h, Outcome.mapNext]
    have hsplit : s.rest = s.rest.take len ++ t.rest := by rw [hrest, List.take_append_drop]
    rw [hsplit] at hcut
    rw [hsplit, List.append_assoc] at hshort
    obtain ⟨hfired, hquiet⟩ := ih (hp.carried.trans hcarried) hshort.drop hcut.drop
    refine ⟨fun h => .next hstep (hfired h), fun h => ?_⟩
    obtain ⟨⟨hsuffix, hincomplete⟩, hrest'⟩ := hquiet h
    refine ⟨⟨hsuffix.trans ⟨_, hsplit.symm⟩, hincomplete⟩, fun r' hr' => ?_⟩
    exact .next hstep (hrest' r' hr')

theorem cleanCut_first {f : EscapeFilter} {chunk : Bytes} {chunks : List Bytes}
    (hpast : f.carried <:+ past)
    (hcuts : ∀ before after, chunk :: chunks = before ++ after →
      CleanCut (past ++ before.flatten) after.flatten) :
    CleanCut (f.carried ++ chunk) chunks.flatten := by
  obtain ⟨old, rfl⟩ := hpast
  have h := hcuts [chunk] chunks rfl
  rw [List.flatten_singleton, List.append_assoc] at h
  exact h.drop

/-- A run over chunks returns what one push of all of them returns. -/
theorem returns_of_run {f : EscapeFilter} {output : Bytes} {chunks : List Bytes} {keys : List Key}
    {r : Pushed} (h : Run f output chunks keys r)
    (hincomplete : f.carried = [] ∨ nextEscapeKey f.carried = none) (hpast : f.carried <:+ past)
    (hshort : ShortCsi (f.carried ++ chunks.flatten))
    (hcuts : ∀ before after, chunks = before ++ after →
      CleanCut (past ++ before.flatten) after.flatten) :
    Loop.Returns pushStep ⟨{ f with carried := [] }, output, f.carried ++ chunks.flatten⟩ r := by
  induction h generalizing past with
  | @stop f output =>
    rw [List.flatten_nil, List.append_nil]
    refine .done ?_
    rcases hincomplete with hnil | hnone
    · rw [uncarried hnil, pushStep, if_pos hnil]
    · have hne : f.carried ≠ [] := by
        intro hnil
        rw [hnil] at hnone
        cases hnone
      rw [pushStep, if_neg hne, hnone]
      rfl
  | @fire f output chunk chunks keys r h hfired =>
    rw [List.flatten_cons, ← List.append_assoc] at hshort ⊢
    exact (extend_of_emits h.2 rfl hshort (cleanCut_first hpast hcuts)).1 hfired
  | @goOn f output chunk chunks keys more r r' h hfired _ ih =>
    rw [List.flatten_cons, ← List.append_assoc] at hshort ⊢
    have hcut := cleanCut_first hpast hcuts
    obtain ⟨⟨⟨front, hsuffix⟩, hincomplete'⟩, hrest⟩ :=
      (extend_of_emits h.2 rfl hshort hcut).2 hfired
    have hpast' : r.filter.carried <:+ past ++ chunk := by
      obtain ⟨old, hold⟩ := hpast
      refine ⟨old ++ front, ?_⟩
      rw [List.append_assoc, hsuffix, ← List.append_assoc, hold]
    have hshort' : ShortCsi (r.filter.carried ++ chunks.flatten) := by
      dsimp only at hsuffix
      rw [← hsuffix, List.append_assoc] at hshort
      exact hshort.drop
    refine hrest r' (ih hincomplete' hpast' hshort' fun before after heq => ?_)
    have := hcuts (chunk :: before) after (by rw [heq, List.cons_append])
    rwa [List.flatten_cons, ← List.append_assoc] at this

/-- A run with one chunk is its push. -/
theorem Run.returns {f : EscapeFilter} {output chunk : Bytes} {keys : List Key} {r : Pushed}
    (h : Run f output [chunk] keys r) :
    Loop.Returns pushStep ⟨{ f with carried := [] }, output, f.carried ++ chunk⟩ r := by
  cases h with
  | fire h => exact (Loop.returns_iff_emits Pushing.key).mpr ⟨_, h.2⟩
  | @goOn _ _ _ _ _ _ r _ h hfired hrest =>
    cases hrest
    rw [← hfired]
    exact (Loop.returns_iff_emits Pushing.key).mpr ⟨_, h.2⟩

end Cut

/-- How the input is cut into reads changes neither whether the escape fires nor what is sent. -/
theorem cuts_do_not_matter (chunks : List Bytes) (hshort : ShortCsi chunks.flatten)
    (hcuts : ∀ before after, chunks = before ++ after → CleanCut before.flatten after.flatten) :
    (∃ keys r, Run (.new true) [] chunks keys r) ∧
    (∃ keys r, Run (.new true) [] [chunks.flatten] keys r) ∧
    ∀ keys r keys' r', Run (.new true) [] chunks keys r →
      Run (.new true) [] [chunks.flatten] keys' r' → r.fired = r'.fired ∧ r.total = r'.total := by
  refine ⟨exists_run chunks rfl (Or.inl rfl) [], exists_run _ rfl (Or.inl rfl) [], ?_⟩
  intro keys r keys' r' h h'
  have hr := returns_of_run h (Or.inl rfl) List.suffix_rfl hshort hcuts
  rw [hr.unique h'.returns]
  exact ⟨rfl, rfl⟩

/-- A cut within the sequence of a `~`. -/
theorem cuts_do_not_matter_tilde :
    ShortCsi [0x1b, 0x5b, 0x31, 0x32, 0x36, 0x75] ∧
    ∃ keys r keys' r', Run (.new true) [] [[0x1b, 0x5b, 0x31], [0x32, 0x36, 0x75]] keys r ∧
      Run (.new true) [] [[0x1b, 0x5b, 0x31, 0x32, 0x36, 0x75]] keys' r' ∧
      r.fired = r'.fired ∧ r.total = r'.total := by
  have hshort : ShortCsi [0x1b, 0x5b, 0x31, 0x32, 0x36, 0x75] := by
    intro front rest heq
    have hlen := congrArg List.length heq
    have := (List.takeWhile_sublist isCsiParam (l := rest)).length_le
    simp only [List.length_append, List.length_cons, List.length_nil] at hlen
    omega
  have hcuts : ∀ before after, [[0x1b, 0x5b, 0x31], [0x32, 0x36, 0x75]] = before ++ after →
      CleanCut before.flatten after.flatten := by
    intro before after heq front rest hpast hnext
    have hlast := congrArg List.getLast? hpast
    rcases before with _ | ⟨a, _ | ⟨b, before⟩⟩
    · simp at hpast
    · obtain ⟨rfl, -⟩ := List.cons.inj heq
      simp at hlast
    · obtain ⟨rfl, htail⟩ := List.cons.inj heq
      obtain ⟨rfl, hnil⟩ := List.cons.inj htail
      obtain ⟨-, rfl⟩ := List.append_eq_nil_iff.mp hnil.symm
      cases hnext
  obtain ⟨⟨keys, r, h⟩, ⟨keys', r', h'⟩, hsame⟩ :=
    cuts_do_not_matter [[0x1b, 0x5b, 0x31], [0x32, 0x36, 0x75]] hshort hcuts
  exact ⟨hshort, keys, r, keys', r', h, h', hsame keys r keys' r' h h'⟩

end Hush.Session
