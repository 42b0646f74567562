import Hush.Lib.Loop
import Hush.Lib.Text
import Hush.Lib.Trace
import Hush.Lib.Utf8
import Mathlib.Data.List.TakeWhile

/-! The `<Enter>~.` filter on terminal input: no byte is lost, doubled or moved. -/
namespace Hush.Session
open Hush.Lib

abbrev Bytes := List UInt8

inductive EscapeKey
  | enter
  | tilde
  | dot
  | other
  /-- No key press: releases, modifier keys alone, focus and mouse reports. -/
  | ignore
  deriving DecidableEq, Repr

/-- `held` is the input since a `~` at line start, `carried` an incomplete CSI sequence. -/
structure EscapeFilter where
  enabled : Bool
  atLineStart : Bool
  held : Bytes
  carried : Bytes
  deriving DecidableEq, Repr

def EscapeFilter.new (enabled : Bool) : EscapeFilter := ⟨enabled, true, [], []⟩

def maxPartialCsiLen : Nat := 256

def kittyModShift : UInt32 := 1
def kittyModCapsLock : UInt32 := 64
def kittyModNumLock : UInt32 := 128
def kittyEventRelease : UInt32 := 3
def kittyKeyCapsLock : UInt32 := 57358
def kittyKeyNumLock : UInt32 := 57360
def kittyKeyKpEnter : UInt32 := 57414
def kittyKeyLeftShift : UInt32 := 57441
def kittyKeyIsoLevel5Shift : UInt32 := 57454

def parseU32 (field : List Char) : Option UInt32 :=
  (Text.parseUnsigned 32 field).map UInt32.ofNat

/-- A field that is missing or empty has its default. -/
def number (field : Option (List Char)) (default : UInt32) : Option UInt32 :=
  match field with
  | none | some [] => some default
  | some field => parseU32 field

/-- `CSI key[:shifted[:base]] [; modifiers[:event] [; text]] u`. -/
def classifyKittyKey (params : Bytes) : Option EscapeKey := do
  let fields := (← Utf8.decode params).splitOn ';'
  let keys := (← fields[0]?).splitOn ':'
  let key ← number keys[0]? 0
  let shifted := keys[1]?.bind parseU32
  let modifiers := (fields[1]?.getD []).splitOn ':'
  let mods ← number modifiers[0]? 1
  let mods := (if mods = 0 then 0 else mods - 1) &&& ~~~(kittyModCapsLock ||| kittyModNumLock)
  let event ← number modifiers[1]? 1
  if event = kittyEventRelease ∨ (kittyKeyCapsLock ≤ key ∧ key ≤ kittyKeyNumLock) ∨
      (kittyKeyLeftShift ≤ key ∧ key ≤ kittyKeyIsoLevel5Shift) then
    return .ignore
  if key = '\r'.val ∨ key = kittyKeyKpEnter then
    return .enter
  let ch : Option UInt32 :=
    match fields[2]? with
    | some text => if ':' ∈ text then none else parseU32 text
    | none =>
      if mods &&& ~~~kittyModShift ≠ 0 then none
      -- only the unshifted key is reported: on a US layout `~` is Shift and a backtick
      else if mods &&& kittyModShift ≠ 0 then
        shifted.or (if key = '\x60'.val then some '~'.val else none)
      else some key
  return match ch with
    | some ch => if ch = '~'.val then .tilde else if ch = '.'.val then .dot else .other
    | none => .other

/-- Focus reports and private-prefixed reports are no keys. -/
def classifyCsi (params : Bytes) (finalByte : UInt8) : EscapeKey :=
  if params = [] ∧ (finalByte = 'I'.toUInt8 ∨ finalByte = 'O'.toUInt8) then .ignore
  else if params.head?.any fun b => b ∈ ['<', '=', '>', '?'].map Char.toUInt8 then .ignore
  else if finalByte = 'u'.toUInt8 then (classifyKittyKey params).getD .other
  else .other

def isCsiParam (byte : UInt8) : Bool := 0x20 ≤ byte && byte ≤ 0x3f

def isCsiFinal (byte : UInt8) : Bool := 0x40 ≤ byte && byte ≤ 0x7e

/-- A key that is one byte; a lone ESC is passed on as it is. -/
def classifyByte (byte : UInt8) : EscapeKey :=
  if byte = '\r'.toUInt8 ∨ byte = '\n'.toUInt8 then .enter
  else if byte = '~'.toUInt8 then .tilde
  else if byte = '.'.toUInt8 then .dot
  else .other

/-- The length and class of the next key, or `none` for an incomplete CSI sequence. -/
def nextEscapeKey (input : Bytes) : Option (Nat × EscapeKey) :=
  match input with
  | 0x1b :: 0x5b :: rest =>
    let params := rest.takeWhile isCsiParam
    match rest.dropWhile isCsiParam with
    | byte :: _ =>
      if isCsiFinal byte then some (params.length + 3, classifyCsi params byte)
      -- malformed: what came so far passes, and this byte starts over
      else some (params.length + 2, .other)
    | [] => if maxPartialCsiLen < input.length then some (input.length, .other) else none
  | byte :: _ => some (1, classifyByte byte)
  | [] => some (1, .other)

/-- What a call returns, with the filter and the output it leaves. -/
structure Pushed where
  fired : Bool
  filter : EscapeFilter
  output : Bytes
  deriving DecidableEq, Repr

/-- `handle` once nothing is held back any more. -/
def EscapeFilter.pass (f : EscapeFilter) (key : EscapeKey) (bytes output : Bytes) : Pushed :=
  if key = .tilde ∧ f.atLineStart then ⟨false, { f with held := f.held ++ bytes }, output⟩
  else if key = .ignore then ⟨false, f, output ++ bytes⟩
  else ⟨false, { f with atLineStart := key = .enter }, output ++ bytes⟩

def EscapeFilter.handle (f : EscapeFilter) (key : EscapeKey) (bytes output : Bytes) : Pushed :=
  if f.held ≠ [] then
    match key with
    | .dot => ⟨true, f, output⟩
    | .ignore => ⟨false, { f with held := f.held ++ bytes }, output⟩
    | .enter | .tilde | .other =>
      EscapeFilter.pass { f with held := [], atLineStart := false } key bytes (output ++ f.held)
  else f.pass key bytes output

/-- The loop of `push`; `rest` is `input[pos..]`. -/
structure Pushing where
  filter : EscapeFilter
  output : Bytes
  rest : Bytes

def pushStep (s : Pushing) : Outcome Pushing Pushed :=
  if s.rest = [] then .done ⟨false, s.filter, s.output⟩
  else match nextEscapeKey s.rest with
    | none =>
      .done ⟨false, { s.filter with carried := s.filter.carried ++ s.rest }, s.output⟩
    | some (len, key) =>
      let handled := s.filter.handle key (s.rest.take len) s.output
      if handled.fired then .done handled
      else .next ⟨handled.filter, handled.output, s.rest.drop len⟩

/-- `push` returns this. -/
def EscapeFilter.Pushes (f : EscapeFilter) (input output : Bytes) (r : Pushed) : Prop :=
  if f.enabled then
    Loop.Returns pushStep ⟨{ f with carried := [] }, output, f.carried ++ input⟩ r
  else r = ⟨false, f, output ++ input⟩

def EscapeFilter.finish (f : EscapeFilter) (output : Bytes) : Bytes :=
  output ++ f.held ++ f.carried

theorem nextEscapeKey_bounds {input : Bytes} {len : Nat} {key : EscapeKey}
    (h : nextEscapeKey input = some (len, key)) (hne : input ≠ []) :
    0 < len ∧ len ≤ input.length := by
  unfold nextEscapeKey at h
  split at h
  · next rest =>
    have hlen : (rest.takeWhile isCsiParam).length + (rest.dropWhile isCsiParam).length =
        rest.length := by
      rw [← List.length_append, List.takeWhile_append_dropWhile]
    split at h
    · next byte more hdrop =>
      rw [hdrop, List.length_cons] at hlen
      split at h <;> · cases h; simp only [List.length_cons]; omega
    · split at h
      · cases h; simp
      · cases h
  · cases h
    simp
  · exact absurd rfl hne

/-- Only a short CSI sequence is carried over to the next read. -/
theorem nextEscapeKey_none {input : Bytes} (h : nextEscapeKey input = none) :
    input.length ≤ maxPartialCsiLen := by
  unfold nextEscapeKey at h
  grind

theorem nextEscapeKey_csi {params : Bytes} {byte : UInt8} (hp : ∀ b ∈ params, isCsiParam b)
    (hb : isCsiParam byte = false) (more : Bytes) :
    nextEscapeKey (0x1b :: 0x5b :: (params ++ byte :: more)) =
      if isCsiFinal byte then some (params.length + 3, classifyCsi params byte)
      else some (params.length + 2, .other) := by
  simp only [nextEscapeKey, List.takeWhile_append_of_pos hp, List.dropWhile_append_of_pos hp,
    List.takeWhile_cons, List.dropWhile_cons, hb, Bool.false_eq_true, if_false, List.append_nil]

/-- A key that is known as one does not depend on the bytes after it. -/
theorem nextEscapeKey_take_append {input : Bytes} {len : Nat} {key : EscapeKey}
    (h : nextEscapeKey input = some (len, key)) (hkey : key ≠ .other) (more : Bytes) :
    nextEscapeKey (input.take len ++ more) = some (len, key) := by
  unfold nextEscapeKey at h
  split at h
  · next rest =>
    split at h
    · next byte tail hdrop =>
      have hb : isCsiParam byte = false := by
        have := List.head_dropWhile_not isCsiParam (l := rest) (by simp [hdrop])
        simpa [hdrop] using this
      have hp : ∀ b ∈ rest.takeWhile isCsiParam, isCsiParam b := fun b => List.mem_takeWhile_imp
      have hrest := List.takeWhile_append_dropWhile (p := isCsiParam) (l := rest)
      rw [hdrop] at hrest
      split at h
      · next hfinal =>
        cases h
        generalize rest.takeWhile isCsiParam = params at *
        subst hrest
        have htake : (0x1b :: 0x5b :: (params ++ byte :: tail)).take (params.length + 3) =
            0x1b :: 0x5b :: (params ++ [byte]) := by
          simp [List.take_append, List.take_of_length_le]
        rw [htake, List.cons_append, List.cons_append, List.append_assoc, List.singleton_append,
          nextEscapeKey_csi hp hb, if_pos hfinal]
      · cases h; exact absurd rfl hkey
    · split at h
      · cases h; exact absurd rfl hkey
      · cases h
  · next byte tail hcsi =>
    cases h
    have hesc : byte ≠ 0x1b := by
      rintro rfl
      exact hkey rfl
    rw [List.take_succ_cons, List.take_zero, List.singleton_append, nextEscapeKey]
    intro rest hbyte
    exact absurd hbyte hesc
  · cases h; exact absurd rfl hkey

/-- What is held back starts with a `~`. -/
def EscapeFilter.HoldsTilde (f : EscapeFilter) : Prop :=
  f.held = [] ∨ ∃ len, nextEscapeKey f.held = some (len, .tilde)

/-- A key went through the filter: all bytes are still there, in order. -/
structure Passed (f : EscapeFilter) (key : EscapeKey) (bytes output : Bytes) (r : Pushed) :
    Prop where
  kept : r.output ++ r.filter.held = output ++ f.held ++ bytes
  enabled : r.filter.enabled = f.enabled
  carried : r.filter.carried = f.carried
  held : r.filter.held = [] ∨ (r.filter.held = bytes ∧ key = .tilde) ∨
    (r.filter.held = f.held ++ bytes ∧ f.held ≠ [])

theorem EscapeFilter.pass_passed {f : EscapeFilter} (hheld : f.held = []) (key : EscapeKey)
    (bytes output : Bytes) : Passed f key bytes output (f.pass key bytes output) := by
  unfold EscapeFilter.pass
  split
  · next h => exact ⟨by simp [hheld], rfl, rfl, Or.inr (Or.inl ⟨by simp [hheld], h.1⟩)⟩
  · split <;> exact ⟨by simp [hheld], rfl, rfl, Or.inl hheld⟩

theorem EscapeFilter.pass_fired (f : EscapeFilter) (key : EscapeKey) (bytes output : Bytes) :
    (f.pass key bytes output).fired = false := by
  unfold EscapeFilter.pass
  split
  · rfl
  · split <;> rfl

theorem EscapeFilter.handle_fired {f : EscapeFilter} {key : EscapeKey} {bytes output : Bytes}
    (h : (f.handle key bytes output).fired = true) :
    key = .dot ∧ f.held ≠ [] ∧ f.handle key bytes output = ⟨true, f, output⟩ := by
  unfold EscapeFilter.handle at h ⊢
  split at h
  · next hheld =>
    cases key with
    | dot => exact ⟨rfl, hheld, by simp [hheld]⟩
    | ignore => cases h
    | enter | tilde | other =>
      rw [EscapeFilter.pass_fired] at h
      cases h
  · rw [EscapeFilter.pass_fired] at h
    cases h

theorem EscapeFilter.handle_passed {f : EscapeFilter} {key : EscapeKey} {bytes output : Bytes}
    (h : (f.handle key bytes output).fired = false) :
    Passed f key bytes output (f.handle key bytes output) := by
  unfold EscapeFilter.handle at h ⊢
  split at h
  · next hheld =>
    rw [if_pos hheld]
    cases key with
    | dot => cases h
    | ignore => exact ⟨by simp, rfl, rfl, Or.inr (Or.inr ⟨rfl, hheld⟩)⟩
    | enter | tilde | other =>
      -- what was held is out, and the key is then handled with nothing held
      obtain ⟨hkept, henabled, hcarried, hnew⟩ :=
        EscapeFilter.pass_passed (f := { f with held := [], atLineStart := false }) rfl _ bytes
          (output ++ f.held)
      refine ⟨?_, henabled, hcarried, ?_⟩
      · simpa using hkept
      · rcases hnew with hnew | hnew | ⟨_, hnew⟩
        · exact Or.inl hnew
        · exact Or.inr (Or.inl hnew)
        · exact absurd rfl hnew
  · next hheld =>
    rw [if_neg hheld]
    exact EscapeFilter.pass_passed (not_not.mp hheld) key bytes output

theorem Passed.holdsTilde {f : EscapeFilter} {key : EscapeKey} {input output : Bytes} {len : Nat}
    {r : Pushed} (hp : Passed f key (input.take len) output r)
    (hkey : nextEscapeKey input = some (len, key)) (hf : f.HoldsTilde) : r.filter.HoldsTilde := by
  rcases hp.held with hnew | ⟨hnew, rfl⟩ | ⟨hnew, hheld⟩
  · exact Or.inl hnew
  · have h := nextEscapeKey_take_append hkey (by decide) []
    rw [List.append_nil] at h
    exact Or.inr ⟨len, hnew ▸ h⟩
  · obtain ⟨n, hn⟩ := hf.resolve_left hheld
    have h := nextEscapeKey_take_append hn (by decide) (f.held.drop n ++ input.take len)
    rw [← List.append_assoc, List.take_append_drop] at h
    exact Or.inr ⟨n, hnew ▸ h⟩

/-- One iteration of `push` takes a key off the input and passes it on. -/
theorem pushStep_next {s t : Pushing} (h : pushStep s = .next t) :
    ∃ len key, nextEscapeKey s.rest = some (len, key) ∧ 0 < len ∧ len ≤ s.rest.length ∧
      Passed s.filter key (s.rest.take len) s.output ⟨false, t.filter, t.output⟩ ∧
      t.rest = s.rest.drop len := by
  simp only [pushStep] at h
  split at h
  · cases h
  · next hrest =>
    split at h
    · cases h
    · next len key hkey =>
      obtain ⟨hpos, hle⟩ := nextEscapeKey_bounds hkey hrest
      split at h
      · cases h
      · next hfired =>
        have hp := EscapeFilter.handle_passed (Bool.not_eq_true _ ▸ hfired)
        cases h
        exact ⟨len, key, hkey, hpos, hle, ⟨hp.kept, hp.enabled, hp.carried, hp.held⟩, rfl⟩

/-- `push` ends when nothing is left, at an incomplete sequence, or at the `.` of an escape. -/
theorem pushStep_done {s : Pushing} {r : Pushed} (h : pushStep s = .done r) :
    (s.rest = [] ∧ r = ⟨false, s.filter, s.output⟩) ∨
    (nextEscapeKey s.rest = none ∧
      r = ⟨false, { s.filter with carried := s.filter.carried ++ s.rest }, s.output⟩) ∨
    (∃ len, nextEscapeKey s.rest = some (len, .dot) ∧ s.filter.held ≠ [] ∧
      r = ⟨true, s.filter, s.output⟩) := by
  simp only [pushStep] at h
  split at h
  · next hrest =>
    cases h
    exact Or.inl ⟨hrest, rfl⟩
  · split at h
    · next hkey =>
      cases h
      exact Or.inr (Or.inl ⟨hkey, rfl⟩)
    · next len key hkey =>
      split at h
      · next hfired =>
        obtain ⟨rfl, hheld, heq⟩ := EscapeFilter.handle_fired hfired
        cases h
        exact Or.inr (Or.inr ⟨len, hkey, hheld, heq⟩)
      · cases h

/-- What every iteration of `push` keeps, for the input from its start. -/
structure Pushing.Inv (input : Bytes) (s : Pushing) : Prop where
  kept : s.output ++ s.filter.held ++ s.rest = input
  enabled : s.filter.enabled = true
  carried : s.filter.carried = []
  held : s.filter.HoldsTilde

theorem Pushing.inv_step {input : Bytes} {s t : Pushing} (hs : s.Inv input)
    (h : pushStep s = .next t) : t.Inv input := by
  obtain ⟨len, key, hkey, -, -, hp, hrest⟩ := pushStep_next h
  refine ⟨?_, hp.enabled.trans hs.enabled, hp.carried.trans hs.carried, hp.holdsTilde hkey hs.held⟩
  have hkept : t.output ++ t.filter.held = s.output ++ s.filter.held ++ s.rest.take len := hp.kept
  rw [hkept, hrest, List.append_assoc _ (s.rest.take len), List.take_append_drop, hs.kept]

/-- Every push ends, with one result. -/
theorem EscapeFilter.exists_pushes (f : EscapeFilter) (input output : Bytes) :
    ∃ r, f.Pushes input output r := by
  unfold EscapeFilter.Pushes
  split
  · refine Loop.exists_returns (fun s => s.rest.length) ?_ _
    intro s t h
    obtain ⟨len, key, -, hpos, hle, -, hrest⟩ := pushStep_next h
    rw [hrest, List.length_drop]
    omega
  · exact ⟨_, rfl⟩

theorem EscapeFilter.Pushes.unique {f : EscapeFilter} {input output : Bytes} {r r' : Pushed}
    (h : f.Pushes input output r) (h' : f.Pushes input output r') : r = r' := by
  unfold EscapeFilter.Pushes at h h'
  split at h
  · next he =>
    rw [if_pos he] at h'
    exact h.unique h'
  · next he =>
    rw [if_neg he] at h'
    exact h.trans h'.symm

/-- What a push leaves: nothing is lost, and if it fires, at the `.` after a held `~`. -/
theorem EscapeFilter.Pushes.conserves {f : EscapeFilter} {input output : Bytes} {r : Pushed}
    (h : f.Pushes input output r) (henabled : f.enabled = true) (hf : f.HoldsTilde) :
    r.filter.enabled = true ∧ r.filter.HoldsTilde ∧
    (r.fired = false → r.filter.carried.length ≤ maxPartialCsiLen ∧
      r.output ++ r.filter.held ++ r.filter.carried = output ++ f.held ++ f.carried ++ input) ∧
    (r.fired = true → r.filter.held ≠ [] ∧ ∃ rest len, nextEscapeKey rest = some (len, .dot) ∧
      r.output ++ r.filter.held ++ rest = output ++ f.held ++ f.carried ++ input) := by
  rw [EscapeFilter.Pushes, if_pos henabled] at h
  obtain ⟨t, ht, hdone⟩ := h.last
  have hinv : t.Inv (output ++ f.held ++ f.carried ++ input) :=
    ht.invariant ⟨by simp, henabled, rfl, hf⟩ Pushing.inv_step
  rcases pushStep_done hdone with ⟨hrest, rfl⟩ | ⟨hkey, rfl⟩ | ⟨len, hkey, hheld, rfl⟩
  · refine ⟨hinv.enabled, hinv.held, fun _ => ⟨by simp [hinv.carried], ?_⟩, by simp⟩
    rw [← hinv.kept, hinv.carried, hrest]
  · refine ⟨hinv.enabled, hinv.held, fun _ => ?_, by simp⟩
    simp only [hinv.carried, List.nil_append]
    exact ⟨nextEscapeKey_none hkey, hinv.kept⟩
  · exact ⟨hinv.enabled, hinv.held, by simp, fun _ => ⟨hheld, t.rest, len, hkey, hinv.kept⟩⟩

/-- The stdin pump between two reads: its filter, and what it has sent. -/
structure Pump where
  filter : EscapeFilter
  sent : Bytes

def Pump.new (enabled : Bool) : Pump := ⟨.new enabled, []⟩

/-- A read that does not end the pump. -/
def Pump.Reads (p : Pump) (chunk : Bytes) (q : Pump) : Prop :=
  ∃ out, p.filter.Pushes chunk [] ⟨false, q.filter, out⟩ ∧ q.sent = p.sent ++ out

/-- What the pump has read is sent, held or carried. -/
structure Pump.Inv (enabled : Bool) (input : Bytes) (p : Pump) : Prop where
  enabled_eq : p.filter.enabled = enabled
  kept : p.sent ++ p.filter.held ++ p.filter.carried = input
  carried : p.filter.carried.length ≤ maxPartialCsiLen
  disabled : enabled = false → p.filter.held = [] ∧ p.filter.carried = []
  held : p.filter.HoldsTilde

theorem Pump.inv_new (enabled : Bool) : (Pump.new enabled).Inv enabled [] :=
  ⟨rfl, rfl, by simp [Pump.new, EscapeFilter.new], fun _ => ⟨rfl, rfl⟩, Or.inl rfl⟩

theorem Pump.inv_reads {enabled : Bool} {input chunk : Bytes} {p q : Pump}
    (hp : p.Inv enabled input) (h : p.Reads chunk q) : q.Inv enabled (input ++ chunk) := by
  obtain ⟨out, hpush, hsent⟩ := h
  cases enabled with
  | true =>
    obtain ⟨henabled, hheld, hkept, -⟩ := hpush.conserves hp.enabled_eq hp.held
    obtain ⟨hcarried, hkept⟩ := hkept rfl
    refine ⟨henabled, ?_, hcarried, by simp, hheld⟩
    rw [hsent, List.append_assoc, List.append_assoc, ← List.append_assoc out, hkept, ← hp.kept]
    simp
  | false =>
    obtain ⟨hheld, hcarried⟩ := hp.disabled rfl
    rw [EscapeFilter.Pushes, if_neg (by simp [hp.enabled_eq])] at hpush
    obtain ⟨filter, sent⟩ := q
    cases hpush
    refine ⟨hp.enabled_eq, ?_, hp.carried, hp.disabled, hp.held⟩
    rw [hsent, ← hp.kept, hheld, hcarried]
    simp

theorem Pump.inv_trace {enabled : Bool} {input : Bytes} {chunks : List Bytes} {p q : Pump}
    (hp : p.Inv enabled input) (h : Trace Pump.Reads p chunks q) :
    q.Inv enabled (input ++ chunks.flatten) := by
  induction h generalizing input with
  | refl => simpa using hp
  | stepL hread _ ih => simpa using ih (Pump.inv_reads hp hread)

/-- The filter loses, doubles and moves nothing, whatever the reads are cut into: what is not
sent is held or carried, and an escape fires right before a `.`, with a `~` held. -/
theorem input_conserved (enabled : Bool) (chunks : List Bytes) (p : Pump)
    (h : Trace Pump.Reads (.new enabled) chunks p) :
    (p.sent ++ p.filter.held ++ p.filter.carried = chunks.flatten ∧
      p.filter.carried.length ≤ 256 ∧
      (enabled = false → p.filter.held = [] ∧ p.filter.carried = [])) ∧
    p.sent ++ p.filter.finish [] = chunks.flatten ∧
    (∀ chunk f out, p.filter.Pushes chunk [] ⟨true, f, out⟩ →
      ∃ rest, p.sent ++ out ++ f.held ++ rest = (chunks ++ [chunk]).flatten ∧
        (∃ len, nextEscapeKey rest = some (len, .dot)) ∧
        ∃ len, nextEscapeKey f.held = some (len, .tilde)) ∧
    ∀ (f : EscapeFilter) (input output : Bytes), ∃! r, f.Pushes input output r := by
  have hinv := Pump.inv_trace (Pump.inv_new enabled) h
  rw [List.nil_append] at hinv
  refine ⟨⟨hinv.kept, hinv.carried, hinv.disabled⟩, ?_, ?_, ?_⟩
  · simp [EscapeFilter.finish, ← hinv.kept]
  · intro chunk f out hpush
    cases enabled with
    | true =>
      obtain ⟨-, htilde, -, hfired⟩ := hpush.conserves hinv.enabled_eq hinv.held
      obtain ⟨hheld, rest, len, hkey, hkept⟩ := hfired rfl
      refine ⟨rest, ?_, ⟨len, hkey⟩, htilde.resolve_left hheld⟩
      rw [List.append_assoc, List.append_assoc, ← List.append_assoc out, hkept, List.flatten_append,
        ← hinv.kept]
      simp
    | false =>
      rw [EscapeFilter.Pushes, if_neg (by simp [hinv.enabled_eq])] at hpush
      simp at hpush
  · intro f input output
    obtain ⟨r, hr⟩ := f.exists_pushes input output
    exact ⟨r, hr, fun r' hr' => hr'.unique hr⟩

/-- `CSI 126 u` in two reads is held as a `~`, and the `.` of the third read fires. -/
theorem input_conserved_kitty_tilde :
    ∃ p : Pump, Trace Pump.Reads (.new true) [[0x1b, 0x5b, 0x31], [0x32, 0x36, 0x75]] p ∧
      p.sent ++ p.filter.finish [] = [0x1b, 0x5b, 0x31, 0x32, 0x36, 0x75] ∧
      ∃ rest, p.sent ++ [] ++ p.filter.held ++ rest =
          [0x1b, 0x5b, 0x31, 0x32, 0x36, 0x75, 0x2e] ∧
        (∃ len, nextEscapeKey rest = some (len, .dot)) ∧
        ∃ len, nextEscapeKey p.filter.held = some (len, .tilde) := by
  let p : Pump := ⟨⟨true, true, [0x1b, 0x5b, 0x31, 0x32, 0x36, 0x75], []⟩, []⟩
  have htrace : Trace Pump.Reads (.new true) [[0x1b, 0x5b, 0x31], [0x32, 0x36, 0x75]] p := by
    refine .stepL (u := ⟨⟨true, true, [], [0x1b, 0x5b, 0x31]⟩, []⟩) ?_ (.single ?_)
    · exact ⟨[], ⟨1, by decide⟩, rfl⟩
    · exact ⟨[], ⟨2, by decide⟩, rfl⟩
  have hfires : p.filter.Pushes [0x2e] [] ⟨true, p.filter, []⟩ := ⟨1, by decide⟩
  obtain ⟨-, hfinish, hfired, -⟩ := input_conserved true _ p htrace
  exact ⟨p, htrace, hfinish, hfired _ _ _ hfires⟩

end Hush.Session
