import Hush.Session.EscapeFilter

/-! Key events of the kitty keyboard protocol: what `classify_csi` makes of an event in any of
its written forms. -/
namespace Hush.Session
open Hush.Lib

inductive KeyAction
  | press
  | repeated
  | release
  deriving DecidableEq, Repr

def KeyAction.code : KeyAction → Nat
  | .press => 1
  | .repeated => 2
  | .release => 3

/-- The mask is written as its successor in 32 bits. -/
abbrev KeyMask := {m : UInt32 // m.toNat < 2 ^ 32 - 1}

/-- `[m+1][:E][;T:...]`; the text has one or more code points. -/
structure KeyDetails where
  mask : Option KeyMask
  action : Option KeyAction
  text : Option (UInt32 × List UInt32)
  deriving DecidableEq

/-- `K[:[S][:[B]]][;details]`: a field may be left out or be written and empty. -/
structure KittyEvent where
  key : UInt32
  alternates : Option (Option UInt32 × Option (Option UInt32))
  details : Option KeyDetails
  deriving DecidableEq

def decimalText (n : Nat) : List Char := Nat.toDigits 10 n

def optionalText (n : Option Nat) : List Char := n.elim [] decimalText

def KeyDetails.maskParts (d : KeyDetails) : List (List Char) :=
  optionalText (d.mask.map fun m => m.val.toNat + 1) ::
    (d.action.map fun a => decimalText a.code).toList

def textParts (text : UInt32 × List UInt32) : List (List Char) :=
  (text.1 :: text.2).map fun t => decimalText t.toNat

def KeyDetails.fields (d : KeyDetails) : List (List Char) :=
  [':'].intercalate d.maskParts :: (d.text.map fun t => [':'].intercalate (textParts t)).toList

namespace KittyEvent

def keyParts (e : KittyEvent) : List (List Char) :=
  decimalText e.key.toNat ::
    (e.alternates.elim [] fun (shifted, base) =>
      optionalText (shifted.map UInt32.toNat) ::
        (base.map fun base => optionalText (base.map UInt32.toNat)).toList)

def fields (e : KittyEvent) : List (List Char) :=
  [':'].intercalate e.keyParts :: e.details.elim [] KeyDetails.fields

/-- The parameter bytes between CSI and the final `u`. -/
def params (e : KittyEvent) : Bytes := Utf8.encode ([';'].intercalate e.fields)

def shifted (e : KittyEvent) : Option UInt32 := e.alternates.bind (·.1)

def mask (e : KittyEvent) : UInt32 := ((e.details.bind (·.mask)).map (·.val)).getD 0

def action (e : KittyEvent) : KeyAction := (e.details.bind (·.action)).getD .press

def text (e : KittyEvent) : Option (UInt32 × List UInt32) := e.details.bind (·.text)

/-- The character that an event types: bit 0 is shift, bits 6 and 7 are caps and num lock. -/
def character (e : KittyEvent) : Option UInt32 :=
  match e.text with
  | some (c, []) => some c
  | some (_, _ :: _) => none
  | none =>
    if e.mask &&& ~~~(1 ||| 64 ||| 128) ≠ 0 then none
    else if e.mask &&& 1 ≠ 0 then e.shifted.or (if e.key = 96 then some 126 else none)
    else some e.key

/-- The class of an event by what it types. -/
def keyClass (e : KittyEvent) : EscapeKey :=
  if e.action = .release ∨ (57358 ≤ e.key ∧ e.key ≤ 57360) ∨ (57441 ≤ e.key ∧ e.key ≤ 57454) then
    .ignore
  else if e.key = 13 ∨ e.key = 57414 then .enter
  else if e.character = some 126 then .tilde
  else if e.character = some 46 then .dot
  else .other

/-- The same event with another mask. -/
def withMask (e : KittyEvent) (m : KeyMask) : KittyEvent :=
  { e with details := some { e.details.getD ⟨none, none, none⟩ with mask := some m } }

end KittyEvent

theorem decimalText_ne_nil (n : Nat) : decimalText n ≠ [] := Nat.toDigits_ne_nil

theorem parseU32_decimalText {n : Nat} (h : n < 2 ^ 32) :
    parseU32 (decimalText n) = some (UInt32.ofNat n) := by
  rw [parseU32, decimalText, Text.parseUnsigned_toDigits h, Option.map_some]

theorem number_decimalText {n : Nat} (h : n < 2 ^ 32) (default : UInt32) :
    number (some (decimalText n)) default = some (UInt32.ofNat n) := by
  rw [number, parseU32_decimalText h]
  exact decimalText_ne_nil n

/-- A separator is in no number, written or left out. -/
theorem notMem_optionalText {c : Char} (hc : c.isDigit = false) (n : Option Nat) :
    c ∉ optionalText n := by
  cases n with
  | none => simp [optionalText]
  | some n => exact Text.notMem_toDigits hc n

theorem notMem_intercalate {α : Type} {a sep : α} (h : a ≠ sep) {parts : List (List α)}
    (hparts : ∀ p ∈ parts, a ∉ p) : a ∉ [sep].intercalate parts := by
  induction parts with
  | nil => simp
  | cons p parts ih =>
    obtain ⟨hp, hrest⟩ := List.forall_mem_cons.mp hparts
    cases parts with
    | nil => rwa [List.intercalate_singleton]
    | cons q parts =>
      rw [List.intercalate_cons_cons]
      simp only [List.mem_append, List.mem_singleton]
      rintro ((hmem | hmem) | hmem)
      exacts [hp hmem, h hmem, ih hrest hmem]

section Separators
variable {c : Char} (hc : c.isDigit = false)
include hc

theorem notMem_keyParts (e : KittyEvent) : ∀ p ∈ e.keyParts, c ∉ p := by
  have hopt := notMem_optionalText hc
  rcases e with ⟨key, _ | ⟨s, _ | b⟩, details⟩ <;>
    simp [KittyEvent.keyParts, hopt, decimalText, Text.notMem_toDigits hc]

theorem notMem_maskParts (d : KeyDetails) : ∀ p ∈ d.maskParts, c ∉ p := by
  have hopt := notMem_optionalText hc
  rcases d with ⟨mask, _ | action, text⟩ <;>
    simp [KeyDetails.maskParts, hopt, decimalText, Text.notMem_toDigits hc]

theorem notMem_textParts (text : UInt32 × List UInt32) : ∀ p ∈ textParts text, c ∉ p := by
  simp [textParts, decimalText, Text.notMem_toDigits hc]

end Separators

namespace KittyEvent

theorem notMem_fields {c : Char} (hc : c.isDigit = false) (hcolon : c ≠ ':') (e : KittyEvent) :
    ∀ f ∈ e.fields, c ∉ f := by
  have hkey : c ∉ [':'].intercalate e.keyParts :=
    notMem_intercalate hcolon (notMem_keyParts hc e)
  rcases e with ⟨key, alternates, _ | ⟨mask, action, text⟩⟩
  · simpa [fields] using hkey
  · have hmask : c ∉ [':'].intercalate (KeyDetails.maskParts ⟨mask, action, text⟩) :=
      notMem_intercalate hcolon (notMem_maskParts hc _)
    have htext (t : UInt32 × List UInt32) : c ∉ [':'].intercalate (textParts t) :=
      notMem_intercalate hcolon (notMem_textParts hc t)
    cases text <;> simp_all [fields, KeyDetails.fields]

theorem split_fields (e : KittyEvent) :
    ([';'].intercalate e.fields).splitOn ';' = e.fields :=
  List.splitOn_intercalate ';' (notMem_fields rfl (by decide) e) (by simp [fields])

theorem split_key (e : KittyEvent) :
    ([':'].intercalate e.keyParts).splitOn ':' = e.keyParts :=
  List.splitOn_intercalate ':' (notMem_keyParts rfl e) (by simp [keyParts])

theorem split_mask (e : KittyEvent) :
    (e.fields[1]?.getD []).splitOn ':' = e.details.elim [[]] KeyDetails.maskParts := by
  rcases e with ⟨key, alternates, _ | d⟩
  · rfl
  · exact List.splitOn_intercalate ':' (notMem_maskParts rfl d) (by simp [KeyDetails.maskParts])

theorem number_key (e : KittyEvent) : number e.keyParts[0]? 0 = some e.key := by
  simpa [keyParts] using number_decimalText e.key.toNat_lt 0

theorem parse_shifted (e : KittyEvent) : e.keyParts[1]?.bind parseU32 = e.shifted := by
  rcases e with ⟨key, _ | ⟨_ | s, base⟩, details⟩
  · rfl
  · rfl
  · simpa [keyParts, optionalText, shifted] using parseU32_decimalText s.toNat_lt

/-- The mask comes back from its successor, and is 0 when it is left out. -/
theorem number_mask (e : KittyEvent) :
    number (e.details.elim [[]] KeyDetails.maskParts)[0]? 1 = some (e.mask + 1) := by
  rcases e with ⟨key, alternates, _ | ⟨_ | ⟨m, hm⟩, action, text⟩⟩
  · rfl
  · rfl
  · have hlt : m.toNat + 1 < 2 ^ 32 := by omega
    simpa [KeyDetails.maskParts, optionalText, mask] using number_decimalText hlt 1

theorem mask_succ_ne_zero (e : KittyEvent) : e.mask + 1 ≠ 0 := by
  have hlt : e.mask.toNat < 2 ^ 32 - 1 := by
    rcases e with ⟨key, alternates, _ | ⟨_ | ⟨m, hm⟩, action, text⟩⟩
    exacts [Nat.zero_lt_succ _, Nat.zero_lt_succ _, hm]
  intro h
  have := congrArg UInt32.toNat h
  rw [UInt32.toNat_add] at this
  simp only [UInt32.reduceToNat] at this
  omega

theorem number_action (e : KittyEvent) :
    number (e.details.elim [[]] KeyDetails.maskParts)[1]? 1 =
      some (UInt32.ofNat e.action.code) := by
  rcases e with ⟨key, alternates, _ | ⟨mask, _ | act, text⟩⟩
  · rfl
  · rfl
  · have hlt : act.code < 2 ^ 32 := by cases act <;> decide
    simpa [KeyDetails.maskParts, action] using number_decimalText hlt 1

theorem text_field (e : KittyEvent) :
    e.fields[2]? = e.text.map fun t => [':'].intercalate (textParts t) := by
  rcases e with ⟨key, alternates, _ | ⟨mask, action, _ | t⟩⟩ <;> rfl

/-- Text of several code points is told from one by its `:`. -/
theorem parse_text (c : UInt32) (more : List UInt32) :
    (if ':' ∈ [':'].intercalate (textParts (c, more)) then none
      else parseU32 ([':'].intercalate (textParts (c, more)))) =
      if more = [] then some c else none := by
  cases more with
  | nil =>
    have hcolon : ':' ∉ decimalText c.toNat := Text.colon_notMem_toDigits _
    simpa [textParts, List.intercalate, hcolon] using parseU32_decimalText c.toNat_lt
  | cons d more => simp [textParts, List.intercalate]

theorem and_locks (m : UInt32) :
    (m &&& ~~~(kittyModCapsLock ||| kittyModNumLock)) &&& ~~~kittyModShift =
        m &&& ~~~(1 ||| 64 ||| 128) ∧
      (m &&& ~~~(kittyModCapsLock ||| kittyModNumLock)) &&& kittyModShift = m &&& 1 := by
  constructor <;> rw [UInt32.and_assoc] <;> rfl

theorem classifyKittyKey_params (e : KittyEvent) :
    classifyKittyKey e.params = some e.keyClass := by
  have hkey : e.fields[0]? = some ([':'].intercalate e.keyParts) := rfl
  have hrelease : UInt32.ofNat e.action.code = kittyEventRelease ↔ e.action = .release := by
    cases e.action <;> decide
  simp only [classifyKittyKey, params, Utf8.decode_encode, Option.bind_eq_bind, Option.bind_some,
    split_fields, hkey, split_key, number_key, parse_shifted, split_mask, number_mask,
    number_action, mask_succ_ne_zero, text_field, if_false, UInt32.add_sub_cancel, and_locks,
    hrelease]
  -- what is left is the choice of the character, then the same tests on both sides
  have hcr : '\r'.val = 13 := rfl
  have htilde : '~'.val = 126 := rfl
  have hdot : '.'.val = 46 := rfl
  have hbacktick : '\x60'.val = 96 := rfl
  rw [keyClass, character, hcr, htilde, hdot, hbacktick]
  simp only [kittyKeyCapsLock, kittyKeyNumLock, kittyKeyLeftShift, kittyKeyIsoLevel5Shift,
    kittyKeyKpEnter]
  rcases e.text with _ | ⟨c, _ | ⟨d, more⟩⟩
  · grind
  · simp only [Option.map_some, parse_text, if_true]
    grind
  · simp only [Option.map_some, parse_text, reduceCtorEq, if_false]
    grind

theorem mem_params {e : KittyEvent} {b : UInt8} (h : b ∈ e.params) : 0x30 ≤ b ∧ b ≤ 0x3b := by
  obtain ⟨c, hmem, hb⟩ := List.mem_flatMap.mp h
  have hc : 0x30 ≤ c.val.toNat ∧ c.val.toNat ≤ 0x3b := by
    by_cases hsemi : c = ';'
    · subst hsemi; decide
    by_cases hcolon : c = ':'
    · subst hcolon; decide
    by_cases hd : c.isDigit = true
    · simp only [Char.isDigit, Bool.and_eq_true, decide_eq_true_eq, UInt32.le_iff_toNat_le] at hd
      exact ⟨hd.1, Nat.le_trans hd.2 (by decide)⟩
    · exact absurd hmem (notMem_intercalate hsemi (notMem_fields (by simpa using hd) hcolon e))
  rw [Utf8.encodeChar_ascii (by omega), List.mem_singleton] at hb
  rw [UInt8.le_iff_toNat_le, UInt8.le_iff_toNat_le, hb, Utf8.toNat_ofNat_of_lt (by omega)]
  exact hc

theorem head_params (e : KittyEvent) :
    (e.params.head?.any fun b => b ∈ ['<', '=', '>', '?'].map Char.toUInt8) = false := by
  cases hhead : e.params.head? with
  | none => rfl
  | some b =>
    have hb := (mem_params (List.mem_of_mem_head? hhead)).2
    simp only [Option.any_some, decide_eq_false_iff_not]
    intro hmem
    simp only [List.map_cons, List.map_nil, List.mem_cons, List.not_mem_nil, or_false] at hmem
    rcases hmem with rfl | rfl | rfl | rfl <;> exact absurd hb (by decide)

theorem classifyCsi_params (e : KittyEvent) : classifyCsi e.params 'u'.toUInt8 = e.keyClass := by
  rw [classifyCsi, if_neg (by rintro ⟨-, h⟩; revert h; decide), e.head_params]
  simp [classifyKittyKey_params]

/-- The class depends on the mask through the bits other than the locks. -/
theorem keyClass_withMask {e : KittyEvent} {m : KeyMask}
    (h : m.val ||| (64 ||| 128) = e.mask ||| (64 ||| 128)) :
    (e.withMask m).keyClass = e.keyClass := by
  have hbits (k : UInt32) (hk : (64 ||| 128) &&& k = 0) : m.val &&& k = e.mask &&& k := by
    have hdrop (a : UInt32) : (a ||| (64 ||| 128)) &&& k = a &&& k := by
      have hdistrib : (a ||| (64 ||| 128)) &&& k = a &&& k ||| (64 ||| 128) &&& k :=
        UInt32.toBitVec_inj.mp BitVec.and_or_distrib_right
      rw [hdistrib, hk, UInt32.or_zero]
    rw [← hdrop m.val, h, hdrop]
  have hmask : (e.withMask m).mask = m.val := rfl
  have hrest : (e.withMask m).text = e.text ∧ (e.withMask m).action = e.action := by
    rcases e with ⟨key, alternates, _ | d⟩ <;> exact ⟨rfl, rfl⟩
  have hkey : (e.withMask m).key = e.key ∧ (e.withMask m).shifted = e.shifted := ⟨rfl, rfl⟩
  simp only [keyClass, character, hmask, hrest, hkey, hbits 1 rfl,
    hbits (~~~(1 ||| 64 ||| 128)) rfl]
  rfl

end KittyEvent

/-- Every written form of an event has the class of what the event types, and the lock keys
play no part in it. -/
theorem kitty_events_classified (e : KittyEvent) :
    classifyCsi e.params 'u'.toUInt8 = e.keyClass ∧
      ∀ m : KeyMask, m.val ||| (64 ||| 128) = e.mask ||| (64 ||| 128) →
        classifyCsi (e.withMask m).params 'u'.toUInt8 = classifyCsi e.params 'u'.toUInt8 := by
  refine ⟨e.classifyCsi_params, fun m hm => ?_⟩
  rw [KittyEvent.classifyCsi_params, KittyEvent.classifyCsi_params,
    KittyEvent.keyClass_withMask hm]

theorem kitty_dot_with_caps_lock :
    classifyCsi (KittyEvent.withMask ⟨46, none, none⟩ ⟨64, by decide⟩).params 'u'.toUInt8 =
      .dot := by
  obtain ⟨hclass, hlocks⟩ := kitty_events_classified ⟨46, none, none⟩
  exact (hlocks ⟨64, by decide⟩ (by decide)).trans (hclass.trans (by decide))

/-- In the input, the event is the next key with all its bytes. -/
theorem nextEscapeKey_kitty (e : KittyEvent) (more : Bytes) :
    nextEscapeKey (0x1b :: 0x5b :: (e.params ++ 'u'.toUInt8 :: more)) =
      some (e.params.length + 3, e.keyClass) := by
  have hparams : ∀ b ∈ e.params, isCsiParam b = true := fun b hb => by
    obtain ⟨hlow, hhigh⟩ := KittyEvent.mem_params hb
    simp only [isCsiParam, Bool.and_eq_true, decide_eq_true_eq]
    exact ⟨UInt8.le_trans (by decide) hlow, UInt8.le_trans hhigh (by decide)⟩
  rw [nextEscapeKey_csi hparams (by decide), if_pos (by decide), KittyEvent.classifyCsi_params]

end Hush.Session
