import Hush.Session.EscapeFilter

/-! The tracker of alternate screen switches in terminal output, against the form of the
sequences that it looks for. -/
namespace Hush.Session
open Hush.Lib

/-- `os::AltScreen`: mode 1049 saves the cursor, modes 47 and 1047 do not. -/
inductive AltScreen
  | off
  | plain
  | saveCursor
  deriving DecidableEq, Repr

inductive CsiState
  | ground
  | escape
  | entry
  | privateParams
  | ignore
  deriving DecidableEq, Repr

/-- `seqMode` is the mode that the sequence being parsed has named last. -/
structure AltScreenTracker where
  alt : AltScreen
  state : CsiState
  param : Nat
  seqMode : Option AltScreen
  deriving DecidableEq, Repr

def u32Max : Nat := 2 ^ 32 - 1

def altMode (param : Nat) : Option AltScreen :=
  if param = 47 ∨ param = 1047 then some .plain
  else if param = 1049 then some .saveCursor
  else none

def isDigitByte (b : UInt8) : Bool := '0'.toUInt8 ≤ b && b ≤ '9'.toUInt8

def digitValue (b : UInt8) : Nat := b.toNat - 48

namespace AltScreenTracker

def default : AltScreenTracker := ⟨.off, .ground, 0, none⟩

def endParam (t : AltScreenTracker) : AltScreenTracker :=
  { t with seqMode := (altMode t.param).or t.seqMode, param := 0 }

/-- The digits of a parameter, in saturating 32-bit arithmetic. -/
def digit (t : AltScreenTracker) (b : UInt8) : AltScreenTracker :=
  { t with param := min (min (t.param * 10) u32Max + digitValue b) u32Max }

/-- The final byte of any other sequence, or a byte of one that is ignored. -/
def leave (t : AltScreenTracker) (b : UInt8) : AltScreenTracker :=
  { t with state := if isCsiFinal b then .ground else .ignore }

/-- The arms of the `match` in `push`, in their order. -/
def byte (t : AltScreenTracker) (b : UInt8) : AltScreenTracker :=
  if b = 0x1b then { t with state := .escape }
  else if b = 0x18 ∨ b = 0x1a then { t with state := .ground }
  else match t.state with
    | .ground => t
    | .escape => { t with state := if b = '['.toUInt8 then .entry else .ground }
    | .entry =>
      if b ≤ 0x1f then t
      else if b = '?'.toUInt8 then { t with param := 0, seqMode := none, state := .privateParams }
      else t.leave b
    | .privateParams =>
      if b ≤ 0x1f then t
      else if isDigitByte b then t.digit b
      else if b = ';'.toUInt8 then t.endParam
      else if b = 'h'.toUInt8 ∨ b = 'l'.toUInt8 then
        let t := t.endParam
        { t with
          alt := t.seqMode.elim t.alt fun mode => if b = 'h'.toUInt8 then mode else .off
          state := .ground }
      else t.leave b
    | .ignore => if b ≤ 0x1f then t else t.leave b

/-- The tracker after some output, and whether the screen has changed. -/
def push (t : AltScreenTracker) (output : Bytes) : AltScreenTracker × Bool :=
  let after := output.foldl byte t
  (after, after.alt ≠ t.alt)

/-- The tracker after output that comes in chunks. -/
def pushAll (chunks : List Bytes) : AltScreenTracker :=
  chunks.foldl (fun t chunk => (t.push chunk).1) default

/-- What `quic_to_terminal` does before it writes a chunk: a change goes to
`os::set_remote_alt_screen`, from which the cleanup of the terminal takes the screen. -/
def record (s : AltScreenTracker × AltScreen) (chunk : Bytes) : AltScreenTracker × AltScreen :=
  let (t, changed) := s.1.push chunk
  (t, if changed then t.alt else s.2)

theorem record_of_eq {s : AltScreenTracker × AltScreen} (h : s.2 = s.1.alt) (chunk : Bytes) :
    record s chunk = ((s.1.push chunk).1, (s.1.push chunk).1.alt) := by
  by_cases hchanged : (chunk.foldl byte s.1).alt = s.1.alt <;> simp [record, push, hchanged, h]

/-- The screen on record is the tracker's, at every write. -/
theorem record_foldl (chunks : List Bytes) :
    chunks.foldl record (default, .off) = (pushAll chunks, (pushAll chunks).alt) := by
  suffices h : ∀ t : AltScreenTracker, chunks.foldl record (t, t.alt) =
      (chunks.foldl (fun t chunk => (t.push chunk).1) t,
        (chunks.foldl (fun t chunk => (t.push chunk).1) t).alt) from h default
  induction chunks with
  | nil => exact fun t => rfl
  | cons chunk chunks ih =>
    intro t
    rw [List.foldl_cons, List.foldl_cons, record_of_eq rfl, ih]

theorem pushAll_eq (chunks : List Bytes) : pushAll chunks = chunks.flatten.foldl byte default := by
  rw [pushAll, List.foldl_flatten]
  rfl

end AltScreenTracker

/-- A C0 control that neither starts nor aborts a sequence. -/
def isControl (b : UInt8) : Bool := b ≤ 0x1f && b ≠ 0x18 && b ≠ 0x1a && b ≠ 0x1b

def isParamByte (b : UInt8) : Bool := isDigitByte b || b = ';'.toUInt8 || isControl b

/-- The decimal value of a parameter, with any number of digits. -/
def decimal (digits : Bytes) : Nat := digits.foldl (fun n d => n * 10 + digitValue d) 0

/-- The modes that the parameters name, in order. -/
def modesOf (body : Bytes) : List AltScreen :=
  ((body.filter (!isControl ·)).splitOn ';'.toUInt8).filterMap fun digits =>
    altMode (decimal digits)

/-- A switch of the alternate screen, and what it sets. -/
inductive Switch : Bytes → AltScreen → Prop
  | mk {gap body : Bytes} {last : UInt8} {mode : AltScreen}
      (hgap : ∀ b ∈ gap, isControl b = true) (hbody : ∀ b ∈ body, isParamByte b = true)
      (hmode : (modesOf body).getLast? = some mode)
      (hlast : last = 'h'.toUInt8 ∨ last = 'l'.toUInt8) :
      Switch (0x1b :: '['.toUInt8 :: (gap ++ '?'.toUInt8 :: (body ++ [last])))
        (if last = 'h'.toUInt8 then mode else .off)

/-- A switch starts at the first byte of the stream. -/
def StartsSwitch (stream : Bytes) (alt : AltScreen) : Prop :=
  ∃ s rest, stream = s ++ rest ∧ Switch s alt

/-- What the switches in a stream set, in the order in which they start. -/
inductive Effects : Bytes → List AltScreen → Prop
  | nil : Effects [] []
  | switch {b : UInt8} {rest : Bytes} {alt : AltScreen} {alts : List AltScreen}
      (h : StartsSwitch (b :: rest) alt) (hrest : Effects rest alts) :
      Effects (b :: rest) (alt :: alts)
  | other {b : UInt8} {rest : Bytes} {alts : List AltScreen}
      (h : ∀ alt, ¬ StartsSwitch (b :: rest) alt) (hrest : Effects rest alts) :
      Effects (b :: rest) alts

/-- What the parameters of a private mode sequence set, after the value `p` of the parameter so
far and the mode `m` that was named last. -/
def paramsTail (p : Nat) (m : Option AltScreen) : Bytes → Option AltScreen
  | [] => none
  | b :: rest =>
    if isControl b then paramsTail p m rest
    else if isDigitByte b then paramsTail (p * 10 + digitValue b) m rest
    else if b = ';'.toUInt8 then paramsTail 0 ((altMode p).or m) rest
    else if b = 'h'.toUInt8 ∨ b = 'l'.toUInt8 then
      ((altMode p).or m).map fun mode => if b = 'h'.toUInt8 then mode else .off
    else none

def entryTail : Bytes → Option AltScreen
  | [] => none
  | b :: rest =>
    if isControl b then entryTail rest
    else if b = '?'.toUInt8 then paramsTail 0 none rest
    else none

def escapeTail : Bytes → Option AltScreen
  | [] => none
  | b :: rest => if b = '['.toUInt8 then entryTail rest else none

/-- What the switch at the first byte of a stream sets. -/
def switchAt : Bytes → Option AltScreen
  | [] => none
  | b :: rest => if b = 0x1b then escapeTail rest else none

def effects : Bytes → List AltScreen
  | [] => []
  | b :: rest => (switchAt (b :: rest)).toList ++ effects rest

/-- What the sequence that a tracker is in sets once it ends in `rest`. -/
def AltScreenTracker.pending (t : AltScreenTracker) (rest : Bytes) : Option AltScreen :=
  match t.state with
  | .ground | .ignore => none
  | .escape => escapeTail rest
  | .entry => entryTail rest
  | .privateParams => paramsTail t.param t.seqMode rest

theorem altMode_min (p : Nat) : altMode (min p u32Max) = altMode p := by
  unfold altMode u32Max
  grind

/-- Parameters that overflow name no mode, and their digits stay above every mode. -/
theorem paramsTail_min (p : Nat) (m : Option AltScreen) (v : Bytes) :
    paramsTail (min p u32Max) m v = paramsTail p m v := by
  induction v generalizing p m with
  | nil => rfl
  | cons b rest ih =>
    have hdigit : paramsTail (min p u32Max * 10 + digitValue b) m rest =
        paramsTail (p * 10 + digitValue b) m rest := by
      rw [← ih (min p u32Max * 10 + digitValue b), ← ih (p * 10 + digitValue b)]
      congr 1
      omega
    simp only [paramsTail, altMode_min, hdigit, ih]

@[simp] theorem pending_leave (t : AltScreenTracker) (b : UInt8) (rest : Bytes) :
    (t.leave b).pending rest = none := by
  cases h : isCsiFinal b <;> simp [AltScreenTracker.leave, AltScreenTracker.pending, h]

@[simp] theorem alt_leave (t : AltScreenTracker) (b : UInt8) : (t.leave b).alt = t.alt := rfl

theorem pending_abort {b : UInt8} (h : b = 0x1b ∨ b = 0x18 ∨ b = 0x1a) (t : AltScreenTracker)
    (rest : Bytes) : t.pending (b :: rest) = none := by
  obtain ⟨alt, state, p, m⟩ := t
  rcases h with rfl | rfl | rfl <;> cases state <;> rfl

theorem isControl_eq {b : UInt8} (hesc : b ≠ 0x1b) (habort : ¬ (b = 0x18 ∨ b = 0x1a)) :
    isControl b = decide (b ≤ 0x1f) := by
  simp_all [isControl]

open AltScreenTracker in
/-- A digit in saturating arithmetic counts as the digit itself. -/
theorem pending_digit {t : AltScreenTracker} (h : t.state = .privateParams) (b : UInt8)
    (rest : Bytes) :
    (t.digit b).pending rest = paramsTail (t.param * 10 + digitValue b) t.seqMode rest := by
  have hmin : min (min (t.param * 10) u32Max + digitValue b) u32Max =
      min (t.param * 10 + digitValue b) u32Max := by omega
  simp only [pending, digit, h, hmin, paramsTail_min]

open AltScreenTracker in
/-- One byte: what the tracker is about to set, or has set, is what it was about to set before,
unless a switch starts at the byte. -/
theorem pending_byte (t : AltScreenTracker) (b : UInt8) (rest : Bytes) :
    ((t.byte b).pending rest).getD (t.byte b).alt =
      (switchAt (b :: rest)).getD ((t.pending (b :: rest)).getD t.alt) := by
  by_cases hesc : b = 0x1b
  · rw [pending_abort (.inl hesc)]
    simp [byte, pending, switchAt, hesc]
  by_cases habort : b = 0x18 ∨ b = 0x1a
  · rw [pending_abort (.inr habort)]
    simp [byte, pending, switchAt, hesc, habort]
  have hcontrol := isControl_eq hesc habort
  simp only [switchAt, hesc, if_false, Option.getD_none, byte, habort]
  cases hstate : t.state with
  | ground => simp [pending, hstate]
  | escape => by_cases hb : b = '['.toUInt8 <;> simp [pending, hstate, escapeTail, hb]
  | entry =>
    by_cases hc0 : b ≤ 0x1f
    · simp [pending, hstate, entryTail, hcontrol, hc0]
    by_cases hq : b = '?'.toUInt8
    · simp [pending, hstate, entryTail, hcontrol, hc0, if_pos hq]
    · simp [pending.eq_def t, hstate, entryTail, hcontrol, hc0, hq]
  | privateParams =>
    by_cases hc0 : b ≤ 0x1f
    · simp [pending, hstate, paramsTail, hcontrol, hc0]
    by_cases hd : isDigitByte b
    · simp only [hc0, hd, if_true, if_false, pending_digit hstate]
      simp [pending, hstate, paramsTail, hcontrol, hc0, hd, digit]
    by_cases hsemi : b = ';'.toUInt8
    · simp [pending, hstate, paramsTail, hcontrol, hc0, hd, if_pos hsemi, endParam]
    by_cases hlast : b = 'h'.toUInt8 ∨ b = 'l'.toUInt8
    · simp only [hc0, hd, hsemi, hlast, if_true, if_false]
      cases hm : (altMode t.param).or t.seqMode <;>
        simp [pending, hstate, paramsTail, hcontrol, hc0, hd, hsemi, hlast, endParam, hm]
    · simp [pending.eq_def t, hstate, paramsTail, hcontrol, hc0, hd, hsemi, hlast]
  | ignore => by_cases hc0 : b ≤ 0x1f <;> simp [pending.eq_def t, hstate, hc0]

theorem getLastD_option_append {α : Type} (o : Option α) (l : List α) (a : α) :
    (o.toList ++ l).getLastD a = l.getLastD (o.getD a) := by
  cases o with
  | none => rfl
  | some b => exact List.getLastD_cons ..

/-- A whole run: the screen is the one of the last switch that starts in the output, else that
of the sequence that the tracker was in. -/
theorem alt_foldl (t : AltScreenTracker) (v : Bytes) :
    (v.foldl AltScreenTracker.byte t).alt =
      (effects v).getLastD ((t.pending v).getD t.alt) := by
  induction v generalizing t with
  | nil =>
    cases hstate : t.state <;>
      simp [effects, AltScreenTracker.pending, hstate, escapeTail, entryTail, paramsTail]
  | cons b rest ih =>
    rw [List.foldl_cons, ih, pending_byte, effects, getLastD_option_append]

theorem alt_pushAll (chunks : List Bytes) :
    (AltScreenTracker.pushAll chunks).alt = (effects chunks.flatten).getLastD .off := by
  rw [AltScreenTracker.pushAll_eq, alt_foldl]
  rfl

/-- The mode that the parameters name last, after the parameter `p` so far and the mode `m`. -/
def lastMode (p : Nat) (m : Option AltScreen) : Bytes → Option AltScreen
  | [] => (altMode p).or m
  | b :: rest =>
    if isControl b then lastMode p m rest
    else if isDigitByte b then lastMode (p * 10 + digitValue b) m rest
    else lastMode 0 ((altMode p).or m) rest

theorem getLast?_filterMap_cons {α β : Type} (f : α → Option β) (a : α) (l : List α)
    (m : Option β) :
    ((a :: l).filterMap f).getLast?.or m = (l.filterMap f).getLast?.or ((f a).or m) := by
  cases h : f a with
  | none => simp [h]
  | some b => cases hl : l.filterMap f <;> simp [h, hl, List.getLast?_cons]

theorem splitOn_cons_ne {α : Type} [BEq α] [LawfulBEq α] {a x : α} (h : x ≠ a) (xs : List α) :
    ∃ first more, xs.splitOn a = first :: more ∧ (x :: xs).splitOn a = (x :: first) :: more := by
  obtain ⟨first, more, hsplit⟩ := List.exists_cons_of_ne_nil (List.splitOn_ne_nil a xs)
  refine ⟨first, more, hsplit, ?_⟩
  rw [List.splitOn_cons_eq_if_modifyHead, if_neg (by simpa using h), hsplit, List.modifyHead_cons]

/-- The fold over the bytes of the body, against its `;`-separated parameters. -/
theorem lastMode_eq {body : Bytes} (hbody : ∀ b ∈ body, isParamByte b = true) (p : Nat)
    (m : Option AltScreen) {first : Bytes} {more : List Bytes}
    (hsplit : (body.filter (!isControl ·)).splitOn ';'.toUInt8 = first :: more) :
    lastMode p m body =
      ((first.foldl (fun n d => n * 10 + digitValue d) p :: more.map decimal).filterMap
        altMode).getLast?.or m := by
  induction body generalizing p m first more with
  | nil =>
    obtain ⟨rfl, rfl⟩ : first = [] ∧ more = [] := by simpa [eq_comm] using hsplit
    rw [List.map_nil, getLast?_filterMap_cons]
    rfl
  | cons b rest ih =>
    obtain ⟨hb, hrest⟩ := List.forall_mem_cons.mp hbody
    cases hc : isControl b with
    | true =>
      rw [List.filter_cons_of_neg (by simp [hc])] at hsplit
      simp only [lastMode, hc, if_true, ih hrest p m hsplit]
    | false =>
      rw [List.filter_cons_of_pos (by simp [hc])] at hsplit
      cases hd : isDigitByte b with
      | true =>
        have hne : b ≠ ';'.toUInt8 := by rintro rfl; exact absurd hd (by decide)
        obtain ⟨first', more', hxs, hcons⟩ :=
          splitOn_cons_ne hne (rest.filter (!isControl ·))
        obtain ⟨rfl, rfl⟩ := List.cons.inj (hsplit.symm.trans hcons)
        simp [lastMode, hc, hd, ih hrest _ m hxs]
      | false =>
        obtain rfl : b = ';'.toUInt8 := by simpa [isParamByte, hc, hd] using hb
        rw [List.splitOn_cons_eq_if_modifyHead, if_pos (beq_self_eq_true _)] at hsplit
        obtain ⟨rfl, rfl⟩ := List.cons.inj hsplit
        obtain ⟨first', more', hxs⟩ := List.exists_cons_of_ne_nil
          (List.splitOn_ne_nil ';'.toUInt8 (rest.filter (!isControl ·)))
        simp only [lastMode, hc, hd, Bool.false_eq_true, if_false, ih hrest 0 _ hxs]
        rw [hxs, List.foldl_nil, getLast?_filterMap_cons altMode p]
        rfl

theorem lastMode_zero {body : Bytes} (hbody : ∀ b ∈ body, isParamByte b = true) :
    lastMode 0 none body = (modesOf body).getLast? := by
  obtain ⟨first, more, hsplit⟩ := List.exists_cons_of_ne_nil
    (List.splitOn_ne_nil ';'.toUInt8 (body.filter (!isControl ·)))
  rw [lastMode_eq hbody 0 none hsplit, modesOf, hsplit, Option.or_none]
  change _ = ((first :: more).filterMap (altMode ∘ decimal)).getLast?
  rw [← List.filterMap_map]
  rfl

theorem paramsTail_append {body : Bytes} (hbody : ∀ b ∈ body, isParamByte b = true) {last : UInt8}
    (hlast : last = 'h'.toUInt8 ∨ last = 'l'.toUInt8) (p : Nat) (m : Option AltScreen)
    (rest : Bytes) :
    paramsTail p m (body ++ last :: rest) =
      (lastMode p m body).map fun mode => if last = 'h'.toUInt8 then mode else .off := by
  induction body generalizing p m with
  | nil => rcases hlast with rfl | rfl <;> rfl
  | cons b body ih =>
    obtain ⟨hb, hbody⟩ := List.forall_mem_cons.mp hbody
    rw [List.cons_append, paramsTail, lastMode, ih hbody, ih hbody, ih hbody]
    cases hc : isControl b <;> cases hd : isDigitByte b <;> simp_all [isParamByte]

theorem paramsTail_some {p : Nat} {m : Option AltScreen} {v : Bytes} {alt : AltScreen}
    (h : paramsTail p m v = some alt) :
    ∃ body last rest, v = body ++ last :: rest ∧ (∀ b ∈ body, isParamByte b = true) ∧
      (last = 'h'.toUInt8 ∨ last = 'l'.toUInt8) := by
  induction v generalizing p m with
  | nil => cases h
  | cons b v ih =>
    by_cases hb : isParamByte b = true
    · have htail : ∃ p m, paramsTail p m v = some alt := by
        rw [paramsTail] at h
        cases hc : isControl b <;> cases hd : isDigitByte b <;> simp_all [isParamByte]
        all_goals exact ⟨_, _, h⟩
      obtain ⟨p, m, htail⟩ := htail
      obtain ⟨body, last, rest, rfl, hbody, hlast⟩ := ih htail
      exact ⟨b :: body, last, rest, rfl, List.forall_mem_cons.mpr ⟨hb, hbody⟩, hlast⟩
    · refine ⟨[], b, v, rfl, by simp, ?_⟩
      simp only [isParamByte, Bool.or_eq_true, decide_eq_true_eq, not_or] at hb
      simp only [paramsTail, hb, if_false] at h
      by_contra hlast
      simp [hlast] at h

theorem entryTail_append {gap : Bytes} (hgap : ∀ b ∈ gap, isControl b = true) (rest : Bytes) :
    entryTail (gap ++ '?'.toUInt8 :: rest) = paramsTail 0 none rest := by
  induction gap with
  | nil => rfl
  | cons b gap ih =>
    obtain ⟨hb, hgap⟩ := List.forall_mem_cons.mp hgap
    rw [List.cons_append, entryTail, if_pos hb, ih hgap]

theorem entryTail_some {v : Bytes} {alt : AltScreen} (h : entryTail v = some alt) :
    ∃ gap rest, v = gap ++ '?'.toUInt8 :: rest ∧ ∀ b ∈ gap, isControl b = true := by
  induction v with
  | nil => cases h
  | cons b v ih =>
    rw [entryTail] at h
    split at h
    · rename_i hb
      obtain ⟨gap, rest, rfl, hgap⟩ := ih h
      exact ⟨b :: gap, rest, rfl, List.forall_mem_cons.mpr ⟨hb, hgap⟩⟩
    · split at h
      · rename_i hb
        exact ⟨[], v, by rw [hb, List.nil_append], by simp⟩
      · cases h

theorem escapeTail_some {v : Bytes} {alt : AltScreen} (h : escapeTail v = some alt) :
    ∃ rest, v = '['.toUInt8 :: rest ∧ entryTail rest = some alt := by
  cases v with
  | nil => cases h
  | cons b rest =>
    rw [escapeTail, Option.ite_none_right_eq_some] at h
    exact ⟨rest, by rw [h.1], h.2⟩

theorem switchAt_some {v : Bytes} {alt : AltScreen} (h : switchAt v = some alt) :
    ∃ rest, v = 0x1b :: '['.toUInt8 :: rest ∧ entryTail rest = some alt := by
  cases v with
  | nil => cases h
  | cons b v =>
    rw [switchAt, Option.ite_none_right_eq_some] at h
    obtain ⟨rest, rfl, hentry⟩ := escapeTail_some h.2
    exact ⟨rest, by rw [h.1], hentry⟩

theorem startsSwitch_iff (v : Bytes) (alt : AltScreen) :
    StartsSwitch v alt ↔ switchAt v = some alt := by
  constructor
  · rintro ⟨_, rest, rfl, hswitch⟩
    cases hswitch with
    | @mk gap body last mode hgap hbody hmode hlast =>
      change entryTail (gap ++ '?'.toUInt8 :: (body ++ [last]) ++ rest) = _
      rw [List.append_assoc, List.cons_append, entryTail_append hgap, List.append_assoc]
      exact (paramsTail_append hbody hlast 0 none rest).trans
        (by rw [lastMode_zero hbody, hmode, Option.map_some])
  · intro h
    obtain ⟨v, rfl, hentry⟩ := switchAt_some h
    obtain ⟨gap, v, rfl, hgap⟩ := entryTail_some hentry
    rw [entryTail_append hgap] at hentry
    obtain ⟨body, last, rest, rfl, hbody, hlast⟩ := paramsTail_some hentry
    rw [paramsTail_append hbody hlast, lastMode_zero hbody, Option.map_eq_some_iff] at hentry
    obtain ⟨mode, hmode, rfl⟩ := hentry
    exact ⟨_, rest, by simp, .mk hgap hbody hmode hlast⟩

/-- The switches of a stream are unique, and `effects` computes what they set. -/
theorem effects_iff (v : Bytes) (alts : List AltScreen) : Effects v alts ↔ alts = effects v := by
  induction v generalizing alts with
  | nil => exact ⟨fun h => by cases h; rfl, fun h => h ▸ .nil⟩
  | cons b rest ih =>
    constructor
    · intro h
      cases h with
      | switch h hrest => rw [effects, (startsSwitch_iff ..).mp h, (ih _).mp hrest]; rfl
      | other h hrest =>
        have hnone : switchAt (b :: rest) = none :=
          Option.eq_none_iff_forall_ne_some.mpr fun alt hsome =>
            h alt ((startsSwitch_iff ..).mpr hsome)
        rw [effects, hnone, (ih _).mp hrest]
        rfl
    · rintro rfl
      rw [effects]
      cases hat : switchAt (b :: rest) with
      | none =>
        refine .other (fun alt h => ?_) ((ih _).mpr rfl)
        exact absurd (hat.symm.trans ((startsSwitch_iff ..).mp h)) (by simp)
      | some alt => exact .switch ((startsSwitch_iff ..).mpr hat) ((ih _).mpr rfl)

theorem foldl_const_eq_getLastD {α : Type} (l : List α) (a : α) :
    l.foldl (fun _ b => b) a = l.getLastD a := by
  induction l generalizing a with
  | nil => rfl
  | cons b l ih => rw [List.foldl_cons, ih, List.getLastD_cons]

/-- In any chunks, the tracker shows what the last switch of the output sets, and nothing but
the switches changes it. -/
theorem alt_screen_follows_switches (chunks : List Bytes) :
    ∃ alts, Effects chunks.flatten alts ∧ (∀ alts', Effects chunks.flatten alts' → alts' = alts) ∧
      (AltScreenTracker.pushAll chunks).alt = alts.foldl (fun _ alt => alt) .off := by
  refine ⟨effects chunks.flatten, (effects_iff ..).mpr rfl, fun alts' => (effects_iff ..).mp, ?_⟩
  rw [alt_pushAll, foldl_const_eq_getLastD]

-- A parameter of `2 ^ 32 + 1049` does not wrap around to a mode.
example : (AltScreenTracker.pushAll
    [[0x1b], "[?429496".toList.map Char.toUInt8, "8345h".toList.map Char.toUInt8]).alt = .off := by
  decide

namespace AltScreenTracker

theorem byte_escape_iff (t : AltScreenTracker) (b : UInt8) :
    (t.byte b).state = .escape ↔ b = 0x1b := by
  unfold byte
  cases hstate : t.state <;> grind [leave, digit, endParam]

theorem byte_control {c : UInt8} (hc : isControl c = true) (t : AltScreenTracker) :
    t.byte c = if t.state = .escape then { t with state := .ground } else t := by
  simp only [isControl, Bool.and_eq_true, decide_eq_true_eq, ne_eq] at hc
  obtain ⟨⟨⟨hc0, hcan⟩, hsub⟩, hesc⟩ := hc
  have hbracket : c ≠ '['.toUInt8 := by rintro rfl; exact absurd hc0 (by decide)
  cases hstate : t.state <;> simp [byte, hstate, hesc, hcan, hsub, hc0, hbracket]

theorem state_escape_iff (u : Bytes) :
    (u.foldl byte default).state = .escape ↔ u.getLast? = some 0x1b := by
  rcases List.eq_nil_or_concat u with rfl | ⟨u, b, rfl⟩
  · simp [default]
  · simp [byte_escape_iff]

end AltScreenTracker

theorem getLastD_eq_iff {α : Type} (l : List α) (o : Option α) (a : α) :
    l.getLastD a = l.getLastD (o.getD a) ↔ ¬ ([] = l ∧ ∃ b, o = some b ∧ b ≠ a) := by
  cases l with
  | nil => cases o <;> simp [eq_comm]
  | cons b l => rw [List.getLastD_cons, List.getLastD_cons]; simp

/-- A control does not interrupt a sequence, except between its ESC and its `[`: there the
sequence is lost, and with it a switch of the screen that no later switch repairs. -/
theorem control_transparent_iff (u v : Bytes) {c : UInt8} (hc : isControl c = true) :
    (AltScreenTracker.default.push (u ++ c :: v)).1.alt =
        (AltScreenTracker.default.push (u ++ v)).1.alt ↔
      ¬ (u.getLast? = some 0x1b ∧ Effects v [] ∧
        ∃ alt alts, StartsSwitch (0x1b :: v) alt ∧ Effects u alts ∧
          alt ≠ alts.foldl (fun _ alt => alt) .off) := by
  have halt : (effects u).getLastD .off =
      (u.foldl AltScreenTracker.byte AltScreenTracker.default).alt :=
    (alt_foldl AltScreenTracker.default u).symm
  simp only [AltScreenTracker.push, List.foldl_append, List.foldl_cons, startsSwitch_iff,
    effects_iff, foldl_const_eq_getLastD, ← AltScreenTracker.state_escape_iff,
    exists_and_left, exists_eq_left, halt]
  generalize u.foldl AltScreenTracker.byte AltScreenTracker.default = t
  rw [AltScreenTracker.byte_control hc, alt_foldl, alt_foldl]
  by_cases hstate : t.state = .escape
  · have hpending : t.pending v = switchAt (0x1b :: v) := by
      rw [AltScreenTracker.pending, hstate, switchAt, if_pos rfl]
    simp only [hstate, if_true, true_and, hpending]
    exact getLastD_eq_iff (effects v) (switchAt (0x1b :: v)) t.alt
  · simp [hstate]

theorem control_in_params_kept :
    isControl 0x0a = true ∧
      (AltScreenTracker.default.push
        (0x1b :: "[?10".toList.map Char.toUInt8 ++ 0x0a :: "49h".toList.map Char.toUInt8)).1.alt =
      (AltScreenTracker.default.push
        (0x1b :: "[?10".toList.map Char.toUInt8 ++ "49h".toList.map Char.toUInt8)).1.alt :=
  ⟨rfl, (control_transparent_iff _ _ rfl).mpr fun h => absurd h.1 (by decide)⟩

theorem control_after_escape_lost :
    isControl 0x07 = true ∧
      (AltScreenTracker.default.push
        ([0x1b] ++ 0x07 :: "[?1049h".toList.map Char.toUInt8)).1.alt = .off ∧
      (AltScreenTracker.default.push
        ([0x1b] ++ "[?1049h".toList.map Char.toUInt8)).1.alt = .saveCursor := by
  decide

end Hush.Session
