import Hush.FileCopy.Ustar

/-! The same tar format with GNU long names: a name of more than 100 bytes goes before its
member, in a member of its own that is no entry. -/
namespace Hush.FileCopy.Gnu
open Hush.Lib

def longLink : UInt8 := 76

def longMember (name : Path) : Member := ⟨.ofString "././@LongLink", .other, name ++ [0], []⟩

/-- A member with this type flag. -/
def record (flag : UInt8) (m : Member) : Bytes := flag :: (Ustar.encode m).tail

def longName (name : Path) : Bytes := record longLink (longMember name)

/-- What goes before a member with this name. -/
def extension (name : Path) : Bytes := if 100 < name.length then longName name else []

/-- The member with the name that its own header has. -/
def short (m : Member) : Member := { m with path := m.path.take 100 }

def encode (m : Member) : Bytes := extension m.path ++ Ustar.encode (short m)

/-- The long name is appended like a member. -/
def extensionOps (name : Path) : List WriteOp :=
  if 100 < name.length then
    let m := longMember name
    [.write (longLink :: (Ustar.header m).tail), .write m.data, .flush,
      .write (Ustar.padding m.data.length)]
  else []

def extend (name : Path) (a : Append) : Append := ⟨extensionOps name ++ a.ops, a.err⟩

def futureMember : String :=
  "members found describing a future member but no future member found"

/-- The reader, with the name that a long-name member has given. -/
def read (pending : Option Path) (bytes : Bytes) (err : Option String) :
    List Item × Option String :=
  if bytes = [] then ([], if pending.isSome then some futureMember else err)
  else if _hlen : bytes.length < 512 then ([], some "failed to read entire block")
  else if (bytes.take 512).all (· == 0) then
    ([], if pending.isSome then some futureMember else none)
  else
    let (m, n) := Ustar.parse (bytes.take 512)
    let rest := bytes.drop 512
    let item : Item := ⟨{ m with path := pending.getD m.path, data := rest.take n }, n, none⟩
    let long := bytes.headD 0 = longLink
    if rest.length < n + (Ustar.padding n).length then
      (if long then [] else [item], some "unexpected EOF")
    else if long then
      read (some (Ustar.unfield (rest.take n))) (rest.drop (n + (Ustar.padding n).length)) err
    else
      let (items, last) := read none (rest.drop (n + (Ustar.padding n).length)) err
      (item :: items, last)
termination_by bytes.length
decreasing_by
  all_goals
    simp only [List.length_drop]
    omega

def tar : TarLib where
  appendDir := fun name => extend name (Ustar.tar.appendDir (name.take 100))
  appendPath := fun name source => extend name (Ustar.tar.appendPath (name.take 100) source)
  encode := encode
  read := fun s => read none s.bytes s.err
  dropped := TarLib.trailer

theorem extend_writes (name : Path) (a : Append) :
    (extend name a).writes.flatten = extension name ++ a.writes.flatten := by
  have hbytes : ((extensionOps name).map WriteOp.bytes).flatten = extension name := by
    unfold extensionOps extension
    split
    · simp only [List.map_cons, List.map_nil, WriteOp.bytes, List.flatten_cons, List.flatten_nil,
        List.nil_append, List.append_nil]
      rfl
    · rfl
  rw [← hbytes]
  simp [extend, Append.writes]

/-- A member whose header has a long enough name field, and whose name can be read back. -/
structure Fits (m : Member) : Prop where
  short : Ustar.fits (short m) = true
  path : (0 : UInt8) ∉ m.path
  length : m.path.length + 1 < 2 ^ 64

section Read

variable {flag : UInt8} {m : Member} {pending : Option Path} {err : Option String}

/-- The item that the reader makes of a record. -/
def item (flag : UInt8) (m : Member) (pending : Option Path) (data : Bytes) : Item :=
  ⟨{ m with type := Ustar.unflag flag, path := pending.getD m.path, data }, m.data.length, none⟩

theorem encode_eq_record (m : Member) : Ustar.encode m = record (Ustar.flag m.type) m := rfl

theorem length_record (hpath : m.path.length ≤ 100) (hlink : m.link.length ≤ 100) :
    (record flag m).length = 512 + (m.data.length + (Ustar.padding m.data.length).length) := by
  have : (record flag m).length = (Ustar.encode m).length := rfl
  rw [this, Ustar.encode, List.length_append, Ustar.length_header_of_le hpath hlink,
    List.length_append]

theorem parse_record (flag : UInt8) (h : Ustar.fits m) :
    Ustar.parse (flag :: (Ustar.header m).tail) =
      ({ m with type := Ustar.unflag flag, data := [] }, m.data.length) := by
  have hparse : Ustar.parse (flag :: (Ustar.header m).tail) =
      ({ (Ustar.parse (Ustar.header m)).1 with type := Ustar.unflag flag },
        (Ustar.parse (Ustar.header m)).2) := rfl
  rw [hparse, Ustar.parse_header h]

/-- The reader at a header. -/
theorem read_block (hflag : flag ≠ 0) (h : Ustar.fits m) (rest : Bytes) :
    read pending (flag :: (Ustar.header m).tail ++ rest) err =
      if rest.length < m.data.length + (Ustar.padding m.data.length).length then
        (if flag = longLink then [] else [item flag m pending (rest.take m.data.length)],
          some "unexpected EOF")
      else if flag = longLink then
        read (some (Ustar.unfield (rest.take m.data.length)))
          (rest.drop (m.data.length + (Ustar.padding m.data.length).length)) err
      else
        (item flag m pending (rest.take m.data.length) ::
          (read none (rest.drop (m.data.length + (Ustar.padding m.data.length).length)) err).1,
        (read none (rest.drop (m.data.length + (Ustar.padding m.data.length).length)) err).2) := by
  have hlen : (flag :: (Ustar.header m).tail).length = 512 := Ustar.length_header h
  have hne : flag :: (Ustar.header m).tail ++ rest ≠ [] := List.cons_ne_nil _ _
  have hlong : ¬ (flag :: (Ustar.header m).tail ++ rest).length < 512 := by
    rw [List.length_append]
    omega
  have hzero : (flag :: (Ustar.header m).tail).all (· == 0) = false := by
    rw [List.all_cons, beq_false_of_ne hflag, Bool.false_and]
  have hhead : (flag :: (Ustar.header m).tail ++ rest).headD 0 = flag := rfl
  rw [read, if_neg hne, dif_neg hlong, List.take_left' hlen, hzero, hhead]
  simp only [Bool.false_eq_true, if_false, parse_record flag h, List.drop_left' hlen]
  rfl

theorem record_eq (flag : UInt8) (m : Member) :
    record flag m =
      flag :: (Ustar.header m).tail ++ (m.data ++ Ustar.padding m.data.length) := rfl

theorem read_record (hflag : flag ≠ 0) (h : Ustar.fits m) (rest : Bytes) :
    read pending (record flag m ++ rest) err =
      if flag = longLink then read (some (Ustar.unfield m.data)) rest err
      else (item flag m pending m.data :: (read none rest err).1, (read none rest err).2) := by
  have hlen : (m.data ++ Ustar.padding m.data.length).length =
      m.data.length + (Ustar.padding m.data.length).length := List.length_append
  have hwhole : ¬ (m.data ++ (Ustar.padding m.data.length ++ rest)).length <
      m.data.length + (Ustar.padding m.data.length).length := by
    simp only [List.length_append]
    omega
  have htake : (m.data ++ (Ustar.padding m.data.length ++ rest)).take m.data.length = m.data :=
    List.take_left
  have hdrop : (m.data ++ (Ustar.padding m.data.length ++ rest)).drop
      (m.data.length + (Ustar.padding m.data.length).length) = rest := by
    rw [← List.append_assoc, List.drop_left' hlen]
  rw [record_eq, List.append_assoc, read_block hflag h, List.append_assoc, if_neg hwhole, htake,
    hdrop]

/-- A record that is cut short is an error. -/
theorem read_record_cut (hflag : flag ≠ 0) (h : Ustar.fits m) {cut : Bytes}
    (hcut : cut <+: record flag m) (hne : cut ≠ []) (hne' : cut ≠ record flag m) :
    (read pending cut err).2 ≠ none := by
  have hlen : (flag :: (Ustar.header m).tail).length = 512 := Ustar.length_header h
  have hlt : cut.length < (record flag m).length := by
    have := hcut.length_le
    have : cut.length ≠ (record flag m).length := fun he => hne' (hcut.eq_of_length he)
    omega
  by_cases hshort : cut.length < 512
  · rw [read, if_neg hne, dif_pos hshort]
    simp
  · have hheader : flag :: (Ustar.header m).tail <+: cut := by
      refine List.prefix_of_prefix_length_le ?_ hcut (by omega)
      rw [record_eq]
      exact List.prefix_append _ _
    obtain ⟨rest, rfl⟩ := hheader
    obtain ⟨hpath, -, hlink, -⟩ := Ustar.fits_iff.mp h
    rw [length_record hpath hlink, List.length_append] at hlt
    rw [read_block hflag h, if_pos (by omega)]
    simp

theorem length_longLink : (Path.ofString "././@LongLink").length ≤ 100 := by decide

theorem longMember_fits {name : Path} (h : name.length + 1 < 2 ^ 64) :
    Ustar.fits (longMember name) := by
  have hzero : (Path.ofString "././@LongLink").contains 0 = false := by decide
  rw [Ustar.fits_iff]
  exact ⟨length_longLink, hzero, Nat.zero_le _, rfl, by simpa [longMember] using h⟩

theorem read_longName {name : Path} (hname : (0 : UInt8) ∉ name) (h : name.length + 1 < 2 ^ 64)
    (rest : Bytes) : read pending (longName name ++ rest) err = read (some name) rest err := by
  have hunfield : Ustar.unfield (longMember name).data = name := by
    have hfield : (longMember name).data = Ustar.field (name.length + 1) name := by
      simp [longMember, Ustar.field]
    rw [hfield, Ustar.unfield_field (by simpa using hname)]
  rw [longName, read_record (by decide) (longMember_fits h), if_pos rfl, hunfield]

theorem short_of_le (h : ¬ 100 < m.path.length) : short m = m := by
  rw [short, List.take_of_length_le (Nat.not_lt.mp h)]

theorem flag_ne_longLink (t : EntryType) : Ustar.flag t ≠ longLink := by
  cases t <;> decide

/-- The member after a long name, or one without, is read with its name. -/
theorem read_short (h : Ustar.fits (short m)) (hname : pending.getD (short m).path = m.path)
    (rest : Bytes) :
    read pending (Ustar.encode (short m) ++ rest) err =
      (.whole m :: (read none rest err).1, (read none rest err).2) := by
  have hitem : item (Ustar.flag m.type) (short m) pending m.data = .whole m := by
    rw [item, hname, Ustar.unflag_flag]
    rfl
  rw [encode_eq_record, read_record (Ustar.flag_ne_zero _) h, if_neg (flag_ne_longLink _), ← hitem]
  rfl

theorem read_encode (h : Fits m) (rest : Bytes) :
    read none (encode m ++ rest) err =
      (.whole m :: (read none rest err).1, (read none rest err).2) := by
  unfold encode extension
  split
  · rw [List.append_assoc, read_longName h.path h.length]
    exact read_short h.short rfl rest
  · next hlong =>
    refine read_short h.short ?_ rest
    rw [short_of_le hlong]
    rfl

/-- A member that is cut short is an error, also between its name and its header. -/
theorem read_encode_cut (h : Fits m) {cut : Bytes} (hcut : cut <+: encode m) (hne : cut ≠ [])
    (hne' : cut ≠ encode m) : (read none cut none).2 ≠ none := by
  have hflag := Ustar.flag_ne_zero m.type
  unfold encode extension at hcut hne'
  split at hcut
  · next hlong =>
    rw [if_pos hlong] at hne'
    by_cases hshort : cut <+: longName m.path ∧ cut ≠ longName m.path
    · exact read_record_cut (by decide) (longMember_fits h.length) hshort.1 hne hshort.2
    · have hname : longName m.path <+: cut := by
        rcases List.prefix_or_prefix_of_prefix hcut (List.prefix_append _ _) with hle | hname
        · exact not_and_not_right.mp hshort hle ▸ List.prefix_rfl
        · exact hname
      obtain ⟨rest, rfl⟩ := hname
      rw [read_longName h.path h.length]
      by_cases hrest : rest = []
      · rw [hrest, read, if_pos rfl]
        simp
      · refine read_record_cut hflag h.short ((List.prefix_append_right_inj _).mp hcut) hrest ?_
        intro heq
        exact hne' (congrArg (longName m.path ++ ·) heq)
  · next hlong =>
    rw [if_neg hlong] at hne'
    exact read_record_cut hflag h.short hcut hne hne'

theorem read_nil : read none [] none = ([], none) := by
  rw [read, if_pos rfl]
  rfl

theorem read_zero_block (rest : Bytes) :
    read none (List.replicate 512 0 ++ rest) err = ([], none) := by
  have hne : List.replicate 512 (0 : UInt8) ++ rest ≠ [] := List.cons_ne_nil _ _
  rw [read, if_neg hne, dif_neg (Ustar.not_zero_block_append_lt rest),
    List.take_left' List.length_replicate, if_pos Ustar.zero_block_all]
  rfl

theorem read_trailer_cut {cut : Bytes} (h : cut <+: TarLib.trailer) :
    (read none cut none).1 = [] := by
  by_cases hshort : cut.length < 512
  · rw [read]
    split
    · rfl
    · rfl
  · obtain ⟨rest, rfl⟩ := Ustar.zero_block_begins h hshort
    rw [read_zero_block]

end Read

/-- Data is filled up to whole blocks. -/
def padded (n : Nat) : Nat := (n + 511) / 512 * 512

/-- The length of a member with its long name, if it has one. -/
def entryLength (name : Path) (size : Nat) : Nat :=
  (if 100 < name.length then 512 + padded (name.length + 1) else 0) + (512 + padded size)

theorem length_padding (n : Nat) : n + (Ustar.padding n).length = padded n := by
  rw [Ustar.padding, List.length_replicate, paddingLength, padded]
  omega

theorem length_extension (name : Path) :
    (extension name).length = if 100 < name.length then 512 + padded (name.length + 1) else 0 := by
  unfold extension
  split
  · have hdata : (longMember name).data.length = name.length + 1 := List.length_append
    rw [longName, length_record length_longLink (Nat.zero_le _), length_padding, hdata]
  · rfl

theorem length_encode {m : Member} (hlink : m.link.length ≤ 100) :
    (encode m).length = entryLength m.path m.data.length := by
  have hpath : (short m).path.length ≤ 100 := List.length_take_le 100 m.path
  rw [encode, List.length_append, length_extension, encode_eq_record,
    length_record hpath hlink, length_padding]
  rfl

end Hush.FileCopy.Gnu
