import Hush.FileCopy.Tar

/-! A tar format in blocks of 512 bytes, on which the laws hold. -/
namespace Hush.FileCopy.Ustar
open Hush.Lib

/-- Fixed-width text, filled up with zeros. -/
def field (width : Nat) (b : Bytes) : Bytes := b ++ List.replicate (width - b.length) 0

def unfield (f : Bytes) : Bytes := f.takeWhile (· ≠ 0)

/-- A big-endian number of `width` bytes. -/
def number : Nat → Nat → Bytes
  | 0, _ => []
  | width + 1, n => number width (n / 256) ++ [.ofNat n]

def unnumber (f : Bytes) : Nat := f.foldl (fun n b => n * 256 + b.toNat) 0

def flag : EntryType → UInt8
  | .regular => 48
  | .symlink => 50
  | .directory => 53
  | .other => 54

def unflag (b : UInt8) : EntryType :=
  if b = 48 then .regular else if b = 50 then .symlink else if b = 53 then .directory else .other

def header (m : Member) : Bytes :=
  flag m.type :: (field 100 m.path ++ (field 100 m.link ++
    (number 8 m.data.length ++ List.replicate 303 0)))

def padding (n : Nat) : Bytes := List.replicate (paddingLength n) 0

def encode (m : Member) : Bytes := header m ++ (m.data ++ padding m.data.length)

/-- The names fit their fields, and the size its number. -/
def fits (m : Member) : Bool :=
  m.path.length ≤ 100 && !m.path.contains 0 && m.link.length ≤ 100 && !m.link.contains 0 &&
    m.data.length < 2 ^ 64

/-- The data is copied, which flushes the writer, and then filled up. -/
def appendMember (m : Member) : Append :=
  if fits m then
    ⟨[.write (header m), .write m.data, .flush, .write (padding m.data.length)], none⟩
  else ⟨[], some "provided value is too long"⟩

/-- The regular member of the size that the metadata gave, whatever has been read of it. -/
def promised (name : Path) (size : UInt64) (data : Bytes) : Member :=
  ⟨name, .regular, data ++ List.replicate (size.toNat - data.length) 0, []⟩

def appendPath (name : Path) : Source → Append
  | .unreadable err => ⟨[], some err⟩
  | .file size data err =>
    let m := promised name size data
    if fits m then
      match err with
      | some err => ⟨[.write (header m), .write data], some err⟩
      | none => ⟨[.write (header m), .write data, .flush, .write (padding data.length)], none⟩
    else ⟨[], some "provided value is too long"⟩
  | .symlink target => appendMember ⟨name, .symlink, [], target⟩
  | .special => appendMember ⟨name, .other, [], []⟩

/-- The header's member, without its data, and the data's size. -/
def parse (block : Bytes) : Member × Nat :=
  (⟨unfield ((block.drop 1).take 100), unflag (block.headD 0), [],
    unfield ((block.drop 101).take 100)⟩, unnumber ((block.drop 201).take 8))

def read (bytes : Bytes) (err : Option String) : List Item × Option String :=
  if bytes = [] then ([], err)
  else if _hlen : bytes.length < 512 then ([], some "failed to read entire block")
  else if (bytes.take 512).all (· == 0) then ([], none)
  else
    let (m, n) := parse (bytes.take 512)
    let rest := bytes.drop 512
    let item : Item := ⟨{ m with data := rest.take n }, n, none⟩
    if rest.length < n then ([item], some "unexpected EOF")
    else if rest.length < n + (padding n).length then
      ([item], some "unexpected EOF during skip")
    else
      let (items, last) := read (rest.drop (n + (padding n).length)) err
      (item :: items, last)
termination_by bytes.length
decreasing_by
  simp only [List.length_drop]
  omega

def tar : TarLib where
  appendDir := fun name => appendMember (.directory name)
  appendPath := appendPath
  encode := encode
  read := fun s => read s.bytes s.err
  dropped := TarLib.trailer

theorem length_field {width : Nat} {b : Bytes} (h : b.length ≤ width) :
    (field width b).length = width := by
  simp [field]
  omega

theorem unfield_field {width : Nat} {b : Bytes} (h : b.contains 0 = false) :
    unfield (field width b) = b := by
  have hall : ∀ x ∈ b, (decide (x ≠ 0)) = true := by
    intro x hx
    simp only [List.contains_eq_mem, decide_eq_false_iff_not] at h
    simp only [decide_eq_true_eq]
    rintro rfl
    exact h hx
  unfold unfield field
  rw [List.takeWhile_append_of_pos hall]
  cases width - b.length with
  | zero => simp
  | succ n => simp [List.replicate_succ]

@[simp] theorem length_number (width n : Nat) : (number width n).length = width := by
  induction width generalizing n with
  | zero => rfl
  | succ width ih => simp [number, ih]

theorem unnumber_number {width n : Nat} (h : n < 256 ^ width) : unnumber (number width n) = n := by
  induction width generalizing n with
  | zero =>
    have : n = 0 := by simpa using h
    simp [number, unnumber, this]
  | succ width ih =>
    have hdiv : n / 256 < 256 ^ width := by
      rw [Nat.div_lt_iff_lt_mul (by decide)]
      rwa [Nat.pow_succ] at h
    have hlast := ih hdiv
    simp only [unnumber, number, List.foldl_append, List.foldl_cons, List.foldl_nil] at hlast ⊢
    rw [hlast]
    simp only [UInt8.toNat_ofNat']
    omega

theorem unflag_flag (t : EntryType) : unflag (flag t) = t := by
  cases t <;> decide

theorem flag_ne_zero (t : EntryType) : flag t ≠ 0 := by
  cases t <;> decide

variable {m : Member}

theorem fits_iff : fits m = true ↔ m.path.length ≤ 100 ∧ m.path.contains 0 = false ∧
    m.link.length ≤ 100 ∧ m.link.contains 0 = false ∧ m.data.length < 2 ^ 64 := by
  simp [fits, and_assoc]

theorem length_header_of_le (hpath : m.path.length ≤ 100) (hlink : m.link.length ≤ 100) :
    (header m).length = 512 := by
  simp only [header, List.length_cons, List.length_append, length_field hpath,
    length_field hlink, length_number, List.length_replicate]

theorem length_header (h : fits m) : (header m).length = 512 := by
  obtain ⟨hpath, _, hlink, _⟩ := fits_iff.mp h
  exact length_header_of_le hpath hlink

theorem parse_header (h : fits m) :
    parse (header m) = ({ m with data := [] }, m.data.length) := by
  obtain ⟨hpath, hpath0, hlink, hlink0, hdata⟩ := fits_iff.mp h
  have hnumber : m.data.length < 256 ^ 8 := hdata
  have h100 : (header m).drop 1 = field 100 m.path ++ (field 100 m.link ++
      (number 8 m.data.length ++ List.replicate 303 0)) := rfl
  have h200 : (header m).drop 101 = field 100 m.link ++
      (number 8 m.data.length ++ List.replicate 303 0) := by
    rw [show 101 = 1 + 100 from rfl, ← List.drop_drop, h100, List.drop_left' (length_field hpath)]
  have h208 : (header m).drop 201 = number 8 m.data.length ++ List.replicate 303 0 := by
    rw [show 201 = 101 + 100 from rfl, ← List.drop_drop, h200, List.drop_left' (length_field hlink)]
  have hflag : (header m).headD 0 = flag m.type := rfl
  unfold parse
  rw [h100, h200, h208, hflag, List.take_left' (length_field hpath),
    List.take_left' (length_field hlink), List.take_left' (length_number 8 _),
    unfield_field hpath0, unfield_field hlink0, unnumber_number hnumber, unflag_flag]

/-- The reader at a member's header. -/
theorem read_header (h : fits m) (rest : Bytes) (err : Option String) :
    read (header m ++ rest) err =
      if rest.length < m.data.length then
        ([⟨{ m with data := rest.take m.data.length }, m.data.length, none⟩],
          some "unexpected EOF")
      else if rest.length < m.data.length + (padding m.data.length).length then
        ([⟨{ m with data := rest.take m.data.length }, m.data.length, none⟩],
          some "unexpected EOF during skip")
      else
        (⟨{ m with data := rest.take m.data.length }, m.data.length, none⟩ ::
          (read (rest.drop (m.data.length + (padding m.data.length).length)) err).1,
        (read (rest.drop (m.data.length + (padding m.data.length).length)) err).2) := by
  have hlen := length_header h
  have hne : header m ++ rest ≠ [] := List.cons_ne_nil _ _
  have hlong : ¬ (header m ++ rest).length < 512 := by
    rw [List.length_append]
    omega
  have hzero : (header m).all (· == 0) = false := by
    rw [header, List.all_cons, beq_false_of_ne (flag_ne_zero _), Bool.false_and]
  rw [read, if_neg hne, dif_neg hlong, List.take_left' hlen, hzero]
  simp only [Bool.false_eq_true, if_false, parse_header h, List.drop_left' hlen]

theorem read_encode (h : fits m) (rest : Bytes) (err : Option String) :
    read (encode m ++ rest) err = (.whole m :: (read rest err).1, (read rest err).2) := by
  rw [encode, List.append_assoc, read_header h, List.append_assoc]
  have hdata : ¬ (m.data ++ (padding m.data.length ++ rest)).length < m.data.length := by simp
  have hpad : ¬ (m.data ++ (padding m.data.length ++ rest)).length <
      m.data.length + (padding m.data.length).length := by
    simp only [List.length_append]
    omega
  rw [if_neg hdata, if_neg hpad, List.take_left, ← List.append_assoc,
    List.drop_left' List.length_append]
  rfl

/-- A member that is cut short is not read as a whole one. -/
theorem read_encode_cut (h : fits m) {cut : Bytes} (hcut : cut <+: encode m) (hne : cut ≠ [])
    (hne' : cut ≠ encode m) : (read cut none).2 ≠ none := by
  have hlen := length_header h
  have hlt : cut.length < (encode m).length := by
    have := hcut.length_le
    have : cut.length ≠ (encode m).length := fun he => hne' (hcut.eq_of_length he)
    omega
  by_cases hshort : cut.length < 512
  · rw [read, if_neg hne, dif_pos hshort]
    nofun
  · have hheader : header m <+: cut :=
      List.prefix_of_prefix_length_le (List.prefix_append _ _) hcut (by omega)
    obtain ⟨rest, rfl⟩ := hheader
    simp only [encode, List.length_append] at hlt
    rw [read_header h]
    split
    · nofun
    · rw [if_pos (by omega)]
      nofun

theorem appendMember_err : (appendMember m).err = none ↔ fits m = true := by
  unfold appendMember
  split <;> simp_all

theorem appendMember_ok (h : fits m) : (appendMember m).writes.flatten = encode m := by
  simp [appendMember, h, encode, Append.writes, WriteOp.bytes]

theorem appendMember_empty (h : (appendMember m).err ≠ none) :
    (appendMember m).writes.flatten = [] := by
  unfold appendMember at h ⊢
  split at h
  · exact absurd rfl h
  · next hfits => simp [hfits, Append.writes]

theorem promised_of_length {name : Path} {size : UInt64} {data : Bytes}
    (h : data.length = size.toNat) : promised name size data = ⟨name, .regular, data, []⟩ := by
  simp [promised, h]

theorem appends_fits (h : tar.Appends m) : fits m = true := by
  rcases h with ⟨hdir, herr⟩ | ⟨source, hsource, herr⟩
  · rw [hdir]
    exact appendMember_err.mp herr
  · rcases Source.member_cases hsource with
      ⟨size, data, rfl, hlen, hm⟩ | ⟨target, rfl, hm⟩ | ⟨rfl, hm⟩
    · rw [hm] at herr ⊢
      simp only [tar, appendPath, promised_of_length hlen] at herr
      split at herr
      · assumption
      · cases herr
    · rw [hm] at herr ⊢
      exact appendMember_err.mp herr
    · rw [hm] at herr ⊢
      exact appendMember_err.mp herr

theorem appendPath_ok {name : Path} {source : Source} (hm : source.member name = some m)
    (h : (appendPath name source).err = none) :
    (appendPath name source).writes.flatten = encode m := by
  have hfits : fits m = true := by
    apply appends_fits
    obtain rfl := Source.member_path hm
    exact Or.inr ⟨source, hm, h⟩
  rcases Source.member_cases hm with ⟨size, data, rfl, hlen, rfl⟩ | ⟨target, rfl, rfl⟩ | ⟨rfl, rfl⟩
  · simp [appendPath, promised_of_length hlen, hfits, encode, Append.writes, WriteOp.bytes]
  · exact appendMember_ok hfits
  · exact appendMember_ok hfits

theorem appendPath_reports {name : Path} {source : Source} (hs : source.Fits)
    (hm : source.member name = none) : (appendPath name source).err ≠ none := by
  cases source with
  | file size data err =>
    cases err with
    | none => simp [Source.member, hs.2 rfl] at hm
    | some err =>
      simp only [appendPath]
      split <;> exact Option.some_ne_none _
  | symlink target => cases hm
  | special => cases hm
  | unreadable err => exact Option.some_ne_none _

theorem promised_appends {name : Path} {size : UInt64} {data : Bytes}
    (hdata : data.length ≤ size.toNat) (h : fits (promised name size data)) :
    tar.Appends (promised name size data) := by
  have hlen : (promised name size data).data.length = size.toNat := by
    simp only [promised, List.length_append, List.length_replicate]
    omega
  refine Or.inr ⟨.file size (promised name size data).data none, ?_, ?_⟩
  · simp only [Source.member, hlen, if_true]
    rfl
  · have hsame : fits ⟨(promised name size data).path, .regular, (promised name size data).data,
        []⟩ = true := h
    simp [tar, appendPath, promised_of_length hlen, hsame]

/-- A failing read leaves the beginning of the member that the metadata promised. -/
theorem appendPath_cut {name : Path} {source : Source} (hs : source.Fits)
    (h : (appendPath name source).err ≠ none) :
    tar.Partial (appendPath name source).writes.flatten := by
  cases source with
  | file size data err =>
    simp only [appendPath] at h ⊢
    split at h
    · next hfits =>
      cases err with
      | none => exact absurd rfl h
      | some err =>
        rw [if_pos hfits]
        refine Or.inr ⟨promised name size data, promised_appends hs.1 hfits,
          List.replicate (size.toNat - data.length) 0 ++
            padding (promised name size data).data.length, ?_⟩
        simp [tar, encode, promised, Append.writes, WriteOp.bytes]
    · next hfits =>
      rw [if_neg hfits]
      exact Or.inl rfl
  | symlink target => exact Or.inl (appendMember_empty h)
  | special => exact Or.inl (appendMember_empty h)
  | unreadable err => exact Or.inl rfl

theorem appendMember_flushes (h : (appendMember m).err = none) :
    (appendMember m).Flushes m.data.length := by
  refine ⟨[.write (header m), .write m.data], padding m.data.length, ?_, ?_,
    List.length_replicate⟩
  · simp [appendMember, appendMember_err.mp h]
  · simp [WriteOp.bytes]

theorem appendPath_flushes {name : Path} {source : Source} (hm : source.member name = some m)
    (h : (appendPath name source).err = none) :
    (appendPath name source).Flushes m.data.length := by
  have hfits : fits m = true := by
    apply appends_fits
    obtain rfl := Source.member_path hm
    exact Or.inr ⟨source, hm, h⟩
  rcases Source.member_cases hm with ⟨size, data, rfl, hlen, rfl⟩ | ⟨target, rfl, rfl⟩ | ⟨rfl, rfl⟩
  · refine ⟨[.write (header ⟨name, .regular, data, []⟩), .write data], padding data.length, ?_, ?_,
      List.length_replicate⟩
    · simp [appendPath, promised_of_length hlen, hfits]
    · simp [WriteOp.bytes]
  · exact appendMember_flushes h
  · exact appendMember_flushes h

theorem zero_block_all : (List.replicate 512 (0 : UInt8)).all (· == 0) = true := by
  rw [List.all_replicate]
  rfl

theorem not_zero_block_append_lt (rest : Bytes) :
    ¬ (List.replicate 512 (0 : UInt8) ++ rest).length < 512 := by
  rw [List.length_append, List.length_replicate]
  omega

/-- A block of zeros ends the archive, whatever follows. -/
theorem read_zero_block (rest : Bytes) (err : Option String) :
    read (List.replicate 512 0 ++ rest) err = ([], none) := by
  have hne : List.replicate 512 (0 : UInt8) ++ rest ≠ [] := List.cons_ne_nil _ _
  rw [read, if_neg hne, dif_neg (not_zero_block_append_lt rest),
    List.take_left' List.length_replicate, if_pos zero_block_all]

theorem trailer_eq : TarLib.trailer = List.replicate 512 0 ++ List.replicate 512 0 := by
  rw [List.replicate_append_replicate, TarLib.trailer]

/-- A beginning of the trailer that is not shorter than a block starts with a block of zeros. -/
theorem zero_block_begins {cut : Bytes} (h : cut <+: TarLib.trailer)
    (hlen : ¬ cut.length < 512) : List.replicate 512 0 <+: cut := by
  refine List.prefix_of_prefix_length_le ?_ h (by rw [List.length_replicate]; omega)
  rw [trailer_eq]
  exact List.prefix_append _ _

/-- A beginning of the trailer has no entries. -/
theorem read_trailer_cut {cut : Bytes} (h : cut <+: TarLib.trailer) : (read cut none).1 = [] := by
  by_cases hshort : cut.length < 512
  · rw [read]
    split
    · rfl
    · rfl
  · obtain ⟨rest, rfl⟩ := zero_block_begins h hshort
    rw [read_zero_block]

theorem tar_lawful : tar.Lawful where
  appendDir_ok := fun _ h => appendMember_ok (appendMember_err.mp h)
  appendPath_ok := fun _ _ _ hm h => appendPath_ok hm h
  appendPath_reports := fun _ _ hs hm => appendPath_reports hs hm
  appendDir_err := fun _ h => Or.inl (appendMember_empty h)
  appendPath_err := fun _ _ hs h => appendPath_cut hs h
  appendDir_flushes := fun _ h => appendMember_flushes h
  appendPath_flushes := fun _ _ _ hm h => appendPath_flushes hm h
  read_nil := by
    show read [] none = _
    rw [read, if_pos rfl]
  read_trailer := by
    intro rest
    show read (TarLib.trailer ++ rest) none = _
    rw [trailer_eq, List.append_assoc, read_zero_block]
  read_trailer_cut := fun _ h => read_trailer_cut h
  read_member := fun _ rest h => read_encode (appends_fits h) rest none
  read_cut := fun _ _ h hcut hne hne' => read_encode_cut (appends_fits h) hcut hne hne'
  dropped_cases := Or.inr rfl

end Hush.FileCopy.Ustar
