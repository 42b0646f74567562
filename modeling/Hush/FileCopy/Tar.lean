import Hush.FileCopy.Limits
import Hush.Lib.UnixPath

/-!
# The tar library

What the copy relies on: the bytes that appending a member writes, and the entries that a
reader finds in a stream.
-/

namespace Hush.FileCopy
open Hush.Lib

inductive EntryType
  | regular
  | directory
  | symlink
  | other
  deriving DecidableEq, Repr

/-- An archive member. Only a regular file has data, only a symlink a target. -/
structure Member where
  path : Path
  type : EntryType
  data : Bytes
  link : Path
  deriving DecidableEq, Repr

def Member.directory (name : Path) : Member := ⟨name, .directory, [], []⟩

/-- What the builder finds at a path that it does not follow. A file's read can fail after
some of its bytes, and it need not have the length its metadata gave. -/
inductive Source
  | file (size : UInt64) (data : Bytes) (err : Option String)
  | symlink (target : Path)
  | special
  | unreadable (err : String)
  deriving DecidableEq, Repr

/-- The member that a source in good order becomes. -/
def Source.member (name : Path) : Source → Option Member
  | .file size data none =>
    if data.length = size.toNat then some ⟨name, .regular, data, []⟩ else none
  | .symlink target => some ⟨name, .symlink, [], target⟩
  | .special => some ⟨name, .other, [], []⟩
  | .file _ _ (some _) | .unreadable _ => none

theorem Source.member_cases {name : Path} {source : Source} {m : Member}
    (h : source.member name = some m) :
    (∃ size data, source = .file size data none ∧ data.length = size.toNat ∧
      m = ⟨name, .regular, data, []⟩) ∨
    (∃ target, source = .symlink target ∧ m = ⟨name, .symlink, [], target⟩) ∨
    (source = .special ∧ m = ⟨name, .other, [], []⟩) := by
  cases source with
  | file size data err =>
    cases err with
    | some err => cases h
    | none =>
      simp only [Source.member] at h
      split at h
      · next hlen =>
        cases h
        exact Or.inl ⟨size, data, rfl, hlen, rfl⟩
      · cases h
  | symlink target =>
    cases h
    exact Or.inr (Or.inl ⟨target, rfl, rfl⟩)
  | special =>
    cases h
    exact Or.inr (Or.inr ⟨rfl, rfl⟩)
  | unreadable err => cases h

theorem Source.member_path {name : Path} {source : Source} {m : Member}
    (h : source.member name = some m) : m.path = name := by
  rcases Source.member_cases h with ⟨_, _, -, -, rfl⟩ | ⟨_, -, rfl⟩ | ⟨-, rfl⟩ <;> rfl

/-- A file's bytes are as many as its metadata says, or fewer before an error. -/
def Source.Fits : Source → Prop
  | .file size data err => data.length ≤ size.toNat ∧ (err = none → data.length = size.toNat)
  | .symlink _ | .special | .unreadable _ => True

/-- What the builder asks of its writer. -/
inductive WriteOp
  | write (buf : Bytes)
  | flush
  deriving DecidableEq, Repr

def WriteOp.bytes : WriteOp → Bytes
  | .write buf => buf
  | .flush => []

@[simp] theorem WriteOp.map_bytes_write (bufs : List Bytes) :
    (bufs.map WriteOp.write).map WriteOp.bytes = bufs := by
  simp [Function.comp_def, WriteOp.bytes]

/-- The writes and flushes that appending makes, and the error it ends in if any. -/
structure Append where
  ops : List WriteOp
  err : Option String
  deriving DecidableEq, Repr

def Append.writes (a : Append) : List Bytes := a.ops.map WriteOp.bytes

/-- Data is filled up to whole blocks of 512 bytes. -/
def paddingLength (n : Nat) : Nat := (512 - n % 512) % 512

/-- The builder flushes the member's header and data, and then fills it up. -/
def Append.Flushes (a : Append) (n : Nat) : Prop :=
  ∃ front padding, a.ops = front ++ [.flush, .write padding] ∧
    n ≤ (front.map WriteOp.bytes).flatten.length ∧ padding.length = paddingLength n

/-- Bytes to be read, followed by the end of the stream or by an error. -/
structure Stream where
  bytes : Bytes
  err : Option String
  deriving DecidableEq, Repr

/-- `AsyncReadExt::take`: the limit ends the stream like its end. -/
def Stream.take (s : Stream) (limit : Nat) : Stream :=
  if limit ≤ s.bytes.length then ⟨s.bytes.take limit, none⟩ else s

theorem Stream.take_eq (bytes : Bytes) (limit : Nat) :
    Stream.take ⟨bytes, none⟩ limit = ⟨bytes.take limit, none⟩ := by
  unfold Stream.take
  split
  · rfl
  · next h => rw [List.take_of_length_le (Nat.le_of_lt (Nat.not_le.mp h))]

theorem Stream.take_of_le {bytes : Bytes} {limit : Nat} (h : bytes.length ≤ limit) :
    Stream.take ⟨bytes, none⟩ limit = ⟨bytes, none⟩ := by
  rw [Stream.take_eq, List.take_of_length_le h]

/-- An entry that the reader yields. Its data falls short of its size if the stream ends in
it, and its path need not be readable. -/
structure Item where
  member : Member
  size : Nat
  pathErr : Option String
  deriving DecidableEq, Repr

def Item.whole (m : Member) : Item := ⟨m, m.data.length, none⟩

/-- The tar library. `read` yields the entries of a stream, and the error that ends them;
`dropped` is what a builder that is not finished still writes. -/
structure TarLib where
  appendDir : Path → Append
  appendPath : Path → Source → Append
  encode : Member → Bytes
  read : Stream → List Item × Option String
  dropped : Bytes

namespace TarLib

/-- The library has appended the member without an error. -/
def Appends (tar : TarLib) (m : Member) : Prop :=
  (m = .directory m.path ∧ (tar.appendDir m.path).err = none) ∨
  ∃ source : Source, source.member m.path = some m ∧ (tar.appendPath m.path source).err = none

/-- The end-of-archive marker. -/
def trailer : Bytes := List.replicate 1024 0

/-- The bytes are the beginning of a member. -/
def Partial (tar : TarLib) (cut : Bytes) : Prop :=
  cut = [] ∨ ∃ m, tar.Appends m ∧ cut <+: tar.encode m

/-- An appended member is written as its encoding, or up to an error as the beginning of
one; a source that cannot be read is such an error. What copies the data of a member flushes the
writer at its end. The reader yields exactly the members appended; it ends normally at the end of
the stream on an entry boundary and at the end-of-archive marker, and not inside a member. -/
structure Lawful (tar : TarLib) : Prop where
  appendDir_ok : ∀ name, (tar.appendDir name).err = none →
    (tar.appendDir name).writes.flatten = tar.encode (.directory name)
  appendPath_ok : ∀ name source m, source.member name = some m →
    (tar.appendPath name source).err = none →
    (tar.appendPath name source).writes.flatten = tar.encode m
  appendPath_reports : ∀ name source, source.Fits → source.member name = none →
    (tar.appendPath name source).err ≠ none
  appendDir_err : ∀ name, (tar.appendDir name).err ≠ none →
    tar.Partial (tar.appendDir name).writes.flatten
  appendPath_err : ∀ name source, source.Fits → (tar.appendPath name source).err ≠ none →
    tar.Partial (tar.appendPath name source).writes.flatten
  appendDir_flushes : ∀ name, (tar.appendDir name).err = none → (tar.appendDir name).Flushes 0
  appendPath_flushes : ∀ name source m, source.member name = some m →
    (tar.appendPath name source).err = none → (tar.appendPath name source).Flushes m.data.length
  read_nil : tar.read ⟨[], none⟩ = ([], none)
  read_trailer : ∀ rest, tar.read ⟨trailer ++ rest, none⟩ = ([], none)
  read_trailer_cut : ∀ cut, cut <+: trailer → (tar.read ⟨cut, none⟩).1 = []
  read_member : ∀ m rest, tar.Appends m →
    tar.read ⟨tar.encode m ++ rest, none⟩ =
      (.whole m :: (tar.read ⟨rest, none⟩).1, (tar.read ⟨rest, none⟩).2)
  read_cut : ∀ m cut, tar.Appends m → cut <+: tar.encode m → cut ≠ [] → cut ≠ tar.encode m →
    (tar.read ⟨cut, none⟩).2 ≠ none
  dropped_cases : tar.dropped = [] ∨ tar.dropped = trailer

variable {tar : TarLib}

theorem Appends.file {name : Path} {data : Bytes} {size : UInt64} (h : data.length = size.toNat)
    (herr : (tar.appendPath name (.file size data none)).err = none) :
    tar.Appends ⟨name, .regular, data, []⟩ :=
  Or.inr ⟨.file size data none, by simp [Source.member, h], herr⟩

theorem Partial.mono {cut cut' : Bytes} (h : tar.Partial cut) (hcut : cut' <+: cut) :
    tar.Partial cut' := by
  rcases h with rfl | ⟨m, hm, hprefix⟩
  · exact Or.inl (List.prefix_nil.mp hcut)
  · exact Or.inr ⟨m, hm, hcut.trans hprefix⟩

def encodeAll (tar : TarLib) (ms : List Member) : Bytes := (ms.map tar.encode).flatten

@[simp] theorem encodeAll_nil : tar.encodeAll [] = [] := rfl

@[simp] theorem encodeAll_cons (m : Member) (ms : List Member) :
    tar.encodeAll (m :: ms) = tar.encode m ++ tar.encodeAll ms := rfl

@[simp] theorem encodeAll_append (ms ms' : List Member) :
    tar.encodeAll (ms ++ ms') = tar.encodeAll ms ++ tar.encodeAll ms' := by
  simp [encodeAll]

/-- The reader yields the members in front of whatever follows them. -/
theorem read_encodeAll (ht : tar.Lawful) {ms : List Member} (hms : ∀ m ∈ ms, tar.Appends m)
    (rest : Bytes) :
    tar.read ⟨tar.encodeAll ms ++ rest, none⟩ =
      (ms.map .whole ++ (tar.read ⟨rest, none⟩).1, (tar.read ⟨rest, none⟩).2) := by
  induction ms with
  | nil => simp
  | cons m ms ih =>
    have htail := ih fun m' hm' => hms m' (List.mem_cons_of_mem _ hm')
    rw [encodeAll_cons, List.append_assoc, ht.read_member _ _ (hms m List.mem_cons_self), htail]
    simp

/-- So it does in front of the trailer, where the archive ends. -/
theorem read_archive (ht : tar.Lawful) {ms : List Member} (hms : ∀ m ∈ ms, tar.Appends m) :
    tar.read ⟨tar.encodeAll ms ++ trailer, none⟩ = (ms.map .whole, none) := by
  have hend := ht.read_trailer []
  rw [List.append_nil] at hend
  rw [read_encodeAll ht hms, hend, List.append_nil]

end TarLib

end Hush.FileCopy
