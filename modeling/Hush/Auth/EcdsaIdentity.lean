import Hush.Auth.EcdsaKey

/-! The curves of a loaded ECDSA identity: of its public key and of its private key. -/
namespace Hush.Auth.EcdsaKey
open Hush.Lib.Wire

/-- What is relied on of the crates: a point is of the curve that its length gives, and PKCS#8
names the curve of the key. -/
structure Crates.Lawful {κ : Type} (crates : Crates κ) (curveOf : κ → EcdsaCurve) : Prop where
  fromSec1Bytes : ∀ {point k}, crates.fromSec1Bytes point = some k →
    point.length = 2 * fieldSize (curveOf k) + 1
  pkcs8 : ∀ {curve curve' scalar scalar' der}, crates.ecdsaScalarToPkcs8Der curve scalar = .ok der →
    crates.ecdsaScalarToPkcs8Der curve' scalar' = .ok der → curve = curve'

/-- The private key was encoded for the curve of the public key. -/
def LoadedIdentity.Consistent {κ : Type} (crates : Crates κ) (curveOf : κ → EcdsaCurve)
    (id : LoadedIdentity κ) : Prop :=
  ∃ scalar, crates.ecdsaScalarToPkcs8Der (curveOf id.publicKey) scalar = .ok id.privateKeyDer

theorem fieldSize_injective {c c' : EcdsaCurve} (h : fieldSize c = fieldSize c') : c = c' := by
  cases c <;> cases c' <;> first | rfl | exact absurd h (by decide)

theorem ecdsaParamsForName_size {name : Bytes} {curve : EcdsaCurve} {size : Nat}
    (h : ecdsaParamsForName name = some (curve, size)) : size = fieldSize curve := by
  obtain ⟨⟨_, params⟩, hfind, rfl⟩ := Option.map_eq_some_iff.mp h
  have hmem := List.mem_of_find?_eq_some hfind
  simp only [curves, List.mem_cons, List.not_mem_nil, or_false, Prod.mk.injEq] at hmem
  rcases hmem with ⟨-, rfl, rfl⟩ | ⟨-, rfl, rfl⟩ | ⟨-, rfl, rfl⟩ <;> rfl

/-- The key type's name sets curve and size together; the curve's own name is not looked at. -/
theorem readFields_size {buf rest : Bytes} {fields : Fields}
    (h : readFields buf = .ok (fields, rest)) : fields.size = fieldSize fields.curve := by
  unfold readFields at h
  obtain ⟨check1, _, -, h⟩ := bind_eq_ok_iff.mp h
  obtain ⟨check2, _, -, h⟩ := bind_eq_ok_iff.mp h
  split at h
  · cases h
  · obtain ⟨name, _, -, h⟩ := bind_eq_ok_iff.mp h
    cases hname : ecdsaParamsForName name with
    | none =>
      rw [hname] at h
      cases h
    | some params =>
      rw [hname] at h
      obtain ⟨_, _, -, h⟩ := bind_eq_ok_iff.mp h
      obtain ⟨point, _, -, h⟩ := bind_eq_ok_iff.mp h
      obtain ⟨scalar, _, -, h⟩ := bind_eq_ok_iff.mp h
      obtain ⟨comment, _, -, h⟩ := bind_eq_ok_iff.mp h
      cases h
      exact ecdsaParamsForName_size hname

section Accepted
variable {κ : Type} {crates : Crates κ} {curveOf : κ → EcdsaCurve} {privateSection : Bytes}
  {id : LoadedIdentity κ}

/-- What an accepted section has come through. -/
theorem accepted_fields (h : ecdsaIdentityFromSection crates privateSection = .ok id) :
    ∃ fields rest scalar, readFields privateSection = .ok (fields, rest) ∧
      crates.ecdsaScalarToPkcs8Der fields.curve scalar = .ok id.privateKeyDer ∧
      crates.fromSec1Bytes fields.point = some id.publicKey := by
  unfold ecdsaIdentityFromSection at h
  cases hread : readFields privateSection with
  | error e => simp [hread, bind, Except.bind] at h
  | ok p =>
    obtain ⟨fields, rest⟩ := p
    simp only [hread, bind, Except.bind] at h
    cases hscalar : normalizeScalar fields.scalar fields.size with
    | error e => simp [hscalar] at h
    | ok scalar =>
      simp only [hscalar, Crates.identity, bind, Except.bind] at h
      cases hder : crates.ecdsaScalarToPkcs8Der fields.curve scalar with
      | error e => simp [hder] at h
      | ok der =>
        cases hpoint : crates.fromSec1Bytes fields.point with
        | none => simp [hder, hpoint] at h
        | some k =>
          simp only [hder, hpoint, pure, Except.pure, Except.ok.injEq] at h
          subst h
          exact ⟨fields, rest, scalar, rfl, hder, hpoint⟩

/-- An identity is consistent if and only if the point has the length that the name of the key
type gives: 65, 97 or 133 bytes. -/
theorem identity_consistent_iff (hlaw : crates.Lawful curveOf)
    (h : ecdsaIdentityFromSection crates privateSection = .ok id) :
    ∃ fields rest, readFields privateSection = .ok (fields, rest) ∧
      (id.Consistent crates curveOf ↔ fields.point.length = 2 * fields.size + 1) := by
  obtain ⟨fields, rest, scalar, hread, hder, hpoint⟩ := accepted_fields h
  refine ⟨fields, rest, hread, ?_⟩
  have hlength := hlaw.fromSec1Bytes hpoint
  rw [readFields_size hread]
  constructor
  · rintro ⟨scalar', hder'⟩
    rw [hlength, hlaw.pkcs8 hder' hder]
  · intro hsize
    have hcurve : curveOf id.publicKey = fields.curve := fieldSize_injective (by omega)
    exact ⟨scalar, hcurve ▸ hder⟩

end Accepted

namespace Sample

/-- A public key with the curve that the length of its point gives. -/
abbrev EcdsaPublicKey := EcdsaCurve × Bytes

def sec1Curve (point : Bytes) : Option EcdsaCurve :=
  [EcdsaCurve.nistP256, .nistP384, .nistP521].find? fun c => point.length = 2 * fieldSize c + 1

def fromSec1Bytes (point : Bytes) : Option EcdsaPublicKey :=
  if point.head? = some 4 then (sec1Curve point).map (·, point) else none

def p256Generator : Bytes :=
  4 :: (beBytes 32 0x6b17d1f2e12c4247f8bce6e563a440f277037d812deb33a0f4a13945d898c296 ++
    beBytes 32 0x4fe342e2fe1a7f9b8ee7eb4a7c0f9e162bce33576b315ececbb6406837bf51f5)

def p384Generator : Bytes :=
  4 :: (beBytes 24 0xaa87ca22be8b05378eb1c71ef320ad746e1d3b628ba79b98 ++
    beBytes 24 0x59f741e082542a385502f25dbf55296c3a545e3872760ab7 ++
    beBytes 24 0x3617de4a96262c6f5d9e98bf9292dc29f8f41dbd289a147c ++
    beBytes 24 0xe9da3113b5f0b8c00a60b1ce1d7e819d7a431d7c90ea0e5f)

/-- The scalar 1 in PKCS#8, with the generator as its public point. -/
def oneDer : EcdsaCurve → Option Bytes
  | .nistP256 => some
      (beBytes 36 0x308187020100301306072a8648ce3d020106082a8648ce3d030107046d306b0201010420 ++
        beBytes 32 1 ++ beBytes 5 0xa144034200 ++ p256Generator)
  | .nistP384 => some
      (beBytes 35 0x3081b6020100301006072a8648ce3d020106052b8104002204819e30819b0201010430 ++
        beBytes 48 1 ++ beBytes 5 0xa164036200 ++ p384Generator)
  | .nistP521 => none

/-- Crates that know one scalar of two curves. -/
def oneCrates : Crates EcdsaPublicKey where
  base64 := Hush.Lib.Base64.standard
  ecdsaScalarToPkcs8Der := fun curve scalar =>
    match oneDer curve with
    | some der => if scalar = beBytes (fieldSize curve) 1 then .ok der else .error "private key"
    | none => .error "private key"
  fromSec1Bytes := fromSec1Bytes

theorem oneCrates_ok {curve : EcdsaCurve} {scalar der : Bytes}
    (h : oneCrates.ecdsaScalarToPkcs8Der curve scalar = .ok der) : oneDer curve = some der := by
  simp only [oneCrates] at h
  split at h
  · next der' hder =>
    split at h
    · cases h
      exact hder
    · cases h
  · cases h

theorem oneDer_injective {curve curve' : EcdsaCurve} {der : Bytes} (h : oneDer curve = some der)
    (h' : oneDer curve' = some der) : curve = curve' := by
  have hne : oneDer .nistP256 ≠ oneDer .nistP384 := by decide +kernel
  cases curve with
  | nistP256 =>
    cases curve' with
    | nistP256 => rfl
    | nistP384 => exact absurd (h.trans h'.symm) hne
    | nistP521 => cases h'
  | nistP384 =>
    cases curve' with
    | nistP256 => exact absurd (h'.trans h.symm) hne
    | nistP384 => rfl
    | nistP521 => cases h'
  | nistP521 => cases h

theorem oneCrates_lawful : oneCrates.Lawful Prod.fst where
  fromSec1Bytes := by
    intro point k h
    obtain ⟨-, h⟩ := Option.ite_none_right_eq_some.mp h
    obtain ⟨curve, hcurve, rfl⟩ := Option.map_eq_some_iff.mp h
    simpa using List.find?_some hcurve
  pkcs8 := fun h h' => oneDer_injective (oneCrates_ok h) (oneCrates_ok h')

/-- A section for the scalar 1 of P-256, with a point of 65 or of 97 bytes. -/
def sectionWith (point : WireString) : PrivateSection := { p256Section with point }

theorem sectionWith_accepted {point : WireString} {k : EcdsaPublicKey} {der : Bytes}
    (hpoint : fromSec1Bytes point.val = some k) (hder : oneDer .nistP256 = some der) :
    ecdsaIdentityFromSection oneCrates (sectionWith point).body = .ok ⟨k, [], der⟩ := by
  have hread : readFields (sectionWith point).body =
      .ok (⟨.nistP256, 32, point.val, [1], []⟩, []) := by
    rw [← List.append_nil (sectionWith point).body]
    exact (reads_fields (sectionWith point) rfl).ok []
  have hscalar : normalizeScalar [1] 32 = .ok (beBytes 32 1) := normalizeScalar_eq (by decide)
  have hone : oneCrates.ecdsaScalarToPkcs8Der .nistP256 (beBytes 32 1) = .ok der := by
    simp only [oneCrates, hder, fieldSize, if_true]
  have hkey : oneCrates.fromSec1Bytes point.val = some k := hpoint
  have hlossy : Hush.Lib.Utf8.lossy [] = [] := rfl
  simp only [ecdsaIdentityFromSection, hread, bind, Except.bind, hscalar, Crates.identity, hone,
    hkey, hlossy]
  rfl

def p256Point : WireString := ⟨p256Generator, by decide +kernel⟩

def p384Point : WireString := ⟨p384Generator, by decide +kernel⟩

end Sample

theorem identity_consistent_p256 :
    ∃ id, ecdsaIdentityFromSection Sample.oneCrates (Sample.sectionWith Sample.p256Point).body =
      .ok id ∧ id.Consistent Sample.oneCrates Prod.fst := by
  obtain ⟨der, hder⟩ : ∃ der, Sample.oneDer .nistP256 = some der := ⟨_, rfl⟩
  have hpoint : Sample.fromSec1Bytes Sample.p256Point.val =
      some (.nistP256, Sample.p256Point.val) := by decide +kernel
  have hok := Sample.sectionWith_accepted hpoint hder
  obtain ⟨fields, rest, hread, hiff⟩ := identity_consistent_iff Sample.oneCrates_lawful hok
  have hfields := (reads_fields (Sample.sectionWith Sample.p256Point) rfl).ok []
  rw [List.append_nil, hread] at hfields
  cases hfields
  exact ⟨_, hok, hiff.mpr (by decide +kernel)⟩

/-- The name of the key type says P-256, the point is one of P-384. -/
theorem identity_inconsistent :
    ∃ id, ecdsaIdentityFromSection Sample.oneCrates (Sample.sectionWith Sample.p384Point).body =
      .ok id ∧ ¬ id.Consistent Sample.oneCrates Prod.fst := by
  obtain ⟨der, hder⟩ : ∃ der, Sample.oneDer .nistP256 = some der := ⟨_, rfl⟩
  have hpoint : Sample.fromSec1Bytes Sample.p384Point.val =
      some (.nistP384, Sample.p384Point.val) := by decide +kernel
  refine ⟨_, Sample.sectionWith_accepted hpoint hder, ?_⟩
  rintro ⟨scalar, h⟩
  cases Sample.oneDer_injective (Sample.oneCrates_ok h) hder

end Hush.Auth.EcdsaKey
