import AffineForms.Bytes
import AffineForms.Residue.Basic

/-!
# Residue encodings — the canonical bytes of a coefficient

A residue is encoded as its representative, little-endian, in the fixed width of the modulus.
Bytes are accepted only if they stand for a number below the modulus, so each residue has exactly
one encoding: `ofBytes?_encode`, `encode_of_ofBytes?`.
-/

namespace AffineForms
namespace Residue

variable {M : Modulus}

def encode (x : Residue M) : List UInt8 :=
  Bytes.ofNat M.width.bytes x.val

def ofBytes? (bytes : List UInt8) : Option (Residue M) :=
  if h : Bytes.toNat bytes < M.value then some ⟨Bytes.toNat bytes, h⟩ else none

@[simp] theorem length_encode (x : Residue M) : x.encode.length = M.width.bytes :=
  Bytes.length_ofNat _ _

theorem toNat_encode (x : Residue M) : Bytes.toNat x.encode = x.val :=
  Bytes.toNat_ofNat (by
    rw [← Width.size_eq_capacity]
    exact Nat.lt_trans x.isLt M.value_lt_size)

theorem ofBytes?_encode (x : Residue M) : ofBytes? x.encode = some x := by
  have h : Bytes.toNat x.encode < M.value := by rw [toNat_encode]; exact x.isLt
  rw [ofBytes?, dif_pos h]
  exact congrArg some (ext (toNat_encode x))

theorem encode_of_ofBytes? {bytes : List UInt8} {x : Residue M}
    (hlen : bytes.length = M.width.bytes) (h : ofBytes? bytes = some x) : x.encode = bytes := by
  unfold ofBytes? at h
  split at h
  · cases h
    rw [encode, ← hlen, Bytes.ofNat_toNat]
  · cases h

theorem encode_inj {x y : Residue M} : x.encode = y.encode ↔ x = y := by
  constructor
  · intro h
    apply ext
    rw [← toNat_encode x, h, toNat_encode]
  · rintro rfl
    rfl

end Residue
end AffineForms
