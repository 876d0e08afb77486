import AffineForms.Form.Order

/-!
# Form hashing — the bytes fed to a hash function

The stream of a form is read off its normal form, so that the two signs of one constraint feed the
same bytes: the constant, the number of terms, then each variable with its coefficient.  A field
element is preceded by the length of its encoding, and a leading byte keeps constants and forms
apart.
-/

namespace AffineForms

/-- Bytes after their number, which is written as a word. -/
def hashSlice (bytes : List UInt8) : List UInt8 := Bytes.ofNat 8 bytes.length ++ bytes

namespace Form

variable {M : Modulus}

def hashStream (p : Form M) : List UInt8 :=
  hashSlice (signed p.isFlipped p.constant).encode
    ++ Bytes.ofNat 8 p.terms.size
    ++ p.terms.entries.flatMap fun e =>
      e.1.encode ++ hashSlice (signed p.isFlipped e.2).encode

end Form

namespace Affine

variable {M : Modulus}

def hashStream : Affine M → List UInt8
  | constant c => 0 :: hashSlice c.encode
  | form p => 1 :: p.hashStream

end Affine

end AffineForms
