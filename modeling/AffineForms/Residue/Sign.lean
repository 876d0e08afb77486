import AffineForms.Residue.Encoding

/-!
# Residue signs — order, negative residues, magnitudes

Residues are ordered by representative.  A residue is negative when it is best read as minus a
smaller number, that is, when its representative lies above the midpoint `(p - 1) / 2`.

Each question has two answers, and `Residue.compare` and `Residue.isNegative` choose between them by
the width of the modulus:

* on one word, from the representative itself (`compareByValue`, `isAboveMidpoint`);
* on four words, from the encodings alone (`compareByEncoding`, `isAboveOpposite`), without
  knowledge of the modulus.
-/

namespace AffineForms
namespace Residue

variable {M : Modulus}

def compareByValue (x y : Residue M) : Ordering :=
  Ord.compare x.val y.val

def compareByEncoding (x y : Residue M) : Ordering :=
  Bytes.compare x.encode y.encode

def compare (x y : Residue M) : Ordering :=
  match M.width with
  | .word => x.compareByValue y
  | .wide => x.compareByEncoding y

/-- In characteristic two no residue lies above the midpoint. -/
def isAboveMidpoint (x : Residue M) : Bool :=
  2 < M.value && (M.value - 1) / 2 < x.val

def isAboveOpposite (x : Residue M) : Bool :=
  x.compareByEncoding (-x) == .gt

def isNegative (x : Residue M) : Bool :=
  match M.width with
  | .word => x.isAboveMidpoint
  | .wide => x.isAboveOpposite

def magnitude (x : Residue M) : Residue M :=
  bif x.isNegative then -x else x

end Residue
end AffineForms
