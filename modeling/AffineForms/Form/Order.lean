import AffineForms.Form.Algebra
import AffineForms.Residue.Sign

/-!
# Form order — forms as constraints

A form stands for the constraint that it vanishes, and its negation stands for the same one.  So
forms are compared up to sign: of a form and its negation, the normal form is the one whose first
coefficient is not negative.

* `Form.sameConstraint` asks whether two forms are equal or opposite;
* `Form.compare` orders forms by the number of terms, then by the terms of the normal forms, then by
  the constants of the normal forms.  The normal forms are not built: each sign is applied on the
  fly;
* `Form.normalize` builds the normal form.
-/

namespace AffineForms

namespace Form

variable {M : Modulus}

/-- Whether the normal form of `p` is its negation. -/
def isFlipped (p : Form M) : Bool :=
  match p.terms.entries with
  | [] => false
  | (_, leading) :: _ => leading.isNegative

def normalize (p : Form M) : Form M := bif p.isFlipped then p.neg else p

def signed (flip : Bool) (x : Residue M) : Residue M := bif flip then -x else x

/-! ## Equality of constraints -/

def isOppositeOf (p q : Form M) : Bool :=
  p.constant == -q.constant
    && p.terms.size == q.terms.size
    && (p.terms.entries.zip q.terms.entries).all fun (a, b) => a.1 == b.1 && a.2 == -b.2

def sameConstraint (p q : Form M) : Bool :=
  (p.constant == q.constant && p.terms == q.terms) || p.isOppositeOf q

/-! ## Comparison -/

/-- Compares the terms that two lists have in common positions, each list under its own sign. -/
def compareTerms (flipA flipB : Bool) :
    List (Var × Residue M) → List (Var × Residue M) → Ordering
  | (v, a) :: as, (w, b) :: bs =>
      ((v.compare w).then ((signed flipA a).compare (signed flipB b))).then
        (compareTerms flipA flipB as bs)
  | _, _ => .eq

def compare (p q : Form M) : Ordering :=
  ((Ord.compare p.terms.size q.terms.size).then
    (compareTerms p.isFlipped q.isFlipped p.terms.entries q.terms.entries)).then
    ((signed p.isFlipped p.constant).compare (signed q.isFlipped q.constant))

end Form

namespace Affine

variable {M : Modulus}

def sameConstraint : Affine M → Affine M → Bool
  | constant c, constant d => c == d
  | form p, form q => p.sameConstraint q
  | _, _ => false

end Affine

end AffineForms
