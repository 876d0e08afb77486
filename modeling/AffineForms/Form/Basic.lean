import AffineForms.Assignment

/-!
# Form — affine forms in canonical shape

A form is `constant + Σ coefficient · variable`.  It is `Valid` when it has at least one term and
no coefficient is zero; in that shape no two forms take the same values everywhere.

An operation that may lose its last term answers an `Affine` value instead, which is a constant or
a form.  `Affine.assemble` is the one way from a map of coefficients to such a value: it refuses a
map that stores a zero (`Fault.zeroCoefficient`) and collapses an empty map to the constant.

* `Affine.ofMap` drops the zeros of a map first;
* `Affine.ofTerms` first sums the coefficients of repeated variables;
* `Form.ofVar` and `Form.pin` build the forms `v` and `value - v`.
-/

namespace AffineForms

/-! ## Faults -/

/-- Violated preconditions of the operations on forms. -/
inductive Fault where
  | zeroCoefficient
  | collision (found expected : Nat)
  | selfReference (v : Var)
  deriving DecidableEq, Repr

namespace Fault

def message : Fault → String
  | zeroCoefficient =>
      "assertion failed: terms.values().all(|coeff| !coeff.is_zero_vartime())"
  | collision found expected =>
      "assertion `left == right` failed: renumbering collided two variables\n  left: "
        ++ toString found ++ "\n right: " ++ toString expected
  | selfReference v =>
      "substitution of " ++ String.ofList v.render ++ " is self-referential"

end Fault

/-! ## Maps of coefficients -/

namespace Terms

variable {M : Modulus}

def ZeroFree (terms : Terms M) : Prop := ∀ e ∈ terms.entries, e.2 ≠ 0

instance (terms : Terms M) : Decidable terms.ZeroFree :=
  inferInstanceAs (Decidable (∀ e ∈ terms.entries, e.2 ≠ 0))

def dropZeros (terms : Terms M) : Terms M := terms.filter fun _ c => c != 0

/-- Sums the coefficients of each variable of a list of terms; a sum of zero is kept. -/
def total (terms : List (Var × Residue M)) : Terms M :=
  terms.foldl (fun m e => m.alter e.1 fun c => some (c.getD 0 + e.2)) VarMap.empty

theorem zeroFree_dropZeros (terms : Terms M) : terms.dropZeros.ZeroFree := by
  intro e he
  have hkeep := (List.mem_filter.1 he).2
  simpa using hkeep

end Terms

/-! ## Forms and values -/

structure Form (M : Modulus) where
  constant : Residue M
  terms : Terms M
  deriving DecidableEq, Repr

namespace Form

variable {M : Modulus}

theorem ext {p q : Form M} (hconstant : p.constant = q.constant)
    (hentries : p.terms.entries = q.terms.entries) : p = q := by
  obtain ⟨c, ⟨k, _⟩⟩ := p
  obtain ⟨d, ⟨l, _⟩⟩ := q
  cases hconstant
  cases hentries
  rfl

def Valid (p : Form M) : Prop := p.terms.entries ≠ [] ∧ p.terms.ZeroFree

instance (p : Form M) : Decidable p.Valid :=
  inferInstanceAs (Decidable (p.terms.entries ≠ [] ∧ p.terms.ZeroFree))

def ofVar (v : Var) : Form M := ⟨0, VarMap.singleton v 1⟩

/-- The form `value - v`, which vanishes exactly where `v` is `value`. -/
def pin (v : Var) (value : Residue M) : Form M := ⟨value, VarMap.singleton v (-1)⟩

/-- The variables of a form, ascending. -/
def vars (p : Form M) : List Var := p.terms.keys

def size (p : Form M) : Nat := p.terms.size

def coefficient? (p : Form M) (v : Var) : Option (Residue M) := p.terms.get? v

def mentions (p : Form M) (v : Var) : Bool := p.terms.contains v

/-- The form `3 + x0 - 2·x2` over the field of seven elements. -/
def sample : Form Modulus.seven where
  constant := ⟨3, by decide⟩
  terms := ⟨[(Supply.initial.next, ⟨1, by decide⟩), (⟨2, by decide⟩, ⟨5, by decide⟩)], by decide⟩

end Form

/-- A constant, or a form with terms left. -/
inductive Affine (M : Modulus) where
  | constant (c : Residue M)
  | form (p : Form M)
  deriving DecidableEq, Repr

namespace Affine

variable {M : Modulus}

def Valid : Affine M → Prop
  | constant _ => True
  | form p => p.Valid

instance : (r : Affine M) → Decidable r.Valid
  | constant _ => isTrue trivial
  | form p => inferInstanceAs (Decidable p.Valid)

/-! ### Construction -/

def collapse (c : Residue M) (terms : Terms M) : Affine M :=
  if terms.isEmpty then constant c else form ⟨c, terms⟩

/-- The value with the given coefficients, none of which may be zero. -/
def assemble (c : Residue M) (terms : Terms M) : Except Fault (Affine M) :=
  if terms.ZeroFree then .ok (collapse c terms) else .error .zeroCoefficient

def ofMap (c : Residue M) (terms : Terms M) : Affine M := collapse c terms.dropZeros

/-- The value `c + Σ coefficient · variable` of a list of terms, in any order and with repeats. -/
def ofTerms (c : Residue M) (terms : List (Var × Residue M)) : Affine M :=
  ofMap c (Terms.total terms)

/-- Dropping the zeros first meets the condition of `assemble`. -/
theorem assemble_dropZeros (c : Residue M) (terms : Terms M) :
    assemble c terms.dropZeros = .ok (ofMap c terms) :=
  if_pos terms.zeroFree_dropZeros

theorem assemble_eq_ok {c : Residue M} {terms : Terms M} (h : terms.ZeroFree) :
    assemble c terms = .ok (collapse c terms) :=
  if_pos h

theorem collapse_of_ne_nil {c : Residue M} {terms : Terms M} (h : terms.entries ≠ []) :
    collapse c terms = form ⟨c, terms⟩ :=
  if_neg fun hempty => h (List.isEmpty_iff.1 hempty)

theorem valid_collapse {c : Residue M} {terms : Terms M} (h : terms.ZeroFree) :
    (collapse c terms).Valid := by
  unfold collapse
  split
  · trivial
  · rename_i hne
    refine ⟨?_, h⟩
    intro hnil
    exact hne (List.isEmpty_iff.2 hnil)

/-! ### Parts -/

def isConstant : Affine M → Bool
  | constant _ => true
  | form _ => false

def constant? : Affine M → Option (Residue M)
  | constant c => some c
  | form _ => none

def form? : Affine M → Option (Form M)
  | constant _ => none
  | form p => some p

/-- The constant term, whether or not other terms remain. -/
def constantTerm : Affine M → Residue M
  | constant c => c
  | form p => p.constant

/-- The number of terms; a constant has none. -/
def size : Affine M → Nat
  | constant _ => 0
  | form p => p.size

/-- Continues with an operation on forms; a constant is passed through. -/
def andThen {ε : Type} (r : Affine M) (f : Form M → Except ε (Affine M)) :
    Except ε (Affine M) :=
  match r with
  | constant c => .ok (constant c)
  | form p => f p

end Affine

end AffineForms
