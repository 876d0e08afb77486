import AffineForms.Form.Algebra

/-!
# Form substitution — replacing variables by forms and by values

`Form.substitute` eliminates one variable: with `p = a · v + rest`, the result is
`rest + a · replacement`.  The replacement must not mention the variable itself, which matters only
when the variable occurs.

`Form.assign` replaces every bound variable by its value in a single pass.  It also answers whether
any term was bound, which tells a caller who works in rounds whether the form changed.
-/

namespace AffineForms

/-- What is left of a form part of the way through a pass over its terms. -/
structure Remainder (M : Modulus) where
  constant : Residue M
  terms : Terms M
  changed : Bool
  deriving DecidableEq, Repr

namespace Remainder

variable {M : Modulus}

/-- Folds a bound term into the constant, and keeps an unbound one. -/
def step (bindings : Assignment M) (rest : Remainder M) (term : Var × Residue M) : Remainder M :=
  match bindings term.1 with
  | some value =>
      { rest with constant := rest.constant + term.2 * value, changed := true }
  | none => { rest with terms := rest.terms.insert term.1 term.2 }

end Remainder

namespace Form

variable {M : Modulus}

def substitute (p : Form M) (v : Var) (replacement : Form M) : Except Fault (Affine M) :=
  match p.coefficient? v with
  -- Without an occurrence there is nothing to replace, whatever the replacement mentions.
  | none => .ok (.form p)
  | some a =>
      if replacement.mentions v then
        .error (.selfReference v)
      else
        Affine.assemble (p.constant + replacement.constant * a)
          (Terms.accumulate (p.terms.erase v)
            (replacement.terms.entries.map fun e => (e.1, e.2 * a)))

/-- The remainder of a form after one pass over all of its terms. -/
def remainder (p : Form M) (bindings : Assignment M) : Remainder M :=
  p.terms.entries.foldl (Remainder.step bindings) ⟨p.constant, VarMap.empty, false⟩

/-- Replaces the bound variables by their values; the flag tells whether there were any. -/
def assign (p : Form M) (bindings : Assignment M) : Except Fault (Affine M × Bool) :=
  let rest := p.remainder bindings
  match Affine.assemble rest.constant rest.terms with
  | .error fault => .error fault
  | .ok value => .ok (value, rest.changed)

end Form

end AffineForms
