import AffineForms.Residue.Basic
import AffineForms.VarMap.Basic

/-!
# Assignment — partial maps from variables to values

An assignment gives some of the variables a value.  What an unbound variable means is up to the
reader: evaluation takes it for zero, substitution leaves its term in place.

* `Assignment.ofMap` reads a finite map;
* `Assignment.ofList` binds the variables `x0`, `x1`, … to the entries of a list.
-/

namespace AffineForms

/-- The coefficients of some variables. -/
abbrev Terms (M : Modulus) := VarMap (Residue M)

abbrev Assignment (M : Modulus) := Var → Option (Residue M)

namespace Assignment

variable {M : Modulus}

def ofMap (m : Terms M) : Assignment M := m.get?

def ofList (values : List (Residue M)) : Assignment M := fun v => values[v.index]?

end Assignment

end AffineForms
