import AffineForms.Form.Basic

/-!
# Form algebra — sums, multiples, relabelling, evaluation

The operations that may cancel terms add coefficients into a map one at a time with
`Terms.accumulate`, which removes a variable as soon as its coefficient reaches zero.

* `Form.erase`, `Form.add`, `Form.sub`, `Form.scale` may collapse and answer an `Affine` value;
* `Form.neg` and `Form.shift` keep all terms and answer a form;
* `Form.relabel` renames the variables and refuses a renaming that makes two of them one;
* `Form.eval` reads unbound variables as zero.
-/

namespace AffineForms

namespace Terms

variable {M : Modulus}

/-- Adds to an optional coefficient; a sum of zero is no coefficient. -/
def addCoefficient (c : Residue M) : Option (Residue M) → Option (Residue M)
  | none => if c = 0 then none else some c
  | some b => if b + c = 0 then none else some (b + c)

/-- Adds terms one after the other, removing each coefficient that reaches zero. -/
def accumulate (terms : Terms M) (additions : List (Var × Residue M)) : Terms M :=
  additions.foldl (fun m e => m.alter e.1 (addCoefficient e.2)) terms

/-- Accumulates the map with fewer entries into the other one; on a tie, the second into the
first. -/
def add (a b : Terms M) : Terms M :=
  if b.size ≤ a.size then accumulate a b.entries else accumulate b a.entries

end Terms

namespace Form

variable {M : Modulus}

/-- Removes the term of a variable. -/
def erase (p : Form M) (v : Var) : Except Fault (Affine M) :=
  Affine.assemble p.constant (p.terms.erase v)

def add (p q : Form M) : Except Fault (Affine M) :=
  Affine.assemble (p.constant + q.constant) (p.terms.add q.terms)

def neg (p : Form M) : Form M := ⟨-p.constant, p.terms.mapValues fun c => -c⟩

def sub (p q : Form M) : Except Fault (Affine M) := p.add q.neg

/-- Adds to the constant. -/
def shift (p : Form M) (delta : Residue M) : Form M := ⟨p.constant + delta, p.terms⟩

/-- Multiplies by a factor.  A factor of zero collapses the form; with any other factor all terms
stay, also those whose coefficient a zero divisor turns into zero. -/
def scale (p : Form M) (factor : Residue M) : Affine M :=
  if factor = 0 then
    .constant 0
  else
    .form ⟨p.constant * factor, p.terms.mapValues fun c => c * factor⟩

/-- Renames every variable; the renaming has to keep the variables of the form apart. -/
def relabel (p : Form M) (f : Var → Var) : Except Fault (Form M) :=
  let terms := Terms.accumulate VarMap.empty (p.terms.entries.map fun e => (f e.1, e.2))
  -- Two variables that become one leave fewer terms, whether or not their coefficients cancel.
  if terms.size = p.terms.size then
    .ok ⟨p.constant, terms⟩
  else
    .error (.collision terms.size p.terms.size)

def eval (p : Form M) (s : Assignment M) : Residue M :=
  (p.terms.entries.filterMap fun e => (s e.1).map fun x => e.2 * x).foldl (· + ·) p.constant

end Form

namespace Affine

variable {M : Modulus}

def eval (r : Affine M) (s : Assignment M) : Residue M :=
  match r with
  | constant c => c
  | form p => p.eval s

end Affine

end AffineForms
