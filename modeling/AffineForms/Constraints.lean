import AffineForms.Form.Order
import AffineForms.Form.Substitution

/-!
# Constraints — lists of forms taken together

A system of constraints is a list of forms, each of which has to vanish.

* `Constraints.assign` substitutes values in every form, `Constraints.eval` evaluates every form;
* `Constraints.dedup` sorts a system and keeps one form of each run that states the same constraint.
  The sort is stable, so the form that is kept is the one that was given first.
-/

namespace AffineForms
namespace Constraints

variable {M : Modulus}

def assign (forms : List (Form M)) (bindings : Assignment M) :
    Except Fault (List (Affine M × Bool)) :=
  forms.mapM fun p => p.assign bindings

def eval (forms : List (Form M)) (s : Assignment M) : List (Residue M) :=
  forms.map fun p => p.eval s

def sort (forms : List (Form M)) : List (Form M) :=
  forms.mergeSort fun p q => p.compare q != .gt

/-- Drops each form that states the same constraint as the last form kept, which is `kept`. -/
def dropRepeats (kept : Form M) : List (Form M) → List (Form M)
  | [] => []
  | p :: ps => if p.sameConstraint kept then dropRepeats kept ps else p :: dropRepeats p ps

/-- Keeps the first form of each run that states one constraint. -/
def keepFirsts : List (Form M) → List (Form M)
  | [] => []
  | p :: ps => p :: dropRepeats p ps

def dedup (forms : List (Form M)) : List (Form M) := keepFirsts (sort forms)

end Constraints
end AffineForms
