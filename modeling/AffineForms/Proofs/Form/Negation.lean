import AffineForms.Proofs.Constraints.Representatives
import AffineForms.Proofs.Form.Replacement

/-!
# Negation — which operations do not depend on the sign of a form

A constraint is stated by a form and by its negation alike, and deduplication keeps one of the two.
What is done with the form that is kept should not depend on which one it is.

* Accumulating opposite terms into the opposite map gives the opposite map (`Terms.accumulate_neg`),
  and assembling a value changes the sign of the outcome only (`Affine.assemble_neg`);
* `Operation.apply_neg` puts together the operations that are linear in the form;
* `Alike` compares the outcomes for the two forms of a sign class.

Adding a form, adding to the constant and normalizing are left out: a sum has another sign than its
summand, and normal forms have no sign of their own.
-/

namespace AffineForms

variable {M : Modulus}

/-! ## Opposite maps -/

namespace Terms

variable (terms : Terms M)

/-- The map with the opposite coefficients. -/
def neg : Terms M := terms.mapValues fun c => -c

theorem get?_neg (v : Var) : terms.neg.get? v = (terms.get? v).map fun c => -c :=
  VarMap.get?_mapValues _

theorem size_neg : terms.neg.size = terms.size :=
  VarMap.size_mapValues _

theorem zeroFree_neg_iff : terms.neg.ZeroFree ↔ terms.ZeroFree := by
  simp only [ZeroFree, neg, VarMap.mapValues, List.forall_mem_map, ne_eq, neg_eq_zero]

theorem alter_neg {f g : Option (Residue M) → Option (Residue M)}
    (hfg : ∀ stored : Option (Residue M), f (stored.map fun c => -c) = (g stored).map fun c => -c)
    (v : Var) : terms.neg.alter v f = neg (terms.alter v g) := by
  refine VarMap.ext_get? fun w => ?_
  rw [get?_neg, VarMap.get?_alter, VarMap.get?_alter, get?_neg, get?_neg]
  split
  · exact hfg _
  · rfl

theorem erase_neg (v : Var) : terms.neg.erase v = neg (terms.erase v) :=
  alter_neg (f := fun _ => none) (g := fun _ => none) terms (fun _ => rfl) v

theorem addCoefficient_neg (c : Residue M) (stored : Option (Residue M)) :
    addCoefficient (-c) (stored.map fun b => -b) = (addCoefficient c stored).map fun b => -b := by
  cases stored with
  | none =>
      by_cases hc : c = 0
      · simp [addCoefficient, hc]
      · simp [addCoefficient, hc]
  | some b =>
      have hsum : -b + -c = -(b + c) := by ring
      by_cases hzero : b + c = 0
      · simp only [addCoefficient, Option.map_some, hsum, hzero, neg_zero, if_pos, Option.map_none]
      · simp only [addCoefficient, Option.map_some, hsum, neg_eq_zero, hzero, if_false]

theorem accumulate_neg (additions : List (Var × Residue M)) :
    accumulate terms.neg (additions.map fun e => (e.1, -e.2)) =
      (accumulate terms additions).neg := by
  induction additions generalizing terms with
  | nil => rfl
  | cons e rest ih =>
      have hstep : terms.neg.alter e.1 (addCoefficient (-e.2)) =
          neg (terms.alter e.1 (addCoefficient e.2)) :=
        alter_neg terms (addCoefficient_neg e.2) e.1
      calc
        accumulate terms.neg ((e :: rest).map fun e => (e.1, -e.2))
            = accumulate (terms.neg.alter e.1 (addCoefficient (-e.2)))
                (rest.map fun e => (e.1, -e.2)) := rfl
        _ = (accumulate terms (e :: rest)).neg := by
            rw [hstep, ih]
            rfl

theorem filter_neg (keep : Var → Bool) :
    (terms.neg.filter fun v _ => keep v) = neg (terms.filter fun v _ => keep v) :=
  VarMap.ext_entries (by simp [neg, VarMap.filter, VarMap.mapValues, List.filter_map,
    Function.comp_def])

end Terms

/-! ## Opposite values -/

namespace Affine

def neg : Affine M → Affine M
  | constant c => constant (-c)
  | form p => form p.neg

theorem collapse_neg (c : Residue M) (terms : Terms M) :
    collapse (-c) terms.neg = (collapse c terms).neg := by
  have hempty : terms.neg.isEmpty = terms.isEmpty := by
    simp [VarMap.isEmpty, Terms.neg, VarMap.mapValues]
  unfold collapse
  rw [hempty]
  split
  · rfl
  · rfl

theorem assemble_neg (c : Residue M) (terms : Terms M) :
    assemble (-c) terms.neg = (assemble c terms).map neg := by
  unfold assemble
  by_cases hterms : terms.ZeroFree
  · rw [if_pos hterms, if_pos (terms.zeroFree_neg_iff.2 hterms), collapse_neg]
    rfl
  · rw [if_neg hterms, if_neg fun h => hterms (terms.zeroFree_neg_iff.1 h)]
    rfl

end Affine

/-! ## Opposite forms under an operation -/

namespace Form

variable (p : Form M)

theorem erase_neg (v : Var) : p.neg.erase v = (p.erase v).map Affine.neg := by
  have hterms : p.neg.terms.erase v = Terms.neg (p.terms.erase v) := p.terms.erase_neg v
  rw [erase, hterms]
  exact Affine.assemble_neg p.constant _

theorem scale_neg (factor : Residue M) : p.neg.scale factor = (p.scale factor).neg := by
  unfold scale
  split
  · rw [Affine.neg, neg_zero]
  · have hvalue : (⟨-p.constant * factor, p.neg.terms.mapValues fun c => c * factor⟩ : Form M) =
        neg ⟨p.constant * factor, p.terms.mapValues fun c => c * factor⟩ :=
      ext (by simp [neg]) (by simp [neg, VarMap.mapValues])
    exact congrArg Affine.form hvalue

theorem relabel_neg (f : Var → Var) : p.neg.relabel f = (p.relabel f).map neg := by
  have hterms : p.neg.renamed f = (p.renamed f).neg := by
    have haccumulate := Terms.accumulate_neg (VarMap.empty : Terms M)
      (p.terms.entries.map fun e => (f e.1, e.2))
    rw [List.map_map] at haccumulate
    rw [renamed, renamed, ← haccumulate]
    simp [neg, Terms.neg, VarMap.mapValues, VarMap.empty, Function.comp_def]
  rw [relabel_eq, relabel_eq, hterms, Terms.size_neg, size_neg]
  split
  · rfl
  · rfl

theorem substitute_neg (v : Var) (replacement : Form M) :
    p.neg.substitute v replacement = (p.substitute v replacement).map Affine.neg := by
  have hcoefficient : p.neg.coefficient? v = (p.coefficient? v).map fun c => -c :=
    p.terms.get?_neg v
  unfold substitute
  rw [hcoefficient]
  cases p.coefficient? v with
  | none => rfl
  | some a =>
      have hconstant : -p.constant + replacement.constant * -a =
          -(p.constant + replacement.constant * a) := by ring
      have hadditions : (replacement.terms.entries.map fun e => (e.1, e.2 * -a)) =
          (replacement.terms.entries.map fun e => (e.1, e.2 * a)).map fun e => (e.1, -e.2) := by
        simp
      simp only [Option.map_some]
      split
      · rfl
      · rw [show p.neg.terms = p.terms.neg from rfl, Terms.erase_neg, hadditions,
          Terms.accumulate_neg, show p.neg.constant = -p.constant from rfl, hconstant,
          Affine.assemble_neg]

theorem remainder_neg (bindings : Assignment M) :
    p.neg.remainder bindings =
      ⟨-(p.remainder bindings).constant, (p.remainder bindings).terms.neg,
        (p.remainder bindings).changed⟩ := by
  rw [remainder_eq, remainder_eq]
  refine Remainder.ext ?_ ?_ ?_
  · show -p.constant + bindings.weigh (p.terms.mapValues fun c => -c).entries = _
    rw [Terms.weigh_mapValues_neg]
    ring
  · exact p.terms.filter_neg fun v => (bindings v).isNone
  · simp [neg, VarMap.mapValues, Function.comp_def]

theorem assign_neg (bindings : Assignment M) :
    p.neg.assign bindings = (p.assign bindings).map (Prod.map Affine.neg id) := by
  unfold assign
  rw [remainder_neg]
  simp only [Affine.assemble_neg]
  cases Affine.assemble (p.remainder bindings).constant (p.remainder bindings).terms with
  | error fault => rfl
  | ok r => rfl

end Form

/-! ## Linear operations -/

namespace Operation

/-- The operations that are linear in the form, whatever their other arguments are. -/
def Linear : Operation M → Prop
  | erase _ | neg | scale _ | relabel _ | substitute _ _ | assign _ => True
  | add _ | sub _ | shift _ | normalize => False

theorem apply_neg {op : Operation M} (hop : op.Linear) (p : Form M) :
    op.apply p.neg = (op.apply p).map Affine.neg := by
  cases op with
  | erase v => exact p.erase_neg v
  | neg => rfl
  | scale factor => exact congrArg Except.ok (p.scale_neg factor)
  | relabel f =>
      rw [apply, apply, Form.relabel_neg]
      cases p.relabel f with
      | error fault => rfl
      | ok q => rfl
  | substitute v replacement => exact p.substitute_neg v replacement
  | assign bindings =>
      rw [apply, apply, Form.assign_neg]
      cases p.assign bindings with
      | error fault => rfl
      | ok r => rfl
  | add q => exact hop.elim
  | sub q => exact hop.elim
  | shift delta => exact hop.elim
  | normalize => exact hop.elim

end Operation

/-! ## Outcomes for the two forms of a class -/

/-- The same refusal, or two values of one shape that are equal or opposite. -/
inductive Alike : Except Fault (Affine M) → Except Fault (Affine M) → Prop where
  | refused (fault : Fault) : Alike (.error fault) (.error fault)
  | constant {c d : Residue M} (h : c = d ∨ c = -d) : Alike (.ok (.constant c)) (.ok (.constant d))
  | form {p q : Form M} (h : p = q ∨ p = q.neg) : Alike (.ok (.form p)) (.ok (.form q))

namespace Alike

theorem refl (outcome : Except Fault (Affine M)) : Alike outcome outcome := by
  cases outcome with
  | error fault => exact .refused fault
  | ok r =>
      cases r with
      | constant c => exact .constant (Or.inl rfl)
      | form p => exact .form (Or.inl rfl)

theorem map_neg (outcome : Except Fault (Affine M)) : Alike (outcome.map Affine.neg) outcome := by
  cases outcome with
  | error fault => exact .refused fault
  | ok r =>
      cases r with
      | constant c => exact .constant (Or.inr rfl)
      | form p => exact .form (Or.inr rfl)

theorem eq_constant_zero_iff {a b : Except Fault (Affine M)} (h : Alike a b) :
    a = .ok (.constant 0) ↔ b = .ok (.constant 0) := by
  cases h with
  | refused fault => exact Iff.rfl
  | @constant c d h =>
      rcases h with rfl | rfl
      · exact Iff.rfl
      · simp
  | form h => simp

end Alike

theorem Operation.alike_apply {op : Operation M} (hop : op.Linear) {p q : Form M}
    (h : p.sameConstraint q = true) : Alike (op.apply p) (op.apply q) := by
  rcases (Form.sameConstraint_iff p q).1 h with rfl | rfl
  · exact Alike.refl _
  · rw [apply_neg hop]
    exact Alike.map_neg _

theorem Form.changed_of_sameConstraint {p q : Form M} (h : p.sameConstraint q = true)
    (bindings : Assignment M) :
    (p.assign bindings).map Prod.snd = (q.assign bindings).map Prod.snd := by
  rcases (sameConstraint_iff p q).1 h with rfl | rfl
  · rfl
  · rw [assign_neg]
    cases q.assign bindings with
    | error fault => rfl
    | ok r => rfl

/-- Over every modulus the linear operations commute with negation: for the negation of a form each
of them answers the negation of the value, or is refused for the same reason, and assigning values
raises the flag for both or for neither.  So the outcomes for two forms that state the same
constraint are alike, and one of them collapses to zero exactly when the other does.  This holds for
every given form and the one that deduplication keeps of its class. -/
theorem sign_does_not_matter (M : Modulus) :
    (∀ op : Operation M, op.Linear → ∀ p, op.apply p.neg = (op.apply p).map Affine.neg) ∧
      (∀ (p : Form M) (bindings : Assignment M),
        p.neg.assign bindings = (p.assign bindings).map (Prod.map Affine.neg id)) ∧
      (∀ p q : Form M, p.sameConstraint q = true →
        (∀ op : Operation M, op.Linear → Alike (op.apply p) (op.apply q) ∧
          (op.apply p = .ok (.constant 0) ↔ op.apply q = .ok (.constant 0))) ∧
        ∀ bindings, (p.assign bindings).map Prod.snd = (q.assign bindings).map Prod.snd) ∧
      ∀ (forms : List (Form M)), ∀ p ∈ forms, ∃ q ∈ Constraints.dedup forms,
        p.sameConstraint q = true ∧
          ∀ op : Operation M, op.Linear → Alike (op.apply p) (op.apply q) := by
  refine ⟨fun op hop p => Operation.apply_neg hop p, Form.assign_neg, fun p q h => ⟨?_, ?_⟩, ?_⟩
  · intro op hop
    have halike := Operation.alike_apply hop h
    exact ⟨halike, halike.eq_constant_zero_iff⟩
  · exact Form.changed_of_sameConstraint h
  · intro forms p hp
    obtain ⟨q, hq, hsame⟩ :=
      Constraints.exists_mem_keepFirsts (Constraints.mem_sort.2 hp)
    exact ⟨q, hq, hsame, fun op hop => Operation.alike_apply hop hsame⟩

/-- Over fifteen, the form `3·x0 + x1` and its negation: giving both variables one name is refused
for both, and with `x0` five and `x1` zero both collapse to zero. -/
theorem sign_does_not_matter_fifteen :
    let q := threeAndOne.neg
    let bindings :=
      Assignment.ofList [(⟨5, by decide⟩ : Residue Modulus.fifteen), 0]
    let merge : Operation Modulus.fifteen := .relabel fun _ => exampleVar 2
    let assign : Operation Modulus.fifteen := .assign bindings
    q.sameConstraint threeAndOne = true ∧ merge.Linear ∧ assign.Linear ∧
      Alike (merge.apply q) (merge.apply threeAndOne) ∧
      merge.apply threeAndOne = .error (.collision 1 2) ∧
      Alike (assign.apply q) (assign.apply threeAndOne) ∧
      assign.apply q = .ok (.constant 0) ∧
      (q.assign bindings).map Prod.snd = (threeAndOne.assign bindings).map Prod.snd := by
  intro q bindings merge assign
  have hsame : q.sameConstraint threeAndOne = true := by decide
  have hmerge : merge.Linear := trivial
  have hassign : assign.Linear := trivial
  have hcollapse : assign.apply threeAndOne = .ok (.constant 0) := by decide
  obtain ⟨-, -, hclass, -⟩ := sign_does_not_matter Modulus.fifteen
  obtain ⟨houtcome, hflag⟩ := hclass q threeAndOne hsame
  exact ⟨hsame, hmerge, hassign, (houtcome merge hmerge).1, by decide, (houtcome assign hassign).1,
    (houtcome assign hassign).2.2 hcollapse, hflag bindings⟩

end AffineForms
