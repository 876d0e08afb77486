import AffineForms.Proofs.Form.Binding

/-!
# Assigning — what one pass over the terms takes out, and what it leaves

One loop maintains the constant, the terms that are kept and the flag together.  At its end
(`Form.remainder_eq`) the three say different things about the same bound terms:

* `Form.get?_terms_assigned`: a variable without a value keeps its coefficient, and a variable with
  a value is gone;
* `Form.constantTerm_assigned`: the constant is what the form evaluates to under the known values
  alone;
* `Form.flag_assigned_iff_exists`: the flag is up when a variable of the form has a value.

The flag cannot be read off the constant.  A bound term may fold to zero, if the value is zero or if
zero divisors meet, and then only the terms show that the form has changed.
-/

namespace AffineForms

variable {M : Modulus}

theorem Affine.collapse_eq_constant_iff {c : Residue M} {terms : Terms M} :
    collapse c terms = .constant c ↔ terms.entries = [] := by
  constructor
  · intro h
    have hterms := terms_collapse c terms
    rw [h] at hterms
    exact congrArg VarMap.entries hterms.symm
  · intro hnil
    exact if_pos (List.isEmpty_iff.2 hnil)

namespace Form

variable (p : Form M) (bindings : Assignment M)

/-! ## The parts of the answer -/

theorem fst_assigned :
    (p.assigned bindings).1 =
      .collapse (p.eval bindings) (p.terms.filter fun v _ => (bindings v).isNone) := by
  rw [assigned, remainder_eq, eval_eq]

theorem constantTerm_assigned : (p.assigned bindings).1.constantTerm = p.eval bindings := by
  rw [fst_assigned, Affine.constantTerm_collapse]

theorem get?_terms_assigned (v : Var) :
    (p.assigned bindings).1.terms.get? v =
      if (bindings v).isSome then none else p.coefficient? v := by
  rw [fst_assigned, Affine.terms_collapse, VarMap.get?_filter, coefficient?]
  cases bindings v with
  | none => cases p.terms.get? v <;> rfl
  | some x => cases p.terms.get? v <;> rfl

theorem flag_assigned_iff_exists :
    (p.assigned bindings).2 = true ↔ ∃ v, p.mentions v = true ∧ (bindings v).isSome := by
  rw [assigned, remainder_eq, List.any_eq_true]
  constructor
  · rintro ⟨e, he, hbound⟩
    exact ⟨e.1, mentions_of_mem he, hbound⟩
  · rintro ⟨v, hv, hbound⟩
    obtain ⟨c, hc⟩ := mentions_iff.1 hv
    exact ⟨(v, c), hc, hbound⟩

variable {p bindings}

theorem assigned_of_flag_eq_false (hp : p.Valid) (h : (p.assigned bindings).2 = false) :
    p.assigned bindings = (.form p, false) := by
  refine assigned_of_unbound hp fun v hv => ?_
  by_contra hne
  have hflag : (p.assigned bindings).2 = true :=
    (p.flag_assigned_iff_exists bindings).2 ⟨v, hv, Option.isSome_iff_ne_none.2 hne⟩
  exact Bool.false_ne_true (h.symm.trans hflag)

/-- Nothing but the constant is left exactly when every variable of the form has a value. -/
theorem assigned_eq_constant_iff :
    (p.assigned bindings).1 = .constant (p.eval bindings) ↔
      ∀ v, p.mentions v = true → (bindings v).isSome := by
  rw [fst_assigned, Affine.collapse_eq_constant_iff, VarMap.filter, List.filter_eq_nil_iff]
  constructor
  · intro h v hv
    obtain ⟨c, hc⟩ := mentions_iff.1 hv
    simpa [Option.isSome_iff_ne_none] using h (v, c) hc
  · intro h e he
    simpa [Option.isSome_iff_ne_none] using h e.1 (mentions_of_mem he)

end Form

/-- Assigning values to a valid form always answers.  The variables that are left are those without
a value, with the coefficients they had, and the constant is what the form evaluates to under the
known values alone.  The flag is up exactly when the form mentions a variable with a value; if it is
down, the form is answered as it is.  Under every assignment the answer evaluates as the form does
with the known values in front, and it is a constant exactly when all variables of the form have a
value. -/
theorem assign_replaces_bound {p : Form M} (hp : p.Valid) (bindings : Assignment M) :
    ∃ value changed, p.assign bindings = .ok (value, changed) ∧ value.Valid ∧
      (∀ v, value.terms.get? v = if (bindings v).isSome then none else p.coefficient? v) ∧
      value.constantTerm = p.eval bindings ∧
      (changed = true ↔ ∃ v, p.mentions v = true ∧ (bindings v).isSome) ∧
      (changed = false → value = .form p) ∧
      (∀ s, value.eval s = p.eval (bindings.orElse s)) ∧
      (value = .constant (p.eval bindings) ↔
        ∀ v, p.mentions v = true → (bindings v).isSome) := by
  refine ⟨(p.assigned bindings).1, (p.assigned bindings).2, Form.assign_eq_ok_assigned hp bindings,
    Form.valid_assigned hp bindings, p.get?_terms_assigned bindings,
    p.constantTerm_assigned bindings, p.flag_assigned_iff_exists bindings, fun hflag => ?_,
    Form.eval_assigned hp bindings, Form.assigned_eq_constant_iff⟩
  rw [Form.assigned_of_flag_eq_false hp hflag]

/-- Over fifteen, five for `x0` in `3·x0 + x1` folds to zero: the constant stays, and the flag is up
because the term in `x0` is gone. -/
theorem assign_replaces_bound_fifteen :
    let bindings : Assignment Modulus.fifteen := .ofList [⟨5, by decide⟩]
    let s : Assignment Modulus.fifteen := .ofList [1, ⟨2, by decide⟩]
    threeAndOne.Valid ∧
      ∃ value changed, threeAndOne.assign bindings = .ok (value, changed) ∧
        value = .form (.ofVar (exampleVar 1)) ∧ changed = true ∧
        (∀ v, value.terms.get? v =
          if (bindings v).isSome then none else threeAndOne.coefficient? v) ∧
        value.constantTerm = threeAndOne.constant ∧
        value.eval s = threeAndOne.eval (bindings.orElse s) ∧
        value ≠ .constant (threeAndOne.eval bindings) := by
  intro bindings s
  have hp : threeAndOne.Valid := by decide
  have hx : (bindings (exampleVar 0)).isSome := by decide
  obtain ⟨value, changed, hassign, -, hterms, hconstant, hflag, -, heval, hcollapse⟩ :=
    assign_replaces_bound hp bindings
  have hanswer : threeAndOne.assign bindings = .ok (.form (.ofVar (exampleVar 1)), true) := by
    decide
  have hvalue : value = .form (.ofVar (exampleVar 1)) :=
    congrArg Prod.fst (Except.ok.inj (hassign.symm.trans hanswer))
  refine ⟨hp, value, changed, hassign, hvalue, hflag.2 ⟨exampleVar 0, by decide, hx⟩, hterms,
    hconstant.trans (by decide), heval s, fun h => ?_⟩
  exact absurd (hcollapse.1 h (exampleVar 1) (by decide)) (by decide)

end AffineForms
