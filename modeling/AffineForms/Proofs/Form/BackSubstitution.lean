import AffineForms.Proofs.Form.Binding

/-!
# Back-substitution — the value of a variable that was eliminated

Once the other variables have values, an eliminated variable gets the value of its replacement.
There are two ways to use these values in a form:

* substitute the replacement first, and assign the values to the form that is left;
* evaluate the replacement first, and assign its value together with the others
  (`Assignment.extend`).

The first way adds up and cancels terms before any value is known, and may collapse early.  Both
results are in canonical shape, so it is enough to compare what they evaluate to:
`back_substitution` reduces the identity to one between values.
-/

namespace AffineForms

variable {M : Modulus}

/-- The assignment that gives `v` the value `x`, and every other variable what it had. -/
def Assignment.extend (s : Assignment M) (v : Var) (x : Residue M) : Assignment M :=
  fun w => if w = v then some x else s w

theorem Assignment.extend_eq_orElse (s : Assignment M) (v : Var) (x : Residue M) :
    s.extend v x = (ofMap (VarMap.singleton v x)).orElse s := by
  funext w
  rw [extend, orElse, ofMap, VarMap.get?_singleton]
  split
  · rfl
  · rfl

theorem Form.eval_extend_orElse (p : Form M) (bindings : Assignment M) (v : Var) (x : Residue M)
    (s : Assignment M) :
    p.eval ((bindings.extend v x).orElse s) =
      p.eval (bindings.orElse s) + p.terms.coeffAt v * (x - (bindings.orElse s).read v) := by
  rw [Assignment.extend_eq_orElse, Assignment.orElse_assoc, eval_orElse_singleton]

/-- Let `r` not mention `v`, and let all variables of `r` be bound.  Substituting `r` for `v` and
then assigning the bound values answers the same value as assigning all at once, where `v` gets the
value of `r`.  Variables without a value stay in both results, and a value that `v` is bound to is
not used in either. -/
theorem back_substitution {p r : Form M} (hp : p.Valid) {v : Var}
    (hv : r.mentions v = false) {bindings : Assignment M}
    (hbound : ∀ u, r.mentions u = true → (bindings u).isSome) :
    ∃ result,
      (p.substitute v r >>= fun left => left.andThen fun q => (q.assign bindings).map Prod.fst) =
          .ok result ∧
        (p.assign (bindings.extend v (r.eval bindings))).map Prod.fst = .ok result := by
  obtain ⟨left, hleft, hleft_valid, hleft_eval⟩ := Form.exists_substitute hp hv
  obtain ⟨result, hresult, hresult_valid, hresult_eval⟩ := Affine.exists_assign hleft_valid bindings
  obtain ⟨direct, hdirect, hdirect_valid, hdirect_eval⟩ :=
    Form.exists_assign hp (bindings.extend v (r.eval bindings))
  have hsame : direct = result := by
    refine Affine.eq_of_forall_eval_eq hdirect_valid hresult_valid fun s => ?_
    calc
      direct.eval s
          = p.eval (bindings.orElse s) +
              p.terms.coeffAt v * (r.eval bindings - (bindings.orElse s).read v) := by
            rw [hdirect_eval, Form.eval_extend_orElse]
      _ = left.eval (bindings.orElse s) := by
            rw [hleft_eval, Form.eval_orElse_of_bound hbound]
      _ = result.eval s := (hresult_eval s).symm
  refine ⟨result, ?_, ?_⟩
  · rw [hleft]
    exact hresult
  · rw [hdirect, ← hsame]
    rfl

/-- Over fifteen, `x2` is lost when `5·x2 + x3` is put for `x0` in `3·x0 + x1`, and `x1` has no
value.  With `x2` two and `x3` four both ways answer `12 + x1`. -/
theorem back_substitution_fifteen :
    let bindings : Assignment Modulus.fifteen :=
      (Assignment.ofMap (VarMap.singleton (exampleVar 2) ⟨2, by decide⟩)).extend (exampleVar 3)
        ⟨4, by decide⟩
    threeAndOne.Valid ∧ fiveAndOne.mentions (exampleVar 0) = false ∧
      (∀ u, fiveAndOne.mentions u = true → (bindings u).isSome) ∧
      ∃ result,
        (threeAndOne.substitute (exampleVar 0) fiveAndOne >>= fun left =>
            left.andThen fun q => (q.assign bindings).map Prod.fst) = .ok result ∧
          (threeAndOne.assign
            (bindings.extend (exampleVar 0) (fiveAndOne.eval bindings))).map Prod.fst =
              .ok result ∧
          result = .form ⟨⟨12, by decide⟩, VarMap.singleton (exampleVar 1) 1⟩ := by
  intro bindings
  have hp : threeAndOne.Valid := by decide
  have hv : fiveAndOne.mentions (exampleVar 0) = false := by decide
  have hbound : ∀ u, fiveAndOne.mentions u = true → (bindings u).isSome := by
    intro u hu
    obtain ⟨c, hc⟩ := Form.mentions_iff.1 hu
    have hvars : (u, c) = (exampleVar 2, ⟨5, by decide⟩) ∨ (u, c) = (exampleVar 3, 1) := by
      simpa [fiveAndOne] using hc
    rcases hvars with hu | hu
    · cases hu
      decide
    · cases hu
      decide
  obtain ⟨result, hfirst, hdirect⟩ := back_substitution hp hv hbound
  have hvalue : result = .form ⟨⟨12, by decide⟩, VarMap.singleton (exampleVar 1) 1⟩ :=
    Except.ok.inj (hfirst.symm.trans (by decide))
  exact ⟨hp, hv, hbound, result, hfirst, hdirect, hvalue⟩

end AffineForms
