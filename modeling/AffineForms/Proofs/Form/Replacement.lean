import AffineForms.Proofs.Form.Meaning

/-!
# Replacement — what putting a form or values in the place of variables does to the value

Substituting a form for a variable and assigning values to the bound variables are two routines.
Both are described by the function that the result computes:

* `Form.exists_substitute`: the value changes by the coefficient of the variable, times the
  difference between the replacement and the variable;
* `Form.remainder_eq` gives the constant, the terms and the flag at the end of the pass over the
  terms, and `Form.exists_assign` concludes that the result is the form evaluated with the bound
  values in front (`Assignment.orElse`).

`Form.replace` takes either routine, as the replacement is a form or a constant, and the difference
does not show (`Form.exists_replace`).
-/

namespace AffineForms

/-! ## A form for one variable -/

namespace Form

variable {M : Modulus} {p : Form M} {v : Var}

theorem coeffAt_of_coefficient?_eq_some {a : Residue M} (h : p.coefficient? v = some a) :
    p.terms.coeffAt v = a :=
  congrArg (·.getD 0) h

theorem ne_zero_of_coefficient?_eq_some (hp : p.Valid) {a : Residue M}
    (ha : p.coefficient? v = some a) : a ≠ 0 := by
  rintro rfl
  exact Terms.zeroFree_iff.1 hp.2 v ha

theorem substitute_of_not_mentions (h : p.mentions v = false) (r : Form M) :
    p.substitute v r = .ok (.form p) := by
  have hnone : p.coefficient? v = none := by
    simpa [mentions, VarMap.contains, coefficient?] using h
  rw [substitute, hnone]

theorem exists_substitute (hp : p.Valid) {r : Form M} (hr : r.mentions v = false) :
    ∃ result, p.substitute v r = .ok result ∧ result.Valid ∧
      ∀ s, result.eval s = p.eval s + p.terms.coeffAt v * (r.eval s - s.read v) := by
  cases hcoefficient : p.coefficient? v with
  | none =>
      -- Without an occurrence the form is answered as it is.
      have hzero : p.terms.coeffAt v = 0 := congrArg (·.getD 0) hcoefficient
      refine ⟨.form p, by rw [substitute, hcoefficient], hp, fun s => ?_⟩
      rw [Affine.eval, hzero]
      ring
  | some a =>
      have ha : p.terms.coeffAt v = a := coeffAt_of_coefficient?_eq_some hcoefficient
      obtain ⟨result, hresult, hvalid, heval⟩ :=
        exists_assemble
          (Terms.zeroFree_accumulate (Terms.zeroFree_erase hp.2 v)
            (r.terms.entries.map fun e => (e.1, e.2 * a)))
          (p.constant + r.constant * a)
      refine ⟨result, ?_, hvalid, fun s => ?_⟩
      · simp only [substitute, hcoefficient, hr]
        exact hresult
      · rw [heval, Terms.weigh_accumulate, Terms.weigh_erase, Assignment.weigh_map_mul, eval_eq,
          eval_eq, ha]
        ring

end Form

/-! ## Values for the bound variables -/

namespace Assignment

variable {M : Modulus}

/-- The bound values of `bindings`, and those of `s` for all other variables. -/
def orElse (bindings s : Assignment M) : Assignment M := fun v => (bindings v).or (s v)

theorem weigh_orElse (bindings s : Assignment M) (terms : List (Var × Residue M)) :
    (bindings.orElse s).weigh terms =
      bindings.weigh terms + s.weigh (terms.filter fun e => (bindings e.1).isNone) := by
  induction terms with
  | nil => simp
  | cons e terms ih =>
      cases hbound : bindings e.1 with
      | none =>
          simp only [weigh_cons, ih, List.filter_cons, read, orElse, hbound, Option.none_or,
            Option.isNone_none, if_pos, Option.getD_none]
          ring
      | some x =>
          simp only [weigh_cons, ih, List.filter_cons, read, orElse, hbound, Option.some_or,
            Option.isNone_some, Bool.false_eq_true, if_false, Option.getD_some]
          ring

end Assignment

namespace Remainder

variable {M : Modulus}

theorem ext {a b : Remainder M} (hconstant : a.constant = b.constant) (hterms : a.terms = b.terms)
    (hchanged : a.changed = b.changed) : a = b := by
  cases a
  cases b
  cases hconstant
  cases hterms
  cases hchanged
  rfl

variable (bindings : Assignment M)

/-- One step of the pass, at a term beyond the terms kept so far. -/
theorem step_parts {rest : Remainder M} {e : Var × Residue M}
    (hrest : ∀ d ∈ rest.terms.entries, d.1 < e.1) :
    (rest.step bindings e).constant = rest.constant + e.2 * bindings.read e.1 ∧
      (rest.step bindings e).terms.entries =
        rest.terms.entries ++ [e].filter (fun e => (bindings e.1).isNone) ∧
      (rest.step bindings e).changed = (rest.changed || (bindings e.1).isSome) := by
  cases hbound : bindings e.1 with
  | some x => simp [step, Assignment.read, hbound]
  | none =>
      have hinsert : (rest.terms.insert e.1 e.2).entries = rest.terms.entries ++ [e] :=
        VarMap.entries_insert_of_forall_lt e.2 hrest
      simp [step, Assignment.read, hbound, hinsert]

/-- The pass over ascending terms that all lie beyond the terms kept so far. -/
theorem foldl_step {terms : List (Var × Residue M)} (hterms : terms.Pairwise fun a b => a.1 < b.1)
    (rest : Remainder M) (hrest : ∀ d ∈ rest.terms.entries, ∀ e ∈ terms, d.1 < e.1) :
    (terms.foldl (step bindings) rest).constant = rest.constant + bindings.weigh terms ∧
      (terms.foldl (step bindings) rest).terms.entries =
        rest.terms.entries ++ terms.filter (fun e => (bindings e.1).isNone) ∧
      (terms.foldl (step bindings) rest).changed =
        (rest.changed || terms.any fun e => (bindings e.1).isSome) := by
  induction terms generalizing rest with
  | nil => simp
  | cons e terms ih =>
      obtain ⟨hconstant, hkept, hchanged⟩ :=
        step_parts bindings fun d hd => hrest d hd e List.mem_cons_self
      -- A term that is kept comes after those kept so far and before those to come.
      have hnext : ∀ d ∈ (rest.step bindings e).terms.entries, ∀ f ∈ terms, d.1 < f.1 := by
        rw [hkept]
        intro d hd f hf
        rcases List.mem_append.1 hd with hd | hd
        · exact hrest d hd f (List.mem_cons_of_mem _ hf)
        · rcases List.mem_singleton.1 (List.mem_filter.1 hd).1 with rfl
          exact (List.pairwise_cons.1 hterms).1 f hf
      obtain ⟨ihconstant, ihkept, ihchanged⟩ := ih (List.pairwise_cons.1 hterms).2 _ hnext
      rw [List.foldl_cons, ihconstant, ihkept, ihchanged, hconstant, hkept, hchanged]
      refine ⟨?_, ?_, ?_⟩
      · rw [Assignment.weigh_cons, add_assoc]
      · rw [List.append_assoc, ← List.filter_append, List.singleton_append]
      · rw [List.any_cons, Bool.or_assoc]

end Remainder

namespace Form

variable {M : Modulus} {p : Form M}

/-- The pass folds the bound terms into the constant, keeps the others, and raises the flag when
there is a bound term. -/
theorem remainder_eq (p : Form M) (bindings : Assignment M) :
    p.remainder bindings =
      ⟨p.constant + bindings.weigh p.terms.entries, p.terms.filter fun v _ => (bindings v).isNone,
        p.terms.entries.any fun e => (bindings e.1).isSome⟩ := by
  obtain ⟨hconstant, hkept, hchanged⟩ :=
    Remainder.foldl_step bindings p.terms.ascending ⟨p.constant, VarMap.empty, false⟩
      (by simp [VarMap.empty])
  exact Remainder.ext hconstant (VarMap.ext_entries hkept) hchanged

theorem exists_assign (hp : p.Valid) (bindings : Assignment M) :
    ∃ result, p.assign bindings = .ok (result, (p.remainder bindings).changed) ∧ result.Valid ∧
      ∀ s, result.eval s = p.eval (bindings.orElse s) := by
  refine ⟨_, assign_eq_ok hp.2 bindings, Affine.valid_collapse (zeroFree_remainder hp.2 bindings),
    fun s => ?_⟩
  rw [Affine.eval_collapse, remainder_eq, eval_eq, Assignment.weigh_orElse, VarMap.filter]
  ring

end Form

/-! ## Either routine -/

namespace Affine

variable {M : Modulus} {result r : Affine M} {p : Form M} {v : Var}

/-- The coefficients after a replacement, read off its effect on the value. -/
theorem coeffAt_of_eval_eq {a : Residue M}
    (h : ∀ s, result.eval s = p.eval s + a * (r.eval s - s.read v)) (u : Var) :
    result.terms.coeffAt u =
      p.terms.coeffAt u + a * (r.terms.coeffAt u - if v = u then 1 else 0) := by
  rw [coeffAt_eq_eval Probe.ofMaps result, coeffAt_eq_eval Probe.ofMaps r,
    Form.coeffAt_eq_eval Probe.ofMaps p, h, h, Probe.read_unit, Probe.read_origin]
  ring

/-- A replacement that does not mention the variable removes it. -/
theorem mentions_of_eval_eq (hvalid : result.Valid) (hr : r.mentions v = false)
    (h : ∀ s, result.eval s = p.eval s + p.terms.coeffAt v * (r.eval s - s.read v)) :
    result.mentions v = false := by
  rw [mentions_eq_false_iff hvalid, coeffAt_of_eval_eq h, Terms.coeffAt_of_contains_eq_false hr,
    if_pos rfl]
  ring

end Affine

namespace Form

variable {M : Modulus} {p : Form M}

/-- Puts a value in the place of a variable: a form is substituted, a constant is assigned. -/
def replace (p : Form M) (v : Var) : Affine M → Except Fault (Affine M)
  | .constant c => (p.assign (.ofMap (VarMap.singleton v c))).map Prod.fst
  | .form r => p.substitute v r

theorem eval_orElse_singleton (p : Form M) (v : Var) (c : Residue M) (s : Assignment M) :
    p.eval ((Assignment.ofMap (VarMap.singleton v c)).orElse s) =
      p.eval s + p.terms.coeffAt v * (c - s.read v) := by
  have hread : ∀ w, ((Assignment.ofMap (VarMap.singleton v c)).orElse s).read w =
      if w = v then c else s.read w := by
    intro w
    rw [Assignment.read, Assignment.orElse, Assignment.ofMap, VarMap.get?_singleton]
    split <;> simp [Assignment.read]
  have hupdate := Affine.eval_update (v := v) (fun w hw => (hread w).trans (if_neg hw)) (.form p)
  rw [hread, if_pos rfl] at hupdate
  exact hupdate

theorem exists_replace (hp : p.Valid) {v : Var} {r : Affine M} (hr : r.mentions v = false) :
    ∃ result, p.replace v r = .ok result ∧ result.Valid ∧ result.mentions v = false ∧
      ∀ s, result.eval s = p.eval s + p.terms.coeffAt v * (r.eval s - s.read v) := by
  cases r with
  | form r =>
      obtain ⟨result, hresult, hvalid, heval⟩ := exists_substitute hp hr
      exact ⟨result, hresult, hvalid, Affine.mentions_of_eval_eq hvalid hr heval, heval⟩
  | constant c =>
      obtain ⟨result, hassign, hvalid, hassigned⟩ :=
        exists_assign hp (.ofMap (VarMap.singleton v c))
      have heval : ∀ s, result.eval s =
          p.eval s + p.terms.coeffAt v * ((Affine.constant c).eval s - s.read v) := by
        intro s
        rw [hassigned, eval_orElse_singleton, Affine.eval]
      refine ⟨result, ?_, hvalid, Affine.mentions_of_eval_eq hvalid hr heval, heval⟩
      rw [replace, hassign]
      rfl

end Form

end AffineForms
