import AffineForms.Proofs.Form.Assigning
import AffineForms.Proofs.Form.Merging
import AffineForms.Proofs.Form.ModuleLaws
import AffineForms.Proofs.Form.Relabelling

/-!
# SingleTerms — taking a term out and putting it in undo each other

A term `a · v` is taken out of a form by `Form.erase`, and put in by adding the form
`Form.ofTerm v a`.  Without its last term a form is a constant, and the term is put in by adding
this constant to `a · v`.  `Affine.add` covers both cases.

* `Form.erase_bind_add`: a term that is taken out and put in again leaves the form as it was;
* `Form.exists_add_ofTerm`: a term of a new variable is put in without a collapse;
* `Form.erase_bind_erase`: two terms are taken out in any order.

The forms that are recovered are the same forms, not merely the same up to sign.  A term with a
coefficient other than zero is all that is needed, so zero divisors do no harm.
-/

namespace AffineForms

/-! ## Maps with one entry less -/

namespace VarMap

variable {α : Type} (m : VarMap α) (v w : Var)

theorem erase_erase_comm : (m.erase v).erase w = (m.erase w).erase v := by
  refine ext_get? fun u => ?_
  simp only [get?_erase]
  split
  · split
    · rfl
    · rfl
  · rfl

theorem keys_erase : (m.erase v).keys.toFinset = m.keys.toFinset.erase v := by
  ext w
  rw [Finset.mem_erase, List.mem_toFinset, List.mem_toFinset, mem_keys_iff, mem_keys_iff, contains,
    get?_erase]
  by_cases hwv : w = v
  · simp [hwv]
  · simp [hwv, contains]

variable {m v} in
theorem size_erase (h : m.contains v = true) : (m.erase v).size + 1 = m.size := by
  have hmem : v ∈ m.keys.toFinset := List.mem_toFinset.2 (mem_keys_iff.2 h)
  calc
    (m.erase v).size + 1 = (m.erase v).keys.toFinset.card + 1 := by rw [card_keys]
    _ = (m.keys.toFinset.erase v).card + 1 := by rw [keys_erase]
    _ = m.keys.toFinset.card := Finset.card_erase_add_one hmem
    _ = m.size := m.card_keys

end VarMap

variable {M : Modulus}

/-! ## Forms with one term -/

namespace Form

/-- The form `a · v`. -/
def ofTerm (v : Var) (a : Residue M) : Form M := ⟨0, VarMap.singleton v a⟩

variable {p : Form M} {v : Var} {a : Residue M}

theorem scale_ofVar (ha : a ≠ 0) : (ofVar v).scale a = .form (ofTerm v a) := by
  rw [scale, if_neg ha]
  simp [ofVar, ofTerm, VarMap.mapValues, VarMap.singleton]

theorem valid_ofTerm (ha : a ≠ 0) : (ofTerm v a).Valid :=
  ⟨List.cons_ne_nil _ _, Terms.zeroFree_singleton ha⟩

theorem eval_ofTerm (v : Var) (a : Residue M) (s : Assignment M) :
    (ofTerm v a).eval s = a * s.read v := by
  rw [eval_eq]
  simp [ofTerm, VarMap.singleton]

/-! ## Out and in again -/

theorem erase_eq_ok (hp : p.Valid) (v : Var) :
    p.erase v = .ok (.collapse p.constant (p.terms.erase v)) :=
  Affine.assemble_eq_ok (Terms.zeroFree_erase hp.2 v)

theorem erase_bind_add (hp : p.Valid) (ha : p.coefficient? v = some a) :
    (p.erase v >>= fun t => t.add (.form (ofTerm v a))) = .ok (.form p) := by
  -- Valid values that evaluate alike are the same, so it does not matter whether `p` collapses.
  have hterm : (ofTerm v a).Valid := valid_ofTerm (ne_zero_of_coefficient?_eq_some hp ha)
  have hleft : Denotes (p.erase v >>= fun t => t.add (.form (ofTerm v a))) p.eval := by
    refine Denotes.bind (exists_erase hp v) fun t ht heval => ?_
    refine (Affine.denotes_add ht (y := .form (ofTerm v a)) hterm).congr fun s => ?_
    rw [heval, Affine.eval, eval_ofTerm, coeffAt_of_coefficient?_eq_some ha]
    ring
  exact hleft.eq (Denotes.of_valid (r := .form p) hp)

/-- What is left is a constant when the term was the only one. -/
theorem collapse_erase_eq_constant_iff (ha : p.coefficient? v = some a) :
    (∃ c, Affine.collapse p.constant (p.terms.erase v) = .constant c) ↔ p.size = 1 := by
  have hsize : (p.terms.erase v).size + 1 = p.size :=
    VarMap.size_erase (VarMap.contains_iff.2 ⟨a, ha⟩)
  rw [← hsize, Nat.add_eq_right, VarMap.size, List.length_eq_zero_iff]
  constructor
  · rintro ⟨c, hc⟩
    have hterms := Affine.terms_collapse p.constant (p.terms.erase v)
    rw [hc] at hterms
    exact congrArg VarMap.entries hterms.symm
  · intro hnil
    exact ⟨p.constant, Affine.collapse_eq_constant_iff.2 hnil⟩

/-! ## In and out again -/

/-- Whichever of the two maps is copied, the sum has one entry for the new variable. -/
theorem exists_add_ofTerm (hp : p.Valid) (hv : p.mentions v = false) (ha : a ≠ 0) :
    ∃ sum, p.add (ofTerm v a) = .ok (.form sum) ∧ sum.Valid ∧ sum.coefficient? v = some a ∧
      sum.erase v = .ok (.form p) := by
  have hterm : (ofTerm v a).Valid := valid_ofTerm ha
  obtain ⟨r, hr, hvalid, heval⟩ := exists_add hp hterm
  have hcoeff : r.terms.coeffAt v = a := by
    obtain rfl : .collapse _ (p.terms.add (ofTerm v a).terms) = r :=
      Except.ok.inj ((Affine.assemble_eq_ok (Terms.zeroFree_add hp.2 hterm.2)).symm.trans hr)
    rw [Affine.terms_collapse, Terms.coeffAt_add, Terms.coeffAt_of_contains_eq_false hv, ofTerm,
      Terms.coeffAt, VarMap.get?_singleton, if_pos rfl, Option.getD_some, zero_add]
  cases r with
  | constant c =>
      -- A constant has the coefficient zero everywhere.
      exact absurd hcoeff.symm ha
  | form sum =>
      have hsum : sum.terms.coeffAt v = a := hcoeff
      refine ⟨sum, hr, hvalid, ?_, ?_⟩
      · rw [coefficient?, Terms.get?_eq_coeffAt hvalid.2, hsum, if_neg ha]
      · have herase : Denotes (sum.erase v) p.eval := by
          refine Denotes.congr (exists_erase hvalid v) fun s => ?_
          have hvalue : sum.eval s = p.eval s + (ofTerm v a).eval s := heval s
          rw [hvalue, eval_ofTerm, hsum, add_sub_cancel_right]
        exact herase.eq (Denotes.of_valid (r := .form p) hp)

theorem size_of_erase_eq_form {q : Form M} (hp : p.Valid) (hv : p.mentions v = true)
    (h : p.erase v = .ok (.form q)) : p.size = q.size + 1 := by
  rw [erase_eq_ok hp] at h
  have hterms : p.terms.erase v = q.terms := by
    rw [← Affine.terms_collapse p.constant (p.terms.erase v), Except.ok.inj h, Affine.terms]
  rw [size, size, ← hterms, VarMap.size_erase hv]

end Form

/-! ## Two terms -/

theorem Affine.andThen_erase {r : Affine M} (hr : r.Valid) (v : Var) :
    (r.andThen fun q => q.erase v) = .ok (collapse r.constantTerm (r.terms.erase v)) := by
  cases r with
  | constant c => rfl
  | form p => exact Form.erase_eq_ok hr v

theorem Form.erase_bind_erase {p : Form M} (hp : p.Valid) (v w : Var) :
    (p.erase v >>= fun t => t.andThen fun q => q.erase w) =
      .ok (.collapse p.constant ((p.terms.erase v).erase w)) := by
  rw [erase_eq_ok hp]
  have hrest : (Affine.collapse p.constant (p.terms.erase v)).Valid :=
    Affine.valid_collapse (Terms.zeroFree_erase hp.2 v)
  have hthen := Affine.andThen_erase hrest w
  rwa [Affine.constantTerm_collapse, Affine.terms_collapse] at hthen

/-- If a variable occurs with the coefficient `a`, then taking its term out of a form and adding
`a · v` gives back the form: `a · v` is added to the form that is left, or to the constant, which is
left when the term was the only one.  If a variable does not occur, then adding `a · v` answers a
form with one term more, and taking that out gives back the form.  Two terms are taken out with the
same result in either order, where a constant is passed through.  Nothing is refused. -/
theorem erase_add_inverse {p : Form M} (hp : p.Valid) (v : Var) :
    (∀ a, p.coefficient? v = some a →
      ∃ term rest, (Form.ofVar v).scale a = .form term ∧ p.erase v = .ok rest ∧
        (∀ q, rest = .form q → q.add term = .ok (.form p)) ∧
        (∀ c, rest = .constant c → term.shift c = p) ∧
        ((∃ c, rest = .constant c) ↔ p.size = 1)) ∧
      (p.mentions v = false → ∀ a, a ≠ 0 →
        ∃ term sum, (Form.ofVar v).scale a = .form term ∧ p.add term = .ok (.form sum) ∧
          sum.Valid ∧ sum.size = p.size + 1 ∧ sum.erase v = .ok (.form p)) ∧
      ∀ w, ∃ rest, (p.erase v >>= fun t => t.andThen fun q => q.erase w) = .ok rest ∧
        (p.erase w >>= fun t => t.andThen fun q => q.erase v) = .ok rest := by
  refine ⟨?_, ?_, ?_⟩
  · intro a ha
    have hback := Form.erase_bind_add hp ha
    rw [Form.erase_eq_ok hp] at hback
    refine ⟨Form.ofTerm v a, _, Form.scale_ofVar (Form.ne_zero_of_coefficient?_eq_some hp ha),
      Form.erase_eq_ok hp v, ?_, ?_, Form.collapse_erase_eq_constant_iff ha⟩
    · intro q hq
      rwa [hq] at hback
    · intro c hc
      rw [hc] at hback
      exact Affine.form.inj (Except.ok.inj hback)
  · intro hv a ha
    obtain ⟨sum, hsum, hvalid, hcoefficient, herase⟩ := Form.exists_add_ofTerm hp hv ha
    have hmentions : sum.mentions v = true := VarMap.contains_iff.2 ⟨a, hcoefficient⟩
    exact ⟨Form.ofTerm v a, sum, Form.scale_ofVar ha, hsum, hvalid,
      Form.size_of_erase_eq_form hvalid hmentions herase, herase⟩
  · intro w
    refine ⟨_, Form.erase_bind_erase hp v w, ?_⟩
    rw [Form.erase_bind_erase hp, VarMap.erase_erase_comm]

/-- Over seven, take `5·x2` out of `3 + x0 - 2·x2` and put it in again, and do the same with the
only term of `4 + 2·x1`, where a constant is left.  Put a term in `x1` into the first form and take
it out again.  Both terms of the first form, taken out in either order, leave the constant three. -/
theorem erase_add_inverse_seven :
    let x : Fin 4 → Var := exampleVar
    let two : Residue Modulus.seven := .ofNat 2
    let five : Residue Modulus.seven := .ofNat 5
    let p := Form.sample
    let q : Form Modulus.seven := ⟨.ofNat 4, VarMap.singleton (x 1) two⟩
    p.Valid ∧ q.Valid ∧ p.coefficient? (x 2) = some five ∧ q.coefficient? (x 1) = some two ∧
      p.mentions (x 1) = false ∧ five ≠ 0 ∧
      (∃ term rest, (Form.ofVar (x 2)).scale five = .form term ∧
        p.erase (x 2) = .ok (.form rest) ∧ rest.add term = .ok (.form p)) ∧
      (∃ term, (Form.ofVar (x 1)).scale two = .form term ∧
        q.erase (x 1) = .ok (.constant (.ofNat 4)) ∧ term.shift (.ofNat 4) = q) ∧
      (∃ term sum, (Form.ofVar (x 1)).scale five = .form term ∧ p.add term = .ok (.form sum) ∧
        sum.size = p.size + 1 ∧ sum.erase (x 1) = .ok (.form p)) ∧
      ∃ rest, (p.erase (x 2) >>= fun t => t.andThen fun r => r.erase (x 0)) = .ok rest ∧
        (p.erase (x 0) >>= fun t => t.andThen fun r => r.erase (x 2)) = .ok rest ∧
        rest = .constant (.ofNat 3) := by
  intro x two five p q
  have hp : p.Valid := by decide
  have hq : q.Valid := by decide
  have hfive : p.coefficient? (x 2) = some five := by decide
  have htwo : q.coefficient? (x 1) = some two := by decide
  have habsent : p.mentions (x 1) = false := by decide
  have hne : five ≠ 0 := by decide
  obtain ⟨hout, -, htwice⟩ := erase_add_inverse hp (x 2)
  obtain ⟨-, hin, -⟩ := erase_add_inverse hp (x 1)
  obtain ⟨hlast, -, -⟩ := erase_add_inverse hq (x 1)
  obtain ⟨term, left, hterm, hleft, hback, -, -⟩ := hout five hfive
  have hform : left = .form ⟨.ofNat 3, VarMap.singleton (x 0) 1⟩ :=
    Except.ok.inj (hleft.symm.trans (by decide))
  obtain ⟨only, bare, honly, hbare, -, hshift, -⟩ := hlast two htwo
  have hconstant : bare = .constant (.ofNat 4) := Except.ok.inj (hbare.symm.trans (by decide))
  obtain ⟨new, sum, hnew, hsum, -, hsize, herase⟩ := hin habsent five hne
  obtain ⟨rest, hfirst, hsecond⟩ := htwice (x 0)
  have hvalue : rest = .constant (.ofNat 3) := Except.ok.inj (hfirst.symm.trans (by decide))
  exact ⟨hp, hq, hfive, htwo, habsent, hne, ⟨term, _, hterm, hform ▸ hleft, hback _ hform⟩,
    ⟨only, honly, hconstant ▸ hbare, hshift _ hconstant⟩, ⟨new, sum, hnew, hsum, hsize, herase⟩,
    ⟨rest, hfirst, hsecond, hvalue⟩⟩

end AffineForms
