import AffineForms.Proofs.Form.Replacement
import AffineForms.Proofs.Residue.Power

/-!
# Elimination — solving one constraint for a variable, and replacing it in another

Over a field a form `p = a · v + rest` is solved for `v` by scaling `rest` with `-a⁻¹`.  The
solution does not mention `v`, and it differs from `v` by a multiple of `p` (`exists_solution`).

So putting the solution for `v` into another form `q` changes the value of `q` by a multiple of the
value of `p` (`Form.exists_replace`).  `elimination_step` draws the consequences: where `p` vanishes
nothing changes, and `p` itself becomes zero everywhere, which is the constant zero because the
canonical shape leaves no other value that is zero everywhere.
-/

namespace AffineForms

variable {M : Modulus}

namespace Affine

/-- Multiplies a value by a factor; a constant stays one. -/
def scale : Affine M → Residue M → Affine M
  | constant c, factor => constant (c * factor)
  | form p, factor => p.scale factor

theorem eval_scale (r : Affine M) (factor : Residue M) (s : Assignment M) :
    (r.scale factor).eval s = r.eval s * factor := by
  cases r with
  | constant c => rfl
  | form p => exact p.eval_scale factor s

theorem valid_scale (hM : M.value.Prime) {r : Affine M} (h : r.Valid) (factor : Residue M) :
    (r.scale factor).Valid := by
  cases r with
  | constant c => trivial
  | form p => exact Form.valid_scale h (Operation.regular_of_prime hM (.scale factor))

end Affine

/-- Over a field a factor other than zero scales a valid form to a valid form. -/
theorem Form.exists_scale (hM : M.value.Prime) {p : Form M} (hp : p.Valid) {factor : Residue M}
    (hfactor : factor ≠ 0) :
    ∃ scaled, p.scale factor = .form scaled ∧ scaled.Valid ∧
      (∀ v, scaled.coefficient? v = (p.coefficient? v).map fun c => c * factor) ∧
      ∀ s : Assignment M, scaled.eval s = p.eval s * factor := by
  have hscale : p.scale factor =
      .form ⟨p.constant * factor, p.terms.mapValues fun c => c * factor⟩ := if_neg hfactor
  have hvalid : (p.scale factor).Valid := Affine.valid_scale hM (r := .form p) hp factor
  refine ⟨_, hscale, ?_, fun v => VarMap.get?_mapValues _, fun s => ?_⟩
  · rwa [hscale] at hvalid
  · have heval := p.eval_scale factor s
    rwa [hscale] at heval

theorem exists_solution (hM : M.value.Prime) {p : Form M} (hp : p.Valid) {v : Var} {a : Residue M}
    (ha : p.coefficient? v = some a) :
    ∃ inverse rest, a.invert? = some inverse ∧ a * inverse = 1 ∧ p.erase v = .ok rest ∧
      (rest.scale (-inverse)).mentions v = false ∧
      ∀ s, (rest.scale (-inverse)).eval s = s.read v - inverse * p.eval s := by
  have hcoeff : p.terms.coeffAt v = a := Form.coeffAt_of_coefficient?_eq_some ha
  obtain ⟨inverse, hinverse, hmul⟩ :=
    Residue.exists_inverse hM (Form.ne_zero_of_coefficient?_eq_some hp ha)
  obtain ⟨rest, hrest, hvalid, heval⟩ := Form.exists_erase hp v
  have hsolution : ∀ s, (rest.scale (-inverse)).eval s = s.read v - inverse * p.eval s := by
    intro s
    rw [Affine.eval_scale, heval, hcoeff]
    linear_combination s.read v * hmul
  refine ⟨inverse, rest, hinverse, hmul, hrest, ?_, hsolution⟩
  -- The coefficient of `v` in the solution is `1 - a⁻¹ · a`.
  rw [Affine.mentions_eq_false_iff (Affine.valid_scale hM hvalid _),
    Affine.coeffAt_eq_eval Probe.ofMaps, hsolution, hsolution, Probe.read_unit, Probe.read_origin,
    if_pos rfl]
  rw [Form.coeffAt_eq_eval Probe.ofMaps] at hcoeff
  linear_combination -hmul - inverse * hcoeff

/-- Over a field a valid form `p` in which `v` occurs can be solved for `v`, and the solution can be
put into every valid form `q`.  The result does not mention `v`.  Where `p` vanishes it takes the
value of `q`, so the same assignments satisfy both constraints as before; and `p` itself becomes the
constant zero.  The inverse of the coefficient is the same whatever computes it. -/
theorem elimination_step (hM : M.value.Prime) {p q : Form M} (hp : p.Valid) (hq : q.Valid)
    {v : Var} {a : Residue M} (ha : p.coefficient? v = some a) :
    ∃ inverse rest result, a.invert? = some inverse ∧ a * inverse = 1 ∧ p.erase v = .ok rest ∧
      q.replace v (rest.scale (-inverse)) = .ok result ∧ result.mentions v = false ∧
      (∀ s, p.eval s = 0 → result.eval s = q.eval s) ∧
      (∀ s, p.eval s = 0 ∧ q.eval s = 0 ↔ p.eval s = 0 ∧ result.eval s = 0) ∧
      p.replace v (rest.scale (-inverse)) = .ok (.constant 0) ∧ a.IsInverse inverse := by
  obtain ⟨inverse, rest, hinverse, hmul, hrest, hmentions, hsolution⟩ := exists_solution hM hp ha
  obtain ⟨result, hresult, -, hremoved, heval⟩ := Form.exists_replace hq hmentions
  obtain ⟨self, hself, hself_valid, -, hself_eval⟩ := Form.exists_replace hp hmentions
  have hsame : ∀ s, p.eval s = 0 → result.eval s = q.eval s := by
    intro s hs
    rw [heval, hsolution, hs]
    ring
  have hcoeff : p.terms.coeffAt v = a := Form.coeffAt_of_coefficient?_eq_some ha
  have hzero : self = .constant 0 := by
    refine Affine.eq_of_forall_eval_eq hself_valid trivial fun s => ?_
    rw [hself_eval, hsolution, hcoeff, Affine.eval]
    linear_combination -(p.eval s) * hmul
  refine ⟨inverse, rest, result, hinverse, hmul, hrest, hresult, hremoved, hsame, ?_,
    hzero ▸ hself, Residue.isInverse_of_mul_eq_one hM hmul⟩
  intro s
  constructor
  · rintro ⟨hps, hqs⟩
    exact ⟨hps, (hsame s hps).trans hqs⟩
  · rintro ⟨hps, hrs⟩
    exact ⟨hps, (hsame s hps).symm.trans hrs⟩

/-- The form `1 + 2·x0 + 3·x2` is `2 + 2·(3 + x0 - 2·x2)` over seven, so it contradicts the sample:
eliminating `x2` leaves the constant two.  The coefficient five has the inverse three, which is its
power with the exponent five. -/
theorem elimination_step_sample :
    let q : Form Modulus.seven :=
      ⟨1, ⟨[(exampleVar 0, ⟨2, by decide⟩), (exampleVar 2, ⟨3, by decide⟩)], by decide⟩⟩
    Modulus.seven.value.Prime ∧ Form.sample.Valid ∧ q.Valid ∧
      Form.sample.coefficient? (exampleVar 2) = some ⟨5, by decide⟩ ∧
      ∃ inverse rest result, Form.sample.erase (exampleVar 2) = .ok rest ∧
        q.replace (exampleVar 2) (rest.scale (-inverse)) = .ok result ∧
        result = .constant ⟨2, by decide⟩ ∧
        (∀ s, Form.sample.eval s = 0 → result.eval s = q.eval s) ∧
        inverse = ⟨3, by decide⟩ ∧
        Residue.invert? (⟨5, by decide⟩ : Residue Modulus.seven) = some inverse ∧
        Residue.pow (⟨5, by decide⟩ : Residue Modulus.seven) (exponentOfLimbs [5]) = inverse := by
  intro q
  have hM : Modulus.seven.value.Prime := by decide
  have hp : Form.sample.Valid := by decide
  have hq : q.Valid := by decide
  have ha : Form.sample.coefficient? (exampleVar 2) = some ⟨5, by decide⟩ := by decide
  obtain ⟨inverse, rest, result, hinverse, -, hrest, hresult, -, hsame, -, -, hcomputed⟩ :=
    elimination_step hM hp hq ha
  have hthree : inverse = ⟨3, by decide⟩ := Option.some.inj (hinverse.symm.trans (by decide))
  have hhead : rest = .form ⟨⟨3, by decide⟩, VarMap.singleton (exampleVar 0) 1⟩ :=
    Except.ok.inj (hrest.symm.trans (by decide))
  have hcontradiction : result = .constant ⟨2, by decide⟩ := by
    rw [hthree, hhead] at hresult
    exact Except.ok.inj (hresult.symm.trans (by decide))
  exact ⟨hM, hp, hq, ha, inverse, rest, result, hrest, hresult, hcontradiction, hsame, hthree,
    hcomputed.of_inverts _ (Residue.inverts_invert? hM),
    hcomputed.of_power rfl _ Residue.raisesToPowers_pow⟩

end AffineForms
