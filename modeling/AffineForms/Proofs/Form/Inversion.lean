import AffineForms.Proofs.Form.ModuleLaws
import AffineForms.Proofs.Residue.Arithmetic

/-!
# Inversion — over a prime modulus every factor but zero can be undone

`Residue.invert?` answers a power of its argument and never looks whether it is an inverse.  Over a
prime modulus it is the only one, so the answer is `some y` exactly when `x * y = 1`
(`Residue.invert?_eq_some_iff`).  The laws of inversion follow from this and not from the power:

* `Residue.invert?_of_invert?`: the inverse of the inverse is the residue itself;
* `Residue.invert?_mul`: a product is inverted factor by factor, and has no inverse if one of the
  factors has none;
* `Residue.isField`: the residues are a field.

`Form.scale` asks of a factor only whether it is zero, and keeps all terms if it is not.  Over a
prime modulus that is the right question, because the factor can be undone
(`Form.exists_scale_inverse`).
-/

namespace AffineForms

variable {M : Modulus}

/-! ## Inverses -/

namespace Residue

theorem invert?_eq_none_iff {x : Residue M} : x.invert? = none ↔ x = 0 := by
  by_cases hx : x = 0
  · simp [invert?, hx]
  · simp [invert?, hx]

theorem invert?_eq_some_iff (hM : M.value.Prime) {x y : Residue M} :
    x.invert? = some y ↔ x * y = 1 := by
  constructor
  · intro h
    have hx : x ≠ 0 := fun hzero => by simp [invert?_eq_none_iff.2 hzero] at h
    obtain ⟨z, hz, hmul⟩ := exists_inverse hM hx
    rw [← Option.some.inj (hz.symm.trans h), hmul]
  · intro h
    have hx : x ≠ 0 := left_ne_zero_of_mul_eq_one h
    obtain ⟨z, hz, hmul⟩ := exists_inverse hM hx
    rw [hz, eq_of_mul_eq_one hmul h]

theorem invert?_of_invert? (hM : M.value.Prime) {x y : Residue M} (h : x.invert? = some y) :
    y.invert? = some x := by
  rw [invert?_eq_some_iff hM] at h ⊢
  rw [mul_comm, h]

theorem invert?_mul (hM : M.value.Prime) (x y : Residue M) :
    (x * y).invert? = Option.map₂ (· * ·) x.invert? y.invert? := by
  by_cases hx : x = 0
  · have hproduct : x * y = 0 := by rw [hx, zero_mul]
    rw [invert?_eq_none_iff.2 hx, invert?_eq_none_iff.2 hproduct, Option.map₂_none_left]
  · by_cases hy : y = 0
    · have hproduct : x * y = 0 := by rw [hy, mul_zero]
      rw [invert?_eq_none_iff.2 hy, invert?_eq_none_iff.2 hproduct, Option.map₂_none_right]
    · obtain ⟨a, ha, hxa⟩ := exists_inverse hM hx
      obtain ⟨b, hb, hyb⟩ := exists_inverse hM hy
      rw [ha, hb, Option.map₂_some_some, invert?_eq_some_iff hM]
      calc
        x * y * (a * b) = (x * a) * (y * b) := by ring
        _ = 1 := by rw [hxa, hyb, mul_one]

theorem isField (hM : M.value.Prime) : IsField (Residue M) where
  exists_pair_ne := ⟨0, 1, zero_ne_one⟩
  mul_comm := mul_comm
  mul_inv_cancel hx := by
    obtain ⟨y, -, hmul⟩ := exists_inverse hM hx
    exact ⟨y, hmul⟩

/-- On one word the exponent is a single limb, so whatever raises residues to powers given by their
limbs computes the inverse. -/
theorem invert?_eq_power (hwidth : M.width = .word) {power : Residue M → List UInt64 → Residue M}
    (hpower : RaisesToPowers power) {x : Residue M} (hx : x ≠ 0) :
    x.invert? = some (power x [UInt64.ofNat (M.value - 2)]) := by
  rw [invert?, if_neg hx, hpower.eq_pow hwidth (Nat.sub_le _ _)]

end Residue

/-! ## Factors -/

namespace Form

theorem exists_scale_inverse (hM : M.value.Prime) {p : Form M} (hp : p.Valid)
    {factor : Residue M} (hfactor : factor ≠ 0) :
    ∃ scaled inverse, p.scale factor = .form scaled ∧ scaled.Valid ∧
      (∀ v, scaled.coefficient? v = (p.coefficient? v).map fun c => c * factor) ∧
      factor.invert? = some inverse ∧ scaled.scale inverse = .form p := by
  obtain ⟨scaled, hscale, hvalid, hcoefficient, -⟩ := exists_scale hM hp hfactor
  obtain ⟨inverse, hinverse, hmul⟩ := Residue.exists_inverse hM hfactor
  have hback := Affine.scale_inverse hM (x := .form p) hp hmul
  rw [Affine.scale, hscale] at hback
  exact ⟨scaled, inverse, hscale, hvalid, hcoefficient, hinverse, hback⟩

end Form

/-- Every prime below `2 ^ 63` is a modulus whose residues are a field.  Zero alone has no inverse.
Any other residue has one, whose own inverse is that residue; products are inverted factor by
factor, and are not zero.  The inverse is the power with the exponent `p - 2`, whatever computes it.
A factor other than zero keeps all terms of a valid form, with coefficients other than zero, and
scaling by its inverse gives the form back. -/
theorem prime_modulus_field {p : ℕ} (hp : p.Prime) (hhigh : p < 2 ^ 63) :
    ∃ M : Modulus, Modulus.word? p = some M ∧ M.value = p ∧ IsField (Residue M) ∧
      (∀ x : Residue M, x.invert? = none ↔ x = 0) ∧
      (∀ x : Residue M, x ≠ 0 → ∃ y, x.invert? = some y ∧ x * y = 1 ∧ y.invert? = some x) ∧
      (∀ x y : Residue M, x.invert? = some y ↔ x * y = 1) ∧
      (∀ x y : Residue M, (x * y).invert? = Option.map₂ (· * ·) x.invert? y.invert?) ∧
      (∀ power : Residue M → List UInt64 → Residue M, Residue.RaisesToPowers power →
        ∀ x, x ≠ 0 → x.invert? = some (power x [UInt64.ofNat (p - 2)])) ∧
      (∀ x y : Residue M, x ≠ 0 → y ≠ 0 → x * y ≠ 0) ∧
      ∀ (q : Form M) (factor : Residue M), q.Valid → factor ≠ 0 →
        ∃ scaled inverse, q.scale factor = .form scaled ∧ scaled.Valid ∧
          (∀ v, scaled.coefficient? v = (q.coefficient? v).map fun c => c * factor) ∧
          (∀ v c, q.coefficient? v = some c → c * factor ≠ 0) ∧
          factor.invert? = some inverse ∧ scaled.scale inverse = .form q := by
  obtain ⟨M, hM, rfl, hwidth⟩ := Modulus.exists_word? hp.two_le hhigh
  have hproduct : ∀ x y : Residue M, x ≠ 0 → y ≠ 0 → x * y ≠ 0 := by
    intro x y hx hy h
    rcases Residue.eq_zero_or_eq_zero_of_mul hp h with h | h
    · exact hx h
    · exact hy h
  refine ⟨M, hM, rfl, Residue.isField hp, fun x => Residue.invert?_eq_none_iff, ?_,
    fun x y => Residue.invert?_eq_some_iff hp, Residue.invert?_mul hp,
    fun power hpower x => Residue.invert?_eq_power hwidth hpower, hproduct, ?_⟩
  · intro x hx
    obtain ⟨y, hy, hmul⟩ := Residue.exists_inverse hp hx
    exact ⟨y, hy, hmul, Residue.invert?_of_invert? hp hy⟩
  · intro q factor hq hfactor
    obtain ⟨scaled, inverse, hscale, hvalid, hcoefficient, hinverse, hback⟩ :=
      Form.exists_scale_inverse hp hq hfactor
    refine ⟨scaled, inverse, hscale, hvalid, hcoefficient, ?_, hinverse, hback⟩
    intro v c hc
    exact hproduct c factor (Form.ne_zero_of_coefficient?_eq_some hq hc) hfactor

/-- Over two the exponent is zero, and one is its own inverse.  Over seven three is the inverse of
five and six of itself, so the product of three and six has the inverse `5 * 6`, which is two.
Scaling the sample `3 + x0 - 2·x2` by three gives `2 + 3·x0 + x2`, and by five gives it back. -/
theorem prime_modulus_field_two_seven :
    let two : Modulus := ⟨2, .word, by decide, by decide⟩
    let x (n : ℕ) : Residue Modulus.seven := .ofNat n
    let tripled : Form Modulus.seven :=
      ⟨x 2, ⟨[(exampleVar 0, x 3), (exampleVar 2, x 1)], by decide⟩⟩
    Nat.Prime 2 ∧ 2 < 2 ^ 63 ∧ Modulus.word? 2 = some two ∧
      (1 : Residue two) ^ exponentOfLimbs [0] = 1 ∧ (1 : Residue two).invert? = some 1 ∧
      Nat.Prime 7 ∧ 7 < 2 ^ 63 ∧ Modulus.word? 7 = some .seven ∧ IsField (Residue .seven) ∧
      x 3 ≠ 0 ∧ (x 3).invert? = some ((x 3).pow (exponentOfLimbs [5])) ∧
      (x 3).invert? = some (x 5) ∧ (x 6).invert? = some (x 6) ∧
      (x 3 * x 6).invert? = some (x 2) ∧ x 3 * x 6 ≠ 0 ∧
      Form.sample.Valid ∧ Form.sample.scale (x 3) = .form tripled ∧ tripled.Valid ∧
      tripled.scale (x 5) = .form Form.sample := by
  intro two x tripled
  have htwo : Nat.Prime 2 := by decide
  have hseven : Nat.Prime 7 := by decide
  have hsample : Form.sample.Valid := by decide
  have hthree : x 3 ≠ 0 := by decide
  have hsix : x 6 ≠ 0 := by decide
  have hword_two : Modulus.word? 2 = some two := by decide
  have hword_seven : Modulus.word? 7 = some .seven := by decide
  obtain ⟨L, hL, -, -, -, -, hiff_two, -⟩ := prime_modulus_field htwo (by decide)
  obtain rfl : two = L := Option.some.inj (hword_two.symm.trans hL)
  obtain ⟨N, hN, -, hfield, -, -, hiff, hmul, hpower, hproduct, hscale⟩ :=
    prime_modulus_field hseven (by decide)
  obtain rfl : Modulus.seven = N := Option.some.inj (hword_seven.symm.trans hN)
  have hfive : (x 3).invert? = some (x 5) := (hiff _ _).2 (by decide)
  have hself : (x 6).invert? = some (x 6) := (hiff _ _).2 (by decide)
  obtain ⟨scaled, inverse, hscaled, hvalid, -, -, hinverse, hback⟩ :=
    hscale Form.sample (x 3) hsample hthree
  have htripled : Form.sample.scale (x 3) = .form tripled := by decide
  obtain rfl : tripled = scaled := Affine.form.inj (htripled.symm.trans hscaled)
  obtain rfl : x 5 = inverse := Option.some.inj (hfive.symm.trans hinverse)
  refine ⟨htwo, by decide, hword_two, by decide, (hiff_two _ _).2 (by decide), hseven, by decide,
    hword_seven, hfield, hthree, ?_, hfive, hself, ?_, hproduct _ _ hthree hsix, hsample, htripled,
    hvalid, hback⟩
  · exact hpower _ Residue.raisesToPowers_pow _ hthree
  · rw [hmul, hfive, hself]
    decide

end AffineForms
