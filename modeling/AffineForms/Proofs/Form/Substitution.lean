import AffineForms.Proofs.Form.Elimination

/-!
# Substitution — what it refuses, what it answers, and the plain route to the same answer

Substituting `r` for `v` in `p` is refused exactly when both mention `v`.  All other substitutions
answer a value, and `substitution_sound` says which one: where `v` has the value of `r` it evaluates
like `p`, and if `v` occurs with the coefficient `a`, its parts are those of `p + a · r` without `v`
(`Form.Eliminated`).

The coefficients are read off the values (`Affine.coeffAt_of_eval_eq`), so neither the products that
zero divisors turn into zero nor the terms that cancel need cases of their own.

Over a field the same answer is reached by erasing `v`, scaling `r`, and adding the two up
(`substitute_eq_erase_scale_add`).  Over other rings scaling may store zeros, and the sum of such a
form need not be accepted.
-/

namespace AffineForms

variable {M : Modulus}

/-! ## The answer of a substitution -/

namespace Form

variable {p r : Form M} {v : Var}

theorem substitute_of_mentions (hp : p.mentions v = true) (hr : r.mentions v = true) :
    p.substitute v r = .error (.selfReference v) := by
  obtain ⟨a, ha⟩ := VarMap.contains_iff.1 hp
  have hcoefficient : p.coefficient? v = some a := ha
  rw [substitute, hcoefficient]
  exact if_pos hr

/-- Without `v` on both sides there is an answer, which differs from `p` by a multiple of the
difference between `r` and `v`. -/
theorem exists_substitute_of_not_both (hp : p.Valid)
    (h : ¬ (p.mentions v = true ∧ r.mentions v = true)) :
    ∃ result, p.substitute v r = .ok result ∧ result.Valid ∧
      ∀ s, result.eval s = p.eval s + p.terms.coeffAt v * (r.eval s - s.read v) := by
  by_cases hoccurs : p.mentions v = true
  · have hr : r.mentions v = false := by simpa [hoccurs] using h
    exact exists_substitute hp hr
  · -- There is nothing to replace, so it does not matter what `r` mentions.
    have habsent : p.mentions v = false := by simpa using hoccurs
    refine ⟨.form p, substitute_of_not_mentions habsent r, hp, fun s => ?_⟩
    rw [Terms.coeffAt_of_contains_eq_false habsent, Affine.eval]
    ring

/-- The parts of `p + a · r` without the variable `v`. -/
structure Eliminated (p r : Form M) (v : Var) (a : Residue M) (result : Affine M) : Prop where
  absent : result.mentions v = false
  constantTerm : result.constantTerm = p.constant + a * r.constant
  occurs : ∀ u, result.mentions u = true → p.mentions u = true ∨ r.mentions u = true
  coefficient : ∀ u, result.terms.get? u =
    if u ≠ v ∧ p.terms.coeffAt u + a * r.terms.coeffAt u ≠ 0 then
      some (p.terms.coeffAt u + a * r.terms.coeffAt u)
    else
      none

theorem eliminated_of_eval_eq {result : Affine M} (hvalid : result.Valid)
    (hr : r.mentions v = false)
    (h : ∀ s, result.eval s = p.eval s + p.terms.coeffAt v * (r.eval s - s.read v)) :
    Eliminated p r v (p.terms.coeffAt v) result := by
  have habsent : result.mentions v = false :=
    Affine.mentions_of_eval_eq (r := .form r) hvalid hr h
  have hcoeff : ∀ u, u ≠ v → result.terms.coeffAt u =
      p.terms.coeffAt u + p.terms.coeffAt v * r.terms.coeffAt u := by
    intro u hu
    rw [Affine.coeffAt_of_eval_eq (r := .form r) h, if_neg (Ne.symm hu), sub_zero]
    rfl
  refine ⟨habsent, ?_, ?_, ?_⟩
  · -- A constant is the value where every variable is zero, and there `r - v` has the value of `r`.
    have hp : p.constant = p.eval Probe.ofMaps.origin :=
      Affine.constantTerm_eq_eval Probe.ofMaps (.form p)
    have hr : r.constant = r.eval Probe.ofMaps.origin :=
      Affine.constantTerm_eq_eval Probe.ofMaps (.form r)
    rw [Affine.constantTerm_eq_eval Probe.ofMaps, h, Probe.read_origin, hp, hr, sub_zero]
  · intro u hu
    by_contra hneither
    obtain ⟨hpu, hru⟩ : p.mentions u = false ∧ r.mentions u = false := by simpa using hneither
    -- A variable of neither form has the coefficient zero, which is not stored.
    have huv : u ≠ v := by
      rintro rfl
      exact absurd (hu.symm.trans habsent) (by decide)
    have hzero : result.terms.coeffAt u = 0 := by
      rw [hcoeff u huv, Terms.coeffAt_of_contains_eq_false hpu,
        Terms.coeffAt_of_contains_eq_false hru]
      ring
    exact absurd (hu.symm.trans ((Affine.mentions_eq_false_iff hvalid).2 hzero)) (by decide)
  · intro u
    have hget := Terms.get?_eq_coeffAt (Affine.zeroFree_terms hvalid) u
    by_cases huv : u = v
    · have hzero : result.terms.coeffAt u = 0 := by
        rw [huv]
        exact (Affine.mentions_eq_false_iff hvalid).1 habsent
      rw [hget, if_pos hzero, if_neg fun hboth => hboth.1 huv]
    · rw [hget, hcoeff u huv]
      simp [huv, ite_not]

end Form

/-- A substitution is refused exactly when both forms mention the variable.  Otherwise its answer
takes the value of `p` wherever the variable has the value of `r`; it is `p` itself if the variable
does not occur, and if it does, it is gone and the other coefficients are those of `p + a · r`. -/
theorem substitution_sound {p r : Form M} (hp : p.Valid) (v : Var) :
    (p.mentions v = true ∧ r.mentions v = true →
        p.substitute v r = .error (.selfReference v)) ∧
      (¬ (p.mentions v = true ∧ r.mentions v = true) →
        ∃ result, p.substitute v r = .ok result ∧ result.Valid ∧
          (∀ s, s.read v = r.eval s → result.eval s = p.eval s) ∧
          (∀ a, p.coefficient? v = some a → p.Eliminated r v a result) ∧
          (p.mentions v = false → result = .form p)) := by
  refine ⟨fun h => Form.substitute_of_mentions h.1 h.2, fun h => ?_⟩
  obtain ⟨result, hresult, hvalid, heval⟩ := Form.exists_substitute_of_not_both hp h
  refine ⟨result, hresult, hvalid, ?_, ?_, ?_⟩
  · intro s hs
    rw [heval, hs]
    ring
  · intro a ha
    have hoccurs : p.mentions v = true := VarMap.contains_iff.2 ⟨a, ha⟩
    have hr : r.mentions v = false := by simpa [hoccurs] using h
    rw [← Form.coeffAt_of_coefficient?_eq_some ha]
    exact Form.eliminated_of_eval_eq hvalid hr heval
  · intro habsent
    exact Except.ok.inj (hresult.symm.trans (Form.substitute_of_not_mentions habsent r))

/-- Over fifteen, put `2 + 3·x1 + 5·x2 + x3` for `x0` in `1 + 3·x0 + 6·x1 + x3`.  The terms in `x1`
cancel, the product of 3 and 5 is zero, and what is left is `7 + 4·x3`. -/
theorem substitution_sound_fifteen :
    let p : Form Modulus.fifteen :=
      ⟨1, ⟨[(exampleVar 0, ⟨3, by decide⟩), (exampleVar 1, ⟨6, by decide⟩), (exampleVar 3, 1)],
        by decide⟩⟩
    let r : Form Modulus.fifteen :=
      ⟨⟨2, by decide⟩, ⟨[(exampleVar 1, ⟨3, by decide⟩), (exampleVar 2, ⟨5, by decide⟩),
        (exampleVar 3, 1)], by decide⟩⟩
    let s : Assignment Modulus.fifteen := .ofList [⟨8, by decide⟩, 1, 0, ⟨3, by decide⟩]
    p.Valid ∧ s.read (exampleVar 0) = r.eval s ∧
      ∃ result, p.substitute (exampleVar 0) r = .ok result ∧
        result = .form ⟨⟨7, by decide⟩, VarMap.singleton (exampleVar 3) ⟨4, by decide⟩⟩ ∧
        result.eval s = p.eval s ∧ p.Eliminated r (exampleVar 0) ⟨3, by decide⟩ result := by
  intro p r s
  have hp : p.Valid := by decide
  have hs : s.read (exampleVar 0) = r.eval s := by decide
  obtain ⟨result, hresult, -, hsame, heliminated, -⟩ :=
    (substitution_sound (r := r) hp (exampleVar 0)).2 (by decide)
  have hvalue : result =
      .form ⟨⟨7, by decide⟩, VarMap.singleton (exampleVar 3) ⟨4, by decide⟩⟩ :=
    Except.ok.inj (hresult.symm.trans (by decide))
  exact ⟨hp, hs, result, hresult, hvalue, hsame s hs, heliminated _ (by decide)⟩

/-! ## The plain route -/

/-- Over a field, substituting `r` for a variable with the coefficient `a` gives the same value as
erasing the variable and adding `a · r`: to the form that is left, or to the constant if nothing
else is.  The multiple of `r` is always a form, and nothing is refused on either way. -/
theorem substitute_eq_erase_scale_add (hM : M.value.Prime) {p r : Form M} (hp : p.Valid)
    (hr : r.Valid) {v : Var} {a : Residue M} (ha : p.coefficient? v = some a)
    (hv : r.mentions v = false) :
    ∃ result rest scaled, p.substitute v r = .ok result ∧ p.erase v = .ok rest ∧
      r.scale a = .form scaled ∧
      (∀ q, rest = .form q → q.add scaled = .ok result) ∧
      ∀ c, rest = .constant c → .form (scaled.shift c) = result := by
  obtain ⟨result, hresult, hvalid, heval⟩ := Form.exists_substitute hp hv
  obtain ⟨rest, hrest, hrest_valid, hrest_eval⟩ := Form.exists_erase hp v
  obtain ⟨scaled, hscaled, hscaled_valid, -, hscaled_eval⟩ :=
    Form.exists_scale hM hr (Form.ne_zero_of_coefficient?_eq_some hp ha)
  have hcoeff : p.terms.coeffAt v = a := Form.coeffAt_of_coefficient?_eq_some ha
  -- What is erased and what is added make up the change of the value.
  have hsum : ∀ s, result.eval s = rest.eval s + scaled.eval s := by
    intro s
    calc result.eval s = p.eval s + a * (r.eval s - s.read v) := by rw [heval, hcoeff]
      _ = (p.eval s - a * s.read v) + r.eval s * a := by ring
      _ = rest.eval s + scaled.eval s := by rw [hrest_eval, hscaled_eval, hcoeff]
  refine ⟨result, rest, scaled, hresult, hrest, hscaled, ?_, ?_⟩
  · rintro q rfl
    obtain ⟨sum, hadd, hsum_valid, hadd_eval⟩ := Form.exists_add hrest_valid hscaled_valid
    have hsame : sum = result := by
      refine Affine.eq_of_forall_eval_eq hsum_valid hvalid fun s => ?_
      rw [hadd_eval, hsum, Affine.eval]
    rw [hadd, hsame]
  · rintro c rfl
    refine Affine.eq_of_forall_eval_eq hscaled_valid hvalid fun s => ?_
    have hshift : (Affine.form (scaled.shift c)).eval s = scaled.eval s + c :=
      scaled.eval_shift c s
    rw [hshift, hsum, Affine.eval]
    ring

/-- Over seven, put `2 + 4·x0 + x1` for `x2` in `3 + x0 - 2·x2`.  Both ways the terms in `x0` cancel
and `6 + 5·x1` is left. -/
theorem substitute_eq_erase_scale_add_sample :
    let r : Form Modulus.seven :=
      ⟨⟨2, by decide⟩, ⟨[(exampleVar 0, ⟨4, by decide⟩), (exampleVar 1, 1)], by decide⟩⟩
    let q : Form Modulus.seven := ⟨⟨3, by decide⟩, VarMap.singleton (exampleVar 0) 1⟩
    Modulus.seven.value.Prime ∧ Form.sample.Valid ∧ r.Valid ∧
      Form.sample.coefficient? (exampleVar 2) = some ⟨5, by decide⟩ ∧
      r.mentions (exampleVar 2) = false ∧
      ∃ result scaled, Form.sample.substitute (exampleVar 2) r = .ok result ∧
        Form.sample.erase (exampleVar 2) = .ok (.form q) ∧
        r.scale ⟨5, by decide⟩ = .form scaled ∧ q.add scaled = .ok result ∧
        result = .form ⟨⟨6, by decide⟩, VarMap.singleton (exampleVar 1) ⟨5, by decide⟩⟩ := by
  intro r q
  have hM : Modulus.seven.value.Prime := by decide
  have hp : Form.sample.Valid := by decide
  have hr : r.Valid := by decide
  have ha : Form.sample.coefficient? (exampleVar 2) = some ⟨5, by decide⟩ := by decide
  have hv : r.mentions (exampleVar 2) = false := by decide
  obtain ⟨result, rest, scaled, hresult, hrest, hscaled, hadd, -⟩ :=
    substitute_eq_erase_scale_add hM hp hr ha hv
  have hq : rest = .form q := Except.ok.inj (hrest.symm.trans (by decide))
  have hvalue : result =
      .form ⟨⟨6, by decide⟩, VarMap.singleton (exampleVar 1) ⟨5, by decide⟩⟩ :=
    Except.ok.inj (hresult.symm.trans (by decide))
  exact ⟨hM, hp, hr, ha, hv, result, scaled, hresult, hq ▸ hrest, hscaled, hadd q hq, hvalue⟩

end AffineForms
