import AffineForms.Proofs.Form.Replacement

/-!
# Composition — two substitutions, one after the other

Let `r` be put for `x` and then `s` for `y`.  The first step may bring `y` in with `r`, cancel it,
or change its coefficient, and either step may collapse.  The other way round, `s` is put for `y`
everywhere first, also in `r`; what becomes of `r` may be a constant, which takes the other routine.

`Affine.exists_andThen_replace` describes a replacement in a value that may have collapsed before.
`substitution_order` compares what the two orders evaluate to.  Writing `a` for the coefficient of
`x` in `p`, and `b`, `c` for those of `y` in `p` and in `r`, both orders give
`p + a · (r - x) + (b + a · c) · (s - y)`.
-/

namespace AffineForms

variable {M : Modulus}

theorem Affine.exists_andThen_replace {q : Affine M} (hq : q.Valid) {v : Var} {r : Affine M}
    (hr : r.mentions v = false) :
    ∃ result, (q.andThen fun p => p.replace v r) = .ok result ∧ result.Valid ∧
      ∀ s, result.eval s = q.eval s + q.terms.coeffAt v * (r.eval s - s.read v) := by
  cases q with
  | constant c =>
      refine ⟨.constant c, rfl, trivial, fun s => ?_⟩
      have hzero : (Affine.constant c).terms.coeffAt v = 0 := rfl
      rw [hzero, zero_mul, add_zero]
  | form p =>
      obtain ⟨result, hresult, hvalid, -, heval⟩ := Form.exists_replace hq hr
      exact ⟨result, hresult, hvalid, heval⟩

/-- Let neither `r` nor `s` mention `x`, and let `s` not mention `y`.  Substituting `r` for `x` and
then `s` for `y` answers the same value as substituting `s` for `y` everywhere, in `r` as well, and
then what has become of `r` for `x`.  No step is refused, whatever cancels or collapses on the way.
If `r` does not mention `y`, the two substitutions commute. -/
theorem substitution_order {p r s : Form M} (hp : p.Valid) (hr : r.Valid) {x y : Var} (hxy : x ≠ y)
    (hrx : r.mentions x = false) (hsx : s.mentions x = false) (hsy : s.mentions y = false) :
    ∃ result q r',
      (p.substitute x r >>= fun t => t.andThen fun t => t.substitute y s) = .ok result ∧
        p.substitute y s = .ok q ∧ r.substitute y s = .ok r' ∧
        (q.andThen fun q => q.replace x r') = .ok result ∧
        (r.mentions y = false →
          (p.substitute y s >>= fun q => q.andThen fun q => q.substitute x r) = .ok result) := by
  obtain ⟨t, ht, ht_valid, ht_eval⟩ := Form.exists_substitute hp hrx
  obtain ⟨left, hleft, hleft_valid, hleft_eval⟩ :=
    Affine.exists_andThen_replace ht_valid (r := .form s) hsy
  obtain ⟨q, hq, hq_valid, hq_eval⟩ := Form.exists_substitute hp hsy
  obtain ⟨r', hr', hr'_valid, hr'_eval⟩ := Form.exists_substitute hr hsy
  have hsx_coeff : (Affine.form s).terms.coeffAt x = 0 := Terms.coeffAt_of_contains_eq_false hsx
  have hrx_coeff : r.terms.coeffAt x = 0 := Terms.coeffAt_of_contains_eq_false hrx
  -- Putting `s` for `y` brings no `x` into `r`, and leaves the one in `p` alone.
  have hr'x : r'.mentions x = false := by
    rw [Affine.mentions_eq_false_iff hr'_valid,
      Affine.coeffAt_of_eval_eq (r := .form s) hr'_eval, hsx_coeff, hrx_coeff,
      if_neg (Ne.symm hxy)]
    ring
  have hqx_coeff : q.terms.coeffAt x = p.terms.coeffAt x := by
    rw [Affine.coeffAt_of_eval_eq (r := .form s) hq_eval, hsx_coeff, if_neg (Ne.symm hxy)]
    ring
  have hty_coeff : t.terms.coeffAt y =
      p.terms.coeffAt y + p.terms.coeffAt x * r.terms.coeffAt y := by
    rw [Affine.coeffAt_of_eval_eq (r := .form r) ht_eval, if_neg hxy, sub_zero]
    rfl
  obtain ⟨right, hright, hright_valid, hright_eval⟩ :=
    Affine.exists_andThen_replace hq_valid hr'x
  have hsame : right = left := by
    refine Affine.eq_of_forall_eval_eq hright_valid hleft_valid fun u => ?_
    rw [hright_eval, hqx_coeff, hq_eval, hr'_eval, hleft_eval, hty_coeff, ht_eval, Affine.eval]
    ring
  rw [hsame] at hright
  refine ⟨left, q, r', ?_, hq, hr', hright, fun hry => ?_⟩
  · rw [ht]
    exact hleft
  · have hunchanged : r' = .form r :=
      Except.ok.inj (hr'.symm.trans (Form.substitute_of_not_mentions hry s))
    rw [hunchanged] at hright
    rw [hq]
    exact hright

/-- Over fifteen, put `x1 - x2` for `x0` in `3·x0 + x1`, and `x2` for `x1`.  In the other order the
replacement collapses to zero before it is used.  Both ways answer `x2`. -/
theorem substitution_order_fifteen :
    let r : Form Modulus.fifteen :=
      ⟨0, ⟨[(exampleVar 1, 1), (exampleVar 2, ⟨14, by decide⟩)], by decide⟩⟩
    let s : Form Modulus.fifteen := .ofVar (exampleVar 2)
    threeAndOne.Valid ∧ r.Valid ∧ exampleVar 0 ≠ exampleVar 1 ∧
      r.mentions (exampleVar 0) = false ∧ s.mentions (exampleVar 0) = false ∧
      s.mentions (exampleVar 1) = false ∧
      ∃ result q r',
        (threeAndOne.substitute (exampleVar 0) r >>= fun t =>
            t.andThen fun t => t.substitute (exampleVar 1) s) = .ok result ∧
          threeAndOne.substitute (exampleVar 1) s = .ok q ∧
          r.substitute (exampleVar 1) s = .ok r' ∧ r' = .constant 0 ∧
          (q.andThen fun q => q.replace (exampleVar 0) r') = .ok result ∧ result = .form s := by
  intro r s
  have hp : threeAndOne.Valid := by decide
  have hr : r.Valid := by decide
  have hxy : exampleVar 0 ≠ exampleVar 1 := by decide
  have hrx : r.mentions (exampleVar 0) = false := by decide
  have hsx : s.mentions (exampleVar 0) = false := by decide
  have hsy : s.mentions (exampleVar 1) = false := by decide
  obtain ⟨result, q, r', hfirst, hq, hr', hsecond, -⟩ :=
    substitution_order hp hr hxy hrx hsx hsy
  have hcollapsed : r' = .constant 0 := Except.ok.inj (hr'.symm.trans (by decide))
  have hvalue : result = .form s := Except.ok.inj (hfirst.symm.trans (by decide))
  exact ⟨hp, hr, hxy, hrx, hsx, hsy, result, q, r', hfirst, hq, hr', hcollapsed, hsecond, hvalue⟩

end AffineForms
