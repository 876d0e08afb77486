import AffineForms.Proofs.Form.Denotation
import AffineForms.Proofs.Form.Elimination

/-!
# Module laws — values form a module over a field

A sum of forms may collapse, and so may a multiple.  The laws of addition and scaling therefore
speak of values: `Affine.add` extends the sum of forms to constants, and `Affine.scale` the
multiple.

Written out on maps, each law would have to follow which of the two maps is copied into which, and
which terms cancel in one association and are still there in the other.  Here both sides are
compared by what they denote (`Denotes.eq`), and a law of values is the law of residues of the same
name.

* `Affine.denotes_add`, `Affine.denotes_scale` say what sums and multiples denote;
* `Affine.add_comm` to `Affine.scale_inverse` are the laws of sums and multiples, `Form.sub_self`
  and `Form.sub_add_cancel` those of differences;
* `module_laws` puts them together, and adds that nothing is refused.

Sums need no field.  Multiples do: zero divisors may scale a form to one that stores zeros, which is
another value than the one that is obtained by adding.
-/

namespace AffineForms

variable {M : Modulus}

/-! ## Sums and multiples of values -/

namespace Affine

/-- Adds two values.  A constant is added to the constant of a form. -/
def add : Affine M → Affine M → Except Fault (Affine M)
  | constant c, constant d => .ok (constant (c + d))
  | constant c, form q => .ok (form (q.shift c))
  | form p, constant d => .ok (form (p.shift d))
  | form p, form q => p.add q

variable {x y z : Affine M}

theorem denotes_add (hx : x.Valid) (hy : y.Valid) :
    Denotes (x.add y) fun s => x.eval s + y.eval s := by
  cases x with
  | constant c =>
      cases y with
      | constant d => exact Denotes.of_valid trivial
      | form q =>
          refine (Denotes.of_valid (r := form (q.shift c)) hy).congr fun s => ?_
          calc
            (q.shift c).eval s = q.eval s + c := q.eval_shift c s
            _ = c + q.eval s := by ring
  | form p =>
      cases y with
      | constant d =>
          exact (Denotes.of_valid (r := form (p.shift d)) hx).congr fun s => p.eval_shift d s
      | form q => exact Form.exists_add hx hy

theorem denotes_scale (hM : M.value.Prime) (hx : x.Valid) (a : Residue M) :
    Denotes (.ok (x.scale a)) fun s => x.eval s * a :=
  (Denotes.of_valid (valid_scale hM hx a)).congr (x.eval_scale a)

/-! ## The laws -/

protected theorem add_comm (hx : x.Valid) (hy : y.Valid) : x.add y = y.add x :=
  (denotes_add hx hy).eq ((denotes_add hy hx).congr fun s => by ring)

theorem denotes_add_add (hx : x.Valid) (hy : y.Valid) (hz : z.Valid) :
    Denotes (x.add y >>= fun t => t.add z) fun s => x.eval s + y.eval s + z.eval s :=
  (denotes_add hx hy).bind fun t ht heval => (denotes_add ht hz).congr fun s => by rw [heval]

protected theorem add_assoc (hx : x.Valid) (hy : y.Valid) (hz : z.Valid) :
    (x.add y >>= fun t => t.add z) = (y.add z >>= fun t => x.add t) := by
  have hright : Denotes (y.add z >>= fun t => x.add t) fun s =>
      x.eval s + y.eval s + z.eval s := by
    refine (denotes_add hy hz).bind fun t ht heval => (denotes_add hx ht).congr fun s => ?_
    rw [heval]
    ring
  exact (denotes_add_add hx hy hz).eq hright

theorem denotes_scale_sum (hM : M.value.Prime) (hx : x.Valid) (hy : y.Valid) (a : Residue M) :
    Denotes ((x.add y).map fun t => t.scale a) fun s => (x.eval s + y.eval s) * a := by
  obtain ⟨sum, hsum, hvalid, heval⟩ := denotes_add hx hy
  rw [hsum]
  exact (denotes_scale hM hvalid a).congr fun s => by rw [heval]

theorem scale_add (hM : M.value.Prime) (hx : x.Valid) (hy : y.Valid) (a : Residue M) :
    ((x.add y).map fun t => t.scale a) = (x.scale a).add (y.scale a) := by
  have hright : Denotes ((x.scale a).add (y.scale a)) fun s => (x.eval s + y.eval s) * a := by
    refine (denotes_add (valid_scale hM hx a) (valid_scale hM hy a)).congr fun s => ?_
    rw [eval_scale, eval_scale]
    ring
  exact (denotes_scale_sum hM hx hy a).eq hright

theorem add_scale (hM : M.value.Prime) (hx : x.Valid) (a b : Residue M) :
    (x.scale a).add (x.scale b) = .ok (x.scale (a + b)) := by
  have hleft := denotes_add (valid_scale hM hx a) (valid_scale hM hx b)
  refine (hleft.congr fun s => ?_).eq (denotes_scale hM hx (a + b))
  rw [eval_scale, eval_scale]
  ring

theorem scale_scale (hM : M.value.Prime) (hx : x.Valid) (a b : Residue M) :
    (x.scale a).scale b = x.scale (a * b) := by
  have htwice : ((x.scale a).scale b).Valid := valid_scale hM (valid_scale hM hx a) b
  refine eq_of_forall_eval_eq htwice (valid_scale hM hx (a * b)) fun s => ?_
  rw [eval_scale, eval_scale, eval_scale]
  ring

theorem scale_inverse (hM : M.value.Prime) (hx : x.Valid) {a inverse : Residue M}
    (h : a * inverse = 1) : (x.scale a).scale inverse = x := by
  rw [scale_scale hM hx, h]
  refine eq_of_forall_eval_eq (valid_scale hM hx 1) hx fun s => ?_
  rw [eval_scale, mul_one]

end Affine

namespace Form

variable {p q : Form M}

protected theorem sub_self (hp : p.Valid) : p.sub p = .ok (.constant 0) := by
  have hzero : Denotes (.ok (.constant (0 : Residue M))) fun _ => 0 := Denotes.of_valid trivial
  exact Denotes.eq (exists_sub hp hp) (hzero.congr fun s => by rw [sub_self])

protected theorem sub_add_cancel (hp : p.Valid) (hq : q.Valid) :
    (p.sub q >>= fun t => t.add (.form q)) = .ok (.form p) := by
  have hleft : Denotes (p.sub q >>= fun t => t.add (.form q)) p.eval := by
    refine Denotes.bind (exists_sub hp hq) fun t ht heval => ?_
    refine (Affine.denotes_add ht (y := .form q) hq).congr fun s => ?_
    rw [heval, Affine.eval]
    ring
  exact hleft.eq (Denotes.of_valid (r := .form p) hp)

theorem scale_neg_one (hM : M.value.Prime) (hp : p.Valid) : p.scale (-1) = .form p.neg := by
  have hscale : (p.scale (-1)).Valid := Affine.valid_scale hM (r := .form p) hp (-1)
  refine Affine.eq_of_forall_eval_eq hscale (valid_neg hp) fun s => ?_
  calc
    (p.scale (-1)).eval s = p.eval s * -1 := p.eval_scale (-1) s
    _ = -p.eval s := by ring
    _ = (Affine.form p.neg).eval s := (p.eval_neg s).symm

end Form

/-- Over a field the forms and the constants obey the laws of a module, as equalities of values.
Here `x`, `y` and `z` are any valid values, and `p` and `q` any valid forms; nothing is refused,
whichever terms cancel and whatever collapses on either side.  A multiple is undone by the inverse of
the factor, whatever computes it. -/
theorem module_laws (hM : M.value.Prime) {x y z : Affine M} (hx : x.Valid) (hy : y.Valid)
    (hz : z.Valid) {p q : Form M} (hp : p.Valid) (hq : q.Valid) (a b : Residue M) :
    (∃ sum, x.add y = .ok sum ∧ y.add x = .ok sum) ∧
      (∃ sum, (x.add y >>= fun t => t.add z) = .ok sum ∧
        (y.add z >>= fun t => x.add t) = .ok sum) ∧
      p.sub p = .ok (.constant 0) ∧
      (p.sub q >>= fun t => t.add (.form q)) = .ok (.form p) ∧
      (∃ sum, ((x.add y).map fun t => t.scale a) = .ok sum ∧
        (x.scale a).add (y.scale a) = .ok sum) ∧
      (x.scale a).add (x.scale b) = .ok (x.scale (a + b)) ∧
      (x.scale a).scale b = x.scale (a * b) ∧
      p.scale (-1) = .form p.neg ∧
      (a ≠ 0 → ∃ inverse, a.invert? = some inverse ∧ (x.scale a).scale inverse = x ∧
        a.IsInverse inverse) := by
  obtain ⟨sum, hsum, -⟩ := Affine.denotes_add hx hy
  obtain ⟨total, htotal, -⟩ := Affine.denotes_add_add hx hy hz
  obtain ⟨multiple, hmultiple, -⟩ := Affine.denotes_scale_sum hM hx hy a
  refine ⟨⟨sum, hsum, ?_⟩, ⟨total, htotal, ?_⟩, Form.sub_self hp, Form.sub_add_cancel hp hq,
    ⟨multiple, hmultiple, ?_⟩, Affine.add_scale hM hx a b, Affine.scale_scale hM hx a b,
    Form.scale_neg_one hM hp, ?_⟩
  · exact (Affine.add_comm hy hx).trans hsum
  · exact (Affine.add_assoc hx hy hz).symm.trans htotal
  · exact (Affine.scale_add hM hx hy a).symm.trans hmultiple
  · intro ha
    obtain ⟨inverse, hinverse, hmul⟩ := Residue.exists_inverse hM ha
    exact ⟨inverse, hinverse, Affine.scale_inverse hM hx hmul,
      Residue.isInverse_of_mul_eq_one hM hmul⟩

/-- Over seven, add `x = 3 + x0 - 2·x2`, its negation `y` and `z = x0`.  From the left everything
cancels first; from the right the terms in `x0` do, and those in `x2` afterwards.  Both ways answer
`x0`.  The multiples of `x` by three and by four collapse when they are added.  The factor three is
undone by its power with the exponent five. -/
theorem module_laws_seven :
    let x := Affine.form Form.sample
    let y := Affine.form Form.sample.neg
    let z := Affine.form (M := Modulus.seven) (.ofVar (exampleVar 0))
    let three : Residue Modulus.seven := ⟨3, by decide⟩
    let four : Residue Modulus.seven := ⟨4, by decide⟩
    Modulus.seven.value.Prime ∧ x.Valid ∧ y.Valid ∧ z.Valid ∧
      x.add y = .ok (.constant 0) ∧
      y.add z = .ok (.form ⟨four, VarMap.singleton (exampleVar 2) ⟨2, by decide⟩⟩) ∧
      (∃ sum, (x.add y >>= fun t => t.add z) = .ok sum ∧
        (y.add z >>= fun t => x.add t) = .ok sum ∧ sum = z) ∧
      (x.scale three).add (x.scale four) = .ok (x.scale (three + four)) ∧
      x.scale (three + four) = .constant 0 ∧
      ∃ inverse, three.invert? = some inverse ∧ (x.scale three).scale inverse = x ∧
        three.pow (exponentOfLimbs [5]) = inverse := by
  intro x y z three four
  have hM : Modulus.seven.value.Prime := by decide
  have hp : Form.sample.Valid := by decide
  have hq : Form.sample.neg.Valid := by decide
  have hz : z.Valid := by decide
  obtain ⟨-, ⟨sum, hleft, hright⟩, -, -, -, hmultiples, -, -, hinverse⟩ :=
    module_laws hM (x := x) (y := y) hp hq hz hp hq three four
  have hvalue : sum = z := Except.ok.inj (hleft.symm.trans (by decide))
  obtain ⟨inverse, hanswer, hundone, hcomputed⟩ := hinverse (by decide)
  exact ⟨hM, hp, hq, hz, by decide, by decide, ⟨sum, hleft, hright, hvalue⟩, hmultiples, by decide,
    inverse, hanswer, hundone, hcomputed.of_power rfl _ Residue.raisesToPowers_pow⟩

end AffineForms
