import AffineForms.Proofs.Residue.Squares

/-!
# Descent — square roots over a prime modulus

A descent to a root of `x` keeps `root ^ 2 = x * defect`.  With `m` for the exponent, squaring
`m - 1` times takes the defect to one and the generator to minus one (`Descent.Approaches`).  For a
defect other than one, the least number of squarings that takes it to one is below `m`, and after
one squaring less it is minus one; so multiplying by a power of the generator that is minus one
there as well takes it to one earlier (`Descent.exists_step`).  The exponent falls with each step,
and is below the number of bits of the modulus at the start, so the rounds suffice
(`Descent.exists_run`).

* `Residue.prepare`: what is settled ahead of the first round, be it an answer or a state to descend
  from; a root is taken by preparing and then running the descent (`squareRoot_eq_prepare`);
* `exists_squareRoot` and `squareRoot_of_not_isSquare`: the root of a square is found, and a
  non-square has none;
* `TakesPowers power`: wherever a root takes a power, `power` may be asked instead, which on one word
  holds of whatever raises residues to powers (`RaisesToPowers.takesPowers`);
* `square_roots_of_prime` says what is answered for a quotient, square or not, and for a residue.
-/

namespace AffineForms

/-! ## Splitting off the twos -/

theorem splitTwos_spec {fuel n : ℕ} (hpos : 0 < n) (hlt : n < 2 ^ fuel) :
    n = (splitTwos fuel n).2 * 2 ^ (splitTwos fuel n).1 ∧ (splitTwos fuel n).2 % 2 = 1 ∧
      (splitTwos fuel n).1 < fuel := by
  induction fuel generalizing n with
  | zero => omega
  | succ fuel ih =>
      rw [pow_succ] at hlt
      by_cases heven : n % 2 = 0
      · obtain ⟨hsplit, hodd, hfuel⟩ := ih (n := n / 2) (by omega) (by omega)
        rw [splitTwos, if_pos heven]
        refine ⟨?_, hodd, Nat.succ_lt_succ hfuel⟩
        rw [pow_succ, ← mul_assoc, ← hsplit]
        omega
      · rw [splitTwos, if_neg heven]
        exact ⟨by simp, by omega, Nat.succ_pos fuel⟩

namespace Modulus

theorem value_lt_two_pow_bits (M : Modulus) : M.value < 2 ^ M.width.bits := by
  have hlt := M.value_lt_size
  have hsize : M.width.size = 2 ^ M.width.bits := by
    cases M.width with
    | word => rfl
    | wide => rfl
  rwa [hsize] at hlt

end Modulus

theorem splitTwos_sub_one_spec (M : Modulus) :
    M.value - 1 = (splitTwos M.width.bits (M.value - 1)).2 *
        2 ^ (splitTwos M.width.bits (M.value - 1)).1 ∧
      (splitTwos M.width.bits (M.value - 1)).2 % 2 = 1 ∧
      (splitTwos M.width.bits (M.value - 1)).1 < M.width.bits :=
  splitTwos_spec (Nat.sub_pos_of_lt M.two_le)
    (Nat.lt_of_le_of_lt (Nat.sub_le _ _) M.value_lt_two_pow_bits)

/-! ## Repeated squaring -/

namespace Residue

variable {M : Modulus}

theorem square_pow_two_pow (x : Residue M) (n : ℕ) : x.square ^ 2 ^ n = x ^ 2 ^ (n + 1) := by
  rw [square, ← sq, ← pow_mul, ← pow_succ']

theorem squareTimes_eq (n : ℕ) (x : Residue M) : squareTimes n x = x ^ 2 ^ n := by
  induction n generalizing x with
  | zero => simp [squareTimes]
  | succ n ih => rw [squareTimes, ih, square_pow_two_pow]

/-- The search finds the least number of squarings as soon as its fuel exceeds that number. -/
theorem squaringsToOne?_eq_some_iff {fuel i : ℕ} {x : Residue M} :
    squaringsToOne? fuel x = some i ↔ i < fuel ∧ x ^ 2 ^ i = 1 ∧ ∀ j < i, x ^ 2 ^ j ≠ 1 := by
  induction fuel generalizing i x with
  | zero => simp [squaringsToOne?]
  | succ fuel ih =>
      rw [squaringsToOne?]
      by_cases hone : x = 1
      · rw [if_pos hone, Option.some_inj, hone]
        constructor
        · rintro rfl
          simp
        · rintro ⟨-, -, hleast⟩
          by_contra hne
          exact hleast 0 (Nat.pos_of_ne_zero (Ne.symm hne)) (one_pow _)
      · rw [if_neg hone, Option.map_eq_some_iff]
        cases i with
        | zero => simp [hone]
        | succ i =>
            -- One squaring at least is needed, and the square takes one less.
            simp only [Nat.add_right_cancel_iff, exists_eq_right, ih, square_pow_two_pow,
              Nat.add_lt_add_iff_right, Nat.forall_lt_succ_left, pow_zero, pow_one, ne_eq, hone,
              not_false_eq_true, true_and]

end Residue

/-! ## Steps of the descent -/

namespace Descent

variable {M : Modulus} {x : Residue M} {d : Descent M}

/-- The invariant of a descent to a root of `x`. -/
structure Approaches (x : Residue M) (d : Descent M) : Prop where
  exponent_pos : 0 < d.exponent
  root_sq : d.root ^ 2 = x * d.defect
  defect_pow : d.defect ^ 2 ^ (d.exponent - 1) = 1
  generator_pow : d.generator ^ 2 ^ (d.exponent - 1) = -1

theorem gap_eq_ok {m i : ℕ} (h : i < m) : gap m i = .ok (m - i - 1) := by
  have hone : 1 ≤ m - i := by omega
  simp only [gap, Checked.sub_eq_ok (Nat.le_of_lt h), Checked.sub_eq_ok hone]

theorem step_eq_ok {i : ℕ} (hfound : Residue.squaringsToOne? M.width.bits d.defect = some i)
    (h : i < d.exponent) :
    d.step = .ok
      { exponent := i
        generator := d.generator ^ 2 ^ (d.exponent - i)
        defect := d.defect * d.generator ^ 2 ^ (d.exponent - i)
        root := d.root * d.generator ^ 2 ^ (d.exponent - i - 1) } := by
  have hgap : d.exponent - i - 1 + 1 = d.exponent - i := by omega
  have hsquare : (d.generator ^ 2 ^ (d.exponent - i - 1)).square
      = d.generator ^ 2 ^ (d.exponent - i) := by
    rw [Residue.square, ← sq, ← pow_mul, ← pow_succ, hgap]
  simp only [step, hfound, gap_eq_ok h, Residue.squareTimes_eq, hsquare]

/-- The least number of squarings that takes a defect other than one to one. -/
theorem Approaches.exists_squarings (h : d.Approaches x) (hdefect : d.defect ≠ 1) :
    ∃ i, 0 < i ∧ i < d.exponent ∧ d.defect ^ 2 ^ i = 1 ∧ ∀ j < i, d.defect ^ 2 ^ j ≠ 1 := by
  have hone : ∃ i, d.defect ^ 2 ^ i = 1 := ⟨_, h.defect_pow⟩
  have hle : Nat.find hone ≤ d.exponent - 1 := Nat.find_min' hone h.defect_pow
  have hpos := h.exponent_pos
  refine ⟨Nat.find hone, ?_, by omega, Nat.find_spec hone, fun j hj => Nat.find_min hone hj⟩
  refine Nat.pos_of_ne_zero fun hzero => hdefect ?_
  simpa [hzero] using Nat.find_spec hone

theorem exists_step (hM : M.value.Prime) (h : d.Approaches x) (hbits : d.exponent ≤ M.width.bits)
    (hdefect : d.defect ≠ 1) :
    ∃ next, d.step = .ok next ∧ next.Approaches x ∧ next.exponent < d.exponent := by
  obtain ⟨i, hipos, hlt, hone, hleast⟩ := h.exists_squarings hdefect
  have hfound : Residue.squaringsToOne? M.width.bits d.defect = some i :=
    Residue.squaringsToOne?_eq_some_iff.2 ⟨Nat.lt_of_lt_of_le hlt hbits, hone, hleast⟩
  have hdefectMinus : d.defect ^ 2 ^ (i - 1) = -1 := by
    refine Residue.eq_neg_one_of_sq_eq_one hM ?_ (hleast (i - 1) (by omega))
    rw [← pow_mul, ← pow_succ, Nat.sub_add_cancel hipos, hone]
  -- The new generator needs as many squarings to minus one as the old defect.
  have hgeneratorMinus : (d.generator ^ 2 ^ (d.exponent - i)) ^ 2 ^ (i - 1) = -1 := by
    have hexponent : d.exponent - i + (i - 1) = d.exponent - 1 := by omega
    rw [← pow_mul, ← pow_add, hexponent, h.generator_pow]
  refine ⟨_, step_eq_ok hfound hlt, ⟨hipos, ?_, ?_, hgeneratorMinus⟩, hlt⟩
  · have hgap : d.exponent - i - 1 + 1 = d.exponent - i := by omega
    rw [mul_pow, h.root_sq, ← pow_mul, ← pow_succ, hgap, mul_assoc]
  · rw [mul_pow, hdefectMinus, hgeneratorMinus, neg_one_mul, neg_neg]

/-- Within as many rounds as the exponent says, the descent ends in a root. -/
theorem exists_run (hM : M.value.Prime) {fuel : ℕ} (h : d.Approaches x) (hfuel : d.exponent ≤ fuel)
    (hbits : d.exponent ≤ M.width.bits) : ∃ r, d.run fuel = .ok r ∧ r ^ 2 = x := by
  induction fuel generalizing d with
  | zero =>
      have hpos := h.exponent_pos
      omega
  | succ fuel ih =>
      by_cases hdefect : d.defect = 1
      · exact ⟨d.root, by rw [run, if_pos hdefect], by rw [h.root_sq, hdefect, mul_one]⟩
      · obtain ⟨next, hstep, hnext, hlt⟩ := exists_step hM h hbits hdefect
        obtain ⟨r, hrun, hr⟩ := ih hnext (by omega) (by omega)
        exact ⟨r, by rw [run, if_neg hdefect, hstep]; exact hrun, hr⟩

/-- At the start the two powers of the invariant are both powers `(p - 1) / 2`. -/
theorem approaches_start {z : Residue M} {s q : ℕ} (hM : M.value.Prime) (hodd : M.value % 2 = 1)
    (hsplit : M.value - 1 = q * 2 ^ s) (hq : q % 2 = 1) (hx : IsSquare x) (hne : x ≠ 0)
    (hz : ¬ IsSquare z) : (start x z s q).Approaches x := by
  have hs : 0 < s := by
    refine Nat.pos_of_ne_zero fun hzero => ?_
    rw [hzero, pow_zero, mul_one] at hsplit
    omega
  have hhalf : q * 2 ^ (s - 1) = (M.value - 1) / 2 := by
    rw [hsplit, ← Nat.sub_add_cancel hs, pow_succ, ← mul_assoc, Nat.mul_div_cancel _ two_pos,
      Nat.add_sub_cancel]
  refine ⟨hs, ?_, ?_, ?_⟩
  · have hroot : (q + 1) / 2 * 2 = q + 1 := by omega
    simp only [start, Residue.pow_eq]
    rw [← pow_mul, hroot, pow_succ']
  · simp only [start, Residue.pow_eq]
    rw [← pow_mul, hhalf, Residue.pow_half_eq_one_iff hM hodd hne]
    exact hx
  · simp only [start, Residue.pow_eq]
    rw [← pow_mul, hhalf, Residue.pow_half_of_not_isSquare hM hodd hz]

end Descent

/-! ## Roots -/

namespace Residue

variable {M : Modulus} {x : Residue M}

/-- What is settled without a descent: an answer, or else the state the descent starts from. -/
def prepare (x : Residue M) : Except RootFailure (Option (Residue M) ⊕ Descent M) :=
  if M.value = 2 ∨ x = 0 then
    .ok (.inl (some x))
  else if x.isSquare then
    match (leastNonResidue? : Option (Residue M)) with
    | none => .error .noNonResidue
    | some z =>
        let (s, q) := splitTwos M.width.bits (M.value - 1)
        .ok (.inr (.start x z s q))
  else
    .ok (.inl none)

theorem squareRoot_eq_prepare (x : Residue M) :
    squareRoot x = x.prepare >>= fun settled =>
      match settled with
      | .inl answer => .ok answer
      | .inr first => (first.run M.width.bits).map some := by
  unfold squareRoot prepare
  split
  · rfl
  · split
    · cases (leastNonResidue? : Option (Residue M)) with
      | none => rfl
      | some z => rfl
    · rfl

theorem prepare_of_isSquare (hM : M.value.Prime) (hsmall : ¬ (M.value = 2 ∨ x = 0))
    (hx : IsSquare x) {z : Residue M} (hz : leastNonResidue? = some z) :
    x.prepare = .ok (.inr (.start x z (splitTwos M.width.bits (M.value - 1)).1
      (splitTwos M.width.bits (M.value - 1)).2)) := by
  rw [prepare, if_neg hsmall, if_pos ((isSquare_eq_true_iff hM x).2 hx), hz]

theorem prepare_of_not_isSquare (hM : M.value.Prime) (hx : ¬ IsSquare x) :
    x.prepare = .ok (.inl none) := by
  have hsmall : ¬ (M.value = 2 ∨ x = 0) := by
    rintro (htwo | rfl)
    · exact hx (isSquare_of_two htwo x)
    · exact hx IsSquare.zero
  rw [prepare, if_neg hsmall, if_neg fun h => hx ((isSquare_eq_true_iff hM x).1 h)]

theorem exists_squareRoot (hM : M.value.Prime) (hx : IsSquare x) :
    ∃ r, squareRoot x = .ok (some r) ∧ r ^ 2 = x := by
  by_cases hsmall : M.value = 2 ∨ x = 0
  · refine ⟨x, by rw [squareRoot, if_pos hsmall], ?_⟩
    rcases hsmall with htwo | rfl
    · exact sq_eq_self_of_val_lt_two (htwo ▸ x.isLt)
    · exact zero_pow two_ne_zero
  · obtain ⟨htwo, hne⟩ := not_or.1 hsmall
    have hodd := hM.eq_two_or_odd.resolve_left htwo
    obtain ⟨z, hz, hleast⟩ := exists_leastNonResidue? hM hodd
    obtain ⟨hsplit, hq, hs⟩ := splitTwos_sub_one_spec M
    obtain ⟨r, hrun, hr⟩ := Descent.exists_run hM
      (Descent.approaches_start hM hodd hsplit hq hx hne hleast.not_isSquare)
      (Nat.le_of_lt hs) (Nat.le_of_lt hs)
    refine ⟨r, ?_, hr⟩
    rw [squareRoot_eq_prepare, prepare_of_isSquare hM hsmall hx hz]
    simp only [hrun, bind, Except.bind, Except.map]

theorem squareRoot_of_not_isSquare (hM : M.value.Prime) (hx : ¬ IsSquare x) :
    squareRoot x = .ok none := by
  rw [squareRoot_eq_prepare, prepare_of_not_isSquare hM hx]
  rfl

/-! ## Roots of quotients -/

section Ratio

variable {num div : Residue M}

theorem mul_eq_iff_eq_mul_pow (hM : M.value.Prime) (hdiv : div ≠ 0) (y : Residue M) :
    y * div = num ↔ y = num * div ^ (M.value - 2) := by
  have hinverse := mul_pow_sub_two hM hdiv
  constructor
  · rintro rfl
    rw [mul_assoc, hinverse, mul_one]
  · rintro rfl
    rw [mul_assoc, mul_comm _ div, hinverse, mul_one]

theorem exists_sq_mul_eq_iff (hM : M.value.Prime) (hdiv : div ≠ 0) :
    (∃ y, y ^ 2 * div = num) ↔ IsSquare (num * div ^ (M.value - 2)) := by
  simp only [mul_eq_iff_eq_mul_pow hM hdiv, isSquare_iff_exists_sq, eq_comm]

variable (hM : M.value.Prime) (hnum : num ≠ 0) (hdiv : div ≠ 0)

include hM hnum hdiv

theorem squareRootRatio_of_isSquare (h : IsSquare (num * div ^ (M.value - 2))) :
    ∃ root, squareRootRatio num div = .ok (true, root) ∧ root ^ 2 * div = num := by
  obtain ⟨root, hroot, hsq⟩ := exists_squareRoot hM h
  refine ⟨root, ?_, (mul_eq_iff_eq_mul_pow hM hdiv _).2 hsq⟩
  simp only [squareRootRatio, if_neg hnum, if_neg hdiv, pow_eq, hroot, bind, Except.bind]

theorem squareRootRatio_of_not_isSquare {g : Residue M}
    (h : ¬ IsSquare (num * div ^ (M.value - 2))) (hg : leastNonResidue? = some g)
    (hproduct : IsSquare (num * div ^ (M.value - 2) * g)) :
    ∃ root, squareRootRatio num div = .ok (false, root) ∧ root ^ 2 * div = num * g := by
  obtain ⟨root, hroot, hsq⟩ := exists_squareRoot hM hproduct
  refine ⟨root, ?_, (mul_eq_iff_eq_mul_pow hM hdiv _).2 (by rw [hsq]; ring)⟩
  simp only [squareRootRatio, if_neg hnum, if_neg hdiv, pow_eq, squareRoot_of_not_isSquare hM h,
    hg, hroot, bind, Except.bind]

end Ratio

/-! ## Powers from elsewhere -/

/-- Roots take powers in three places: in the test for squares, at the start of a descent, and to
divide.  In each of them `power` may be asked instead. -/
structure TakesPowers (power : Residue M → List UInt64 → Residue M) : Prop where
  test : ∀ x, x.isSquare =
    (M.value == 2 || x == 0 || power x [UInt64.ofNat ((M.value - 1) / 2)] == 1)
  start : ∀ x z s q, q < M.value → Descent.start x z s q =
    ⟨s, power z [UInt64.ofNat q], power x [UInt64.ofNat q], power x [UInt64.ofNat ((q + 1) / 2)]⟩
  quotient : ∀ num div, div ≠ 0 → squareRootRatio num div =
    squareRootRatio (num * power div [UInt64.ofNat (M.value - 2)]) 1

theorem squareRootRatio_eq_quotient (hM : M.value.Prime) (num : Residue M) {div : Residue M}
    (hdiv : div ≠ 0) :
    squareRootRatio num div = squareRootRatio (num * div.pow (M.value - 2)) 1 := by
  by_cases hnum : num = 0
  · rw [hnum, zero_mul, squareRootRatio, squareRootRatio, if_pos rfl, if_pos rfl]
  · -- The power is a unit, so the quotient is not zero either.
    have hquotient : num * div.pow (M.value - 2) ≠ 0 := by
      intro hzero
      refine hnum (((mul_eq_iff_eq_mul_pow hM hdiv 0).2 ?_).symm.trans (zero_mul div))
      rw [← pow_eq, hzero]
    simp only [squareRootRatio, if_neg hnum, if_neg hdiv, if_neg hquotient, if_neg one_ne_zero,
      pow_eq 1, one_pow, mul_one]

theorem RaisesToPowers.takesPowers (hM : M.value.Prime) (hwidth : M.width = .word)
    {power : Residue M → List UInt64 → Residue M} (h : RaisesToPowers power) :
    TakesPowers power where
  test x := by
    have hhalf : (M.value - 1) / 2 ≤ M.value := by omega
    rw [isSquare, h.eq_pow hwidth hhalf]
  start x z s q hq := by
    have hhalf : (q + 1) / 2 ≤ M.value := by omega
    rw [Descent.start, h.eq_pow hwidth hq.le, h.eq_pow hwidth hq.le, h.eq_pow hwidth hhalf]
  quotient num div hdiv := by
    rw [h.eq_pow hwidth (Nat.sub_le _ _), squareRootRatio_eq_quotient hM num hdiv]

/-! ## Roots of residues -/

theorem exists_sqrt? (hM : M.value.Prime) (hx : IsSquare x) :
    ∃ r, sqrt? x = .ok (some r) ∧ r ^ 2 = x := by
  by_cases hzero : x = 0
  · exact ⟨0, by simp [sqrt?, squareRootRatio, hzero, bind, Except.bind], by simp [hzero]⟩
  · obtain ⟨r, hr, hsq⟩ := squareRootRatio_of_isSquare hM hzero one_ne_zero (by simpa using hx)
    refine ⟨r, ?_, by rwa [mul_one] at hsq⟩
    simp only [sqrt?, hr, bind, Except.bind, cond_true]

theorem sqrt?_of_not_isSquare (hM : M.value.Prime) (hx : ¬ IsSquare x) : sqrt? x = .ok none := by
  have hne := ne_zero_of_not_isSquare hx
  have hratio : ¬ IsSquare (x * 1 ^ (M.value - 2)) := by simpa using hx
  obtain ⟨g, hg⟩ := exists_complement hM
  obtain ⟨hfound, -, hproduct⟩ := hg _ hratio
  obtain ⟨r, hr, -⟩ := squareRootRatio_of_not_isSquare hM hne one_ne_zero hratio hfound hproduct
  simp only [sqrt?, hr, bind, Except.bind, cond_false]

/-- Over a prime modulus the root of a quotient is always answered.  A quotient that is a square
comes with a root of its own, any other with a root of its product with the least non-square.  On
one word the powers that are taken on the way may come from elsewhere. -/
theorem square_roots_of_prime (hM : M.value.Prime) :
    ∃ g : Residue M,
      (∀ div : Residue M, squareRootRatio 0 div = .ok (true, 0)) ∧
      (∀ num : Residue M, num ≠ 0 → squareRootRatio num 0 = .ok (false, 0)) ∧
      (∀ num div : Residue M, num ≠ 0 → div ≠ 0 →
        ∃ square root, squareRootRatio num div = .ok (square, root) ∧
          (square = true ↔ ∃ y, y ^ 2 * div = num) ∧
          (square = true → root ^ 2 * div = num) ∧
          (square = false → g.IsLeastNonSquare ∧ root ^ 2 * div = num * g)) ∧
      (∀ x : Residue M, (∃ y, y ^ 2 = x) → ∃ r, sqrt? x = .ok (some r) ∧ r ^ 2 = x) ∧
      (∀ x : Residue M, (¬ ∃ y, y ^ 2 = x) → sqrt? x = .ok none) ∧
      (M.width = .word → ∀ power : Residue M → List UInt64 → Residue M, RaisesToPowers power →
        TakesPowers power) := by
  have hroots : ∀ x : Residue M, (∃ y, y ^ 2 = x) ↔ IsSquare x := by
    intro x
    simp only [isSquare_iff_exists_sq, eq_comm]
  obtain ⟨g, hg⟩ := exists_complement hM
  refine ⟨g, fun div => by rw [squareRootRatio, if_pos rfl], fun num hnum => ?_, ?_,
    fun x hx => exists_sqrt? hM ((hroots x).1 hx),
    fun x hx => sqrt?_of_not_isSquare hM fun h => hx ((hroots x).2 h),
    fun hwidth power hpower => hpower.takesPowers hM hwidth⟩
  · rw [squareRootRatio, if_neg hnum, if_pos rfl]
  · intro num div hnum hdiv
    rw [exists_sq_mul_eq_iff hM hdiv]
    by_cases hsquare : IsSquare (num * div ^ (M.value - 2))
    · obtain ⟨root, hroot, hsq⟩ := squareRootRatio_of_isSquare hM hnum hdiv hsquare
      exact ⟨true, root, hroot, by simp [hsquare], fun _ => hsq, by simp⟩
    · obtain ⟨hfound, hleast, hproduct⟩ := hg _ hsquare
      obtain ⟨root, hroot, hsq⟩ :=
        squareRootRatio_of_not_isSquare hM hnum hdiv hsquare hfound hproduct
      exact ⟨false, root, hroot, by simp [hsquare], by simp, fun _ => ⟨hleast, hsq⟩⟩

/-- Over seventeen, where `16 = 2 ^ 4`, the quotient of `2` by `5` is no square, and its product
with the least non-square `3` has the root `12`.  The quotient is the product of `2` with the power
of `5` that has the exponent `15`. -/
theorem square_roots_of_seventeen :
    let M : Modulus := ⟨17, .word, by decide, by decide⟩
    M.value.Prime ∧ ∃ g : Residue M, g.val = 3 ∧ g.IsLeastNonSquare ∧
      squareRootRatio (ofNat 2 : Residue M) (ofNat 5) = .ok (false, ofNat 12) ∧
      ofNat 12 ^ 2 * ofNat 5 = ofNat 2 * g ∧
      (∃ r : Residue M, sqrt? (ofNat 13 : Residue M) = .ok (some r) ∧ r ^ 2 = ofNat 13) ∧
      squareRootRatio (ofNat 2 : Residue M) (ofNat 5) =
        squareRootRatio (ofNat 2 * (ofNat 5).pow (exponentOfLimbs [15])) 1 := by
  intro M
  have hM : M.value.Prime := by decide
  obtain ⟨g, -, -, hratio, hsquares, -, hpowers⟩ := square_roots_of_prime hM
  obtain ⟨square, root, hanswer, -, -, hproduct⟩ :=
    hratio (ofNat 2) (ofNat 5) (by decide) (by decide)
  have hvalue : squareRootRatio (ofNat 2 : Residue M) (ofNat 5) = .ok (false, ofNat 12) := by
    decide
  obtain ⟨rfl, rfl⟩ := Prod.mk.inj (Except.ok.inj (hanswer.symm.trans hvalue))
  obtain ⟨hleast, hroot⟩ := hproduct rfl
  have hg : g.val = 3 := by
    have hval : (ofNat 12 ^ 2 * ofNat 5 : Residue M).val = 6 := by decide
    have hlt : g.val < 17 := g.isLt
    have htwo : (ofNat 2 : Residue M).val = 2 := rfl
    have hmod : 2 * g.val % 17 = 6 := by
      rw [hroot, val_mul, htwo] at hval
      exact hval
    omega
  exact ⟨hM, g, hg, hleast, hvalue, hroot, hsquares (ofNat 13) ⟨ofNat 8, by decide⟩,
    (hpowers rfl _ raisesToPowers_pow).quotient _ _ (by decide)⟩

end Residue

end AffineForms
