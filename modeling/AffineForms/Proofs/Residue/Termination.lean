import Mathlib.GroupTheory.OrderOfElement
import Mathlib.NumberTheory.Padics.PadicVal.Basic
import Mathlib.Tactic.NormNum.Prime
import AffineForms.Proofs.Residue.Descent

/-!
# Termination — a descent ends within the 2-adic valuation of `p - 1`

Neither the rounds of a descent nor the squarings within a round count anything down; both end
because of the orders of the generator and of the defect.  The fuel of the definitions is not what
ends them, so the statements here are about the rounds themselves.

* `Descent.Descends n d e`: exactly `n` rounds lead from `d` to `e`.  A run with fuel follows these
  rounds and no others (`Descent.run_eq_ok_iff`).
* `Descent.Lowers i d next`: all that a round does, in which the defect takes `i` squarings to one.
* `Descent.Descends.approaches`: the invariant of the descent holds at the head of every round, and
  the exponent pays for the rounds so far.

`square_root_descent_ends` puts these together for an odd prime modulus, with what is settled ahead
of the first round (`Residue.prepare`).
-/

namespace AffineForms

/-! ## The twos in `p - 1` -/

theorem eq_padicValNat_of_eq_mul {n s q : ℕ} (hsplit : n = q * 2 ^ s) (hq : q % 2 = 1) :
    s = padicValNat 2 n := by
  have hodd : ¬ 2 ∣ q := by omega
  rw [hsplit, padicValNat.mul (by omega) (by positivity), padicValNat.prime_pow,
    padicValNat.eq_zero_of_not_dvd hodd, zero_add]

namespace Modulus

variable (M : Modulus)

/-- How often two divides `p - 1`. -/
def twoAdicity : ℕ := padicValNat 2 (M.value - 1)

def oddPart : ℕ := (M.value - 1) / 2 ^ M.twoAdicity

theorem splitTwos_sub_one :
    splitTwos M.width.bits (M.value - 1) = (M.twoAdicity, M.oddPart) := by
  obtain ⟨hsplit, hq, -⟩ := splitTwos_sub_one_spec M
  have hs := eq_padicValNat_of_eq_mul hsplit hq
  refine Prod.ext hs ?_
  rw [oddPart, twoAdicity, ← hs]
  exact (Nat.div_eq_of_eq_mul_left (Nat.two_pow_pos _) hsplit).symm

end Modulus

/-! ## Rounds -/

namespace Descent

variable {M : Modulus} {x : Residue M} {d e : Descent M}

/-- Exactly `n` rounds of the descent lead from one state to another. -/
inductive Descends : ℕ → Descent M → Descent M → Prop where
  | refl (d : Descent M) : Descends 0 d d
  | round {n : ℕ} {d next last : Descent M} (hdefect : d.defect ≠ 1) (hstep : d.step = .ok next)
      (hrest : Descends n next last) : Descends (n + 1) d last

/-- A run answers the root of the state in which the rounds end, if its fuel lasts that long. -/
theorem run_eq_ok_iff {fuel : ℕ} {r : Residue M} :
    d.run fuel = .ok r ↔
      ∃ n ≤ fuel, ∃ last, Descends n d last ∧ last.defect = 1 ∧ last.root = r := by
  constructor
  · intro h
    induction fuel generalizing d with
    | zero =>
        rw [run] at h
        split at h
        · rename_i hone
          exact ⟨0, le_rfl, d, .refl d, hone, Except.ok.inj h⟩
        · cases h
    | succ fuel ih =>
        rw [run] at h
        split at h
        · rename_i hone
          exact ⟨0, Nat.zero_le _, d, .refl d, hone, Except.ok.inj h⟩
        · rename_i hdefect
          split at h
          · cases h
          · rename_i next hstep
            obtain ⟨n, hn, last, hrest, hlast⟩ := ih h
            exact ⟨n + 1, Nat.succ_le_succ hn, last, .round hdefect hstep hrest, hlast⟩
  · rintro ⟨n, hn, last, hrounds, hone, rfl⟩
    -- Each round takes one unit of fuel, so the rest has enough for the rounds that are left.
    induction hrounds generalizing fuel with
    | refl d =>
        cases fuel with
        | zero => rw [run, if_pos hone]
        | succ fuel => rw [run, if_pos hone]
    | @round n d next last hdefect hstep _ ih =>
        obtain ⟨fuel, rfl⟩ : ∃ k, fuel = k + 1 := ⟨fuel - 1, by omega⟩
        rw [run, if_neg hdefect, hstep]
        exact ih (Nat.le_of_succ_le_succ hn) hone

/-- A round in which the defect takes `i` squarings to one.  The search for this number ends with
it, whatever its fuel; the number is positive and below the exponent, so the squarings of the
generator are not negatively many; and it is the exponent of the next round. -/
structure Lowers (i : ℕ) (d next : Descent M) : Prop where
  pos : 0 < i
  lt : i < d.exponent
  search : ∀ fuel, i < fuel → Residue.squaringsToOne? fuel d.defect = some i
  gap_eq : gap d.exponent i = .ok (d.exponent - i - 1)
  step_eq : d.step = .ok next
  exponent_eq : next.exponent = i

theorem Approaches.exists_lowers (h : d.Approaches x) (hbits : d.exponent ≤ M.width.bits)
    (hdefect : d.defect ≠ 1) : ∃ i next, Lowers i d next := by
  obtain ⟨i, hpos, hlt, hone, hleast⟩ := h.exists_squarings hdefect
  have hsearch : ∀ fuel, i < fuel → Residue.squaringsToOne? fuel d.defect = some i :=
    fun fuel hfuel => Residue.squaringsToOne?_eq_some_iff.2 ⟨hfuel, hone, hleast⟩
  exact ⟨i, _, hpos, hlt, hsearch, gap_eq_ok hlt,
    step_eq_ok (hsearch _ (Nat.lt_of_lt_of_le hlt hbits)) hlt, rfl⟩

/-- The exponent is not only a bound on the order of the generator, but the order itself. -/
theorem Approaches.orderOf_generator (h : d.Approaches x) (hodd : M.value % 2 = 1) :
    orderOf d.generator = 2 ^ d.exponent := by
  have hne : (-1 : Residue M) ≠ 1 := Residue.neg_ne_self_of_odd hodd one_ne_zero
  have hexponent : d.exponent - 1 + 1 = d.exponent := Nat.sub_add_cancel h.exponent_pos
  rw [← hexponent]
  refine orderOf_eq_prime_pow ?_ ?_
  · rw [h.generator_pow]
    exact hne
  · rw [pow_succ, pow_mul, h.generator_pow, neg_one_sq]

/-- Each round is paid for by the exponent. -/
theorem Descends.approaches (hM : M.value.Prime) {n : ℕ} (h : Descends n d e)
    (hd : d.Approaches x) (hbits : d.exponent ≤ M.width.bits) :
    e.Approaches x ∧ n + e.exponent ≤ d.exponent := by
  induction h with
  | refl d => exact ⟨hd, by omega⟩
  | @round n d next last hdefect hstep _ ih =>
      obtain ⟨next', hstep', hnext, hlt⟩ := exists_step hM hd hbits hdefect
      -- A step has one answer, so the rounds go on to the state that keeps the invariant.
      obtain rfl : next = next' := Except.ok.inj (hstep.symm.trans hstep')
      obtain ⟨hlast, hpaid⟩ := ih hnext (by omega)
      exact ⟨hlast, by omega⟩

/-- The rounds come to an end before the exponent is used up, and any run that is given at least
that many rounds answers the root they end in. -/
theorem Approaches.exists_end (hM : M.value.Prime) (h : d.Approaches x)
    (hbits : d.exponent ≤ M.width.bits) :
    ∃ n < d.exponent, ∃ last, Descends n d last ∧ last.defect = 1 ∧
      ∀ fuel, n ≤ fuel → d.run fuel = .ok last.root := by
  obtain ⟨r, hrun, -⟩ := exists_run hM h le_rfl hbits
  obtain ⟨n, -, last, hrounds, hone, -⟩ := run_eq_ok_iff.1 hrun
  obtain ⟨hlast, hpaid⟩ := hrounds.approaches hM h hbits
  have hpos := hlast.exponent_pos
  exact ⟨n, by omega, last, hrounds, hone,
    fun fuel hfuel => run_eq_ok_iff.2 ⟨n, hfuel, last, hrounds, hone, rfl⟩⟩

end Descent

/-! ## Roots -/

namespace Residue

variable {M : Modulus}

/-- Over an odd prime the search for a non-square finds the least one.  The descent to a root of a
non-zero square starts with the exponent of two in `p - 1`.  At the head of every round the
invariant holds, the exponent says the order of the generator, and together with the number of
rounds so far it does not exceed its first value.  A round that starts at a defect other than one
lowers the exponent without an underflow.  So the rounds end in fewer steps than the first exponent
says, and any run with fuel for these answers the root.  A non-square is answered ahead of the first
round.  On one word the powers that are taken ahead of it may come from elsewhere. -/
theorem square_root_descent_ends (hM : M.value.Prime) (hodd : M.value % 2 = 1) :
    ∃ z : Residue M, leastNonResidue? = some z ∧ 2 ≤ z.val ∧ z.IsLeastNonSquare ∧
      (∀ x : Residue M, x ≠ 0 → IsSquare x →
        ∃ first : Descent M, first = .start x z M.twoAdicity M.oddPart ∧
          x.prepare = .ok (.inr first) ∧
          (∀ n d, first.Descends n d →
            d.Approaches x ∧ orderOf d.generator = 2 ^ d.exponent ∧
              n + d.exponent ≤ M.twoAdicity ∧
              (d.defect ≠ 1 → ∃ i next, Descent.Lowers i d next)) ∧
          ∃ n < M.twoAdicity, ∃ last, first.Descends n last ∧ last.defect = 1 ∧
            (∀ fuel, n ≤ fuel → first.run fuel = .ok last.root) ∧
            squareRoot x = .ok (some last.root)) ∧
      (∀ x : Residue M, ¬ IsSquare x → x.prepare = .ok (.inl none) ∧ squareRoot x = .ok none) ∧
      (M.width = .word → ∀ power : Residue M → List UInt64 → Residue M, RaisesToPowers power →
        TakesPowers power) := by
  obtain ⟨z, hz, hleast⟩ := exists_leastNonResidue? hM hodd
  have htwo : 2 ≤ z.val :=
    Nat.le_of_not_lt fun hlt => hleast.not_isSquare (isSquare_of_val_lt_two hlt)
  refine ⟨z, hz, htwo, hleast, fun x hne hx => ?_, fun x hx =>
    ⟨prepare_of_not_isSquare hM hx, squareRoot_of_not_isSquare hM hx⟩,
    fun hwidth power hpower => hpower.takesPowers hM hwidth⟩
  obtain ⟨hsplit, hq, hlt⟩ := splitTwos_sub_one_spec M
  have hsmall : ¬ (M.value = 2 ∨ x = 0) := by
    rintro (htwo | hzero)
    · omega
    · exact hne hzero
  have hprepare := prepare_of_isSquare hM hsmall hx hz
  rw [M.splitTwos_sub_one] at hsplit hq hlt hprepare
  have hbits : (Descent.start x z M.twoAdicity M.oddPart).exponent ≤ M.width.bits := hlt.le
  have hstart : (Descent.start x z M.twoAdicity M.oddPart).Approaches x :=
    Descent.approaches_start hM hodd hsplit hq hx hne hleast.not_isSquare
  refine ⟨_, rfl, hprepare, fun n d hrounds => ?_, ?_⟩
  · obtain ⟨hd, hpaid⟩ := hrounds.approaches hM hstart hbits
    have hexponent : d.exponent ≤ M.width.bits := by omega
    exact ⟨hd, hd.orderOf_generator hodd, hpaid, hd.exists_lowers hexponent⟩
  · obtain ⟨n, hn, last, hrounds, hone, hrun⟩ := hstart.exists_end hM hbits
    refine ⟨n, hn, last, hrounds, hone, hrun, ?_⟩
    -- The fuel of the definition exceeds the exponent, so it does not run out.
    have hfuel : n ≤ M.width.bits := hn.le.trans hbits
    rw [squareRoot_eq_prepare, hprepare]
    simp only [bind, Except.bind, hrun _ hfuel, Except.map]

/-- Over `257 = 2 ^ 8 + 1` the descent to a root of nine lowers its exponent from eight to seven in
the first round, and ends in the root `254`.  Three, the least non-square, takes no round.  It is
told from a square by its power with the exponent `128`. -/
theorem square_root_descent_ends_257 :
    let M : Modulus := ⟨257, .word, by decide, by decide⟩
    let nine : Residue M := ofNat 9
    let three : Residue M := ofNat 3
    let first : Descent M := .start nine three 8 1
    M.value.Prime ∧ M.value % 2 = 1 ∧ nine ≠ 0 ∧ IsSquare nine ∧ ¬ IsSquare three ∧
      nine.prepare = .ok (.inr first) ∧ (∃ next, Descent.Lowers 7 first next) ∧
      (∃ n < 8, ∃ last, first.Descends n last ∧ last.defect = 1 ∧ last.root = ofNat 254) ∧
      three.prepare = .ok (.inl none) ∧
      three.isSquare = (M.value == 2 || three == 0 || three.pow (exponentOfLimbs [128]) == 1) := by
  intro M nine three first
  have hM : M.value.Prime := by norm_num
  have hodd : M.value % 2 = 1 := by decide
  have hnine : IsSquare nine := ⟨ofNat 3, by decide⟩
  have htwos : M.twoAdicity = 8 := padicValNat.prime_pow (p := 2) 8
  have hpart : M.oddPart = 1 := by norm_num [Modulus.oddPart, htwos, M]
  obtain ⟨z, hz, -, hleast, hsquares, hothers, hpowers⟩ := square_root_descent_ends hM hodd
  obtain rfl : three = z := Option.some.inj ((show _ = some three by decide).symm.trans hz)
  obtain ⟨start, hstart, hprepare, hrounds, n, hn, last, hend, hone, -, hroot⟩ :=
    hsquares nine (by decide) hnine
  rw [htwos, hpart] at hstart
  subst hstart
  rw [htwos] at hn
  obtain ⟨-, -, -, hround⟩ := hrounds 0 first (.refl first)
  obtain ⟨i, next, hnext⟩ := hround (by decide)
  have hseven : i = 7 :=
    Option.some.inj ((hnext.search 8 hnext.lt).symm.trans (by decide))
  have hvalue : last.root = ofNat 254 :=
    Option.some.inj (Except.ok.inj (hroot.symm.trans (by decide)))
  have htest := (hpowers rfl _ raisesToPowers_pow).test three
  have hlimb : UInt64.ofNat ((M.value - 1) / 2) = 128 := by decide
  rw [hlimb] at htest
  exact ⟨hM, hodd, by decide, hnine, hleast.not_isSquare, hprepare, ⟨next, hseven ▸ hnext⟩,
    ⟨n, hn, last, hend, hone, hvalue⟩, (hothers _ hleast.not_isSquare).1, htest⟩

end Residue

end AffineForms
