import Mathlib.NumberTheory.LegendreSymbol.Basic
import AffineForms.Proofs.Residue.Power
import AffineForms.Proofs.Residue.Signs
import AffineForms.Residue.SquareRoot

/-!
# Squares — which residues of a prime modulus have a root

The test for squares raises a residue to the power `(p - 1) / 2`.  Over an odd prime that power is
one for the non-zero squares and minus one for the other residues (`pow_half_eq_one_iff`,
`pow_half_of_not_isSquare`), by the criterion that `ZMod` provides; over two everything is a square.
So the test is right (`isSquare_eq_true_iff`), and a product of two non-squares is a square
(`isSquare_mul_of_not_isSquare`).

The search for a non-square tries the numbers from two upwards.  Over an odd prime it finds the
least one (`exists_leastNonResidue?`).
-/

namespace AffineForms
namespace Residue

variable {M : Modulus} {x y : Residue M}

/-! ## Euler's criterion -/

theorem isSquare_toZMod_iff : IsSquare x.toZMod ↔ IsSquare x := by
  have : NeZero M.value := ⟨M.pos.ne'⟩
  constructor
  · rintro ⟨r, hr⟩
    refine ⟨ofNat r.val, toZMod_injective ?_⟩
    rw [toZMod_mul, toZMod_ofNat, ZMod.natCast_zmod_val, hr]
  · rintro ⟨r, rfl⟩
    exact ⟨r.toZMod, toZMod_mul r r⟩

theorem ne_zero_of_not_isSquare (hx : ¬ IsSquare x) : x ≠ 0 := by
  rintro rfl
  exact hx IsSquare.zero

theorem eq_neg_one_of_sq_eq_one (hM : M.value.Prime) (h : x ^ 2 = 1) (hne : x ≠ 1) : x = -1 := by
  have : NoZeroDivisors (Residue M) := ⟨fun h => eq_zero_or_eq_zero_of_mul hM h⟩
  rw [sq] at h
  exact (mul_self_eq_one_iff.1 h).resolve_left hne

section Odd

variable (hM : M.value.Prime) (hodd : M.value % 2 = 1)

include hM

theorem pow_sub_one_eq_one (hx : x ≠ 0) : x ^ (M.value - 1) = 1 := by
  have htwo := M.two_le
  rw [show M.value - 1 = M.value - 2 + 1 by omega, pow_succ']
  exact mul_pow_sub_two hM hx

include hodd

theorem pow_half_eq_one_iff (hx : x ≠ 0) : x ^ ((M.value - 1) / 2) = 1 ↔ IsSquare x := by
  have : Fact M.value.Prime := ⟨hM⟩
  have hne : x.toZMod ≠ 0 := fun h => hx (toZMod_injective (by rw [h, toZMod_zero]))
  have hhalf : (M.value - 1) / 2 = M.value / 2 := by omega
  rw [← isSquare_toZMod_iff, ZMod.euler_criterion M.value hne, hhalf, ← toZMod_pow,
    ← toZMod_one, toZMod_injective.eq_iff]

theorem pow_half_of_not_isSquare (hx : ¬ IsSquare x) : x ^ ((M.value - 1) / 2) = -1 := by
  have hne := ne_zero_of_not_isSquare hx
  refine eq_neg_one_of_sq_eq_one hM ?_ fun hone => hx ((pow_half_eq_one_iff hM hodd hne).1 hone)
  have hdouble : (M.value - 1) / 2 * 2 = M.value - 1 := by omega
  rw [← pow_mul, hdouble, pow_sub_one_eq_one hM hne]

theorem isSquare_mul_of_not_isSquare (hx : ¬ IsSquare x) (hy : ¬ IsSquare y) :
    IsSquare (x * y) := by
  have hne : x * y ≠ 0 := by
    intro hzero
    rcases eq_zero_or_eq_zero_of_mul hM hzero with hzero | hzero
    · exact ne_zero_of_not_isSquare hx hzero
    · exact ne_zero_of_not_isSquare hy hzero
  rw [← pow_half_eq_one_iff hM hodd hne, mul_pow, pow_half_of_not_isSquare hM hodd hx,
    pow_half_of_not_isSquare hM hodd hy]
  ring

end Odd

/-! ## The test -/

theorem sq_eq_self_of_val_lt_two (hx : x.val < 2) : x ^ 2 = x := by
  have hcases : x.val = 0 ∨ x.val = 1 := by omega
  rcases hcases with hval | hval
  · rw [show x = 0 from ext hval, zero_pow two_ne_zero]
  · rw [show x = 1 from ext hval, one_pow]

theorem isSquare_of_val_lt_two (hx : x.val < 2) : IsSquare x :=
  ⟨x, by rw [← sq, sq_eq_self_of_val_lt_two hx]⟩

theorem isSquare_of_two (htwo : M.value = 2) (x : Residue M) : IsSquare x :=
  isSquare_of_val_lt_two (htwo ▸ x.isLt)

theorem isSquare_eq_true_iff (hM : M.value.Prime) (x : Residue M) :
    x.isSquare = true ↔ IsSquare x := by
  rcases hM.eq_two_or_odd with htwo | hodd
  · simp [isSquare, htwo, isSquare_of_two htwo x]
  · have hne : M.value ≠ 2 := by omega
    by_cases hx : x = 0
    · simp [isSquare, hx]
    · simp [isSquare, hne, hx, pow_eq, pow_half_eq_one_iff hM hodd hx]

/-! ## The search for a non-square -/

/-- A non-square whose representative is the smallest of all. -/
structure IsLeastNonSquare (g : Residue M) : Prop where
  not_isSquare : ¬ IsSquare g
  le : ∀ x : Residue M, ¬ IsSquare x → g.val ≤ x.val

theorem exists_nonResidueFrom? (hM : M.value.Prime) {fuel n : ℕ} (hn : n + fuel = M.value)
    (hx : ¬ IsSquare x) (hle : n ≤ x.val) :
    ∃ g : Residue M, nonResidueFrom? fuel n = some g ∧ ¬ IsSquare g ∧
      ∀ y : Residue M, ¬ IsSquare y → n ≤ y.val → g.val ≤ y.val := by
  induction fuel generalizing n with
  | zero =>
      have hlt := x.isLt
      omega
  | succ fuel ih =>
      have hval : (ofNat n : Residue M).val = n := by
        rw [val_ofNat, Nat.mod_eq_of_lt (by omega)]
      by_cases hcandidate : IsSquare (ofNat n : Residue M)
      · -- A square is passed over, so the non-squares to come are all beyond it.
        have hbeyond : ∀ y : Residue M, ¬ IsSquare y → n ≤ y.val → n + 1 ≤ y.val := by
          intro y hy hny
          refine Nat.lt_of_le_of_ne hny fun heq => hy ?_
          rwa [show y = ofNat n from ext (heq.symm.trans hval.symm)]
        obtain ⟨g, hg, hnot, hleast⟩ := ih (by omega) (hbeyond x hx hle)
        refine ⟨g, ?_, hnot, fun y hy hny => hleast y hy (hbeyond y hy hny)⟩
        rw [nonResidueFrom?, if_pos ((isSquare_eq_true_iff hM _).2 hcandidate), hg]
      · refine ⟨ofNat n, ?_, hcandidate, fun y _ hny => hval.trans_le hny⟩
        rw [nonResidueFrom?, if_neg fun h => hcandidate ((isSquare_eq_true_iff hM _).1 h)]

theorem exists_leastNonResidue? (hM : M.value.Prime) (hodd : M.value % 2 = 1) :
    ∃ g : Residue M, leastNonResidue? = some g ∧ g.IsLeastNonSquare := by
  have : Fact M.value.Prime := ⟨hM⟩
  have hchar : ringChar (ZMod M.value) ≠ 2 := by
    rw [ZMod.ringChar_zmod_n]
    omega
  obtain ⟨a, ha⟩ := FiniteField.exists_nonsquare hchar
  have hx : ¬ IsSquare (ofNat a.val : Residue M) := by
    rwa [← isSquare_toZMod_iff, toZMod_ofNat, ZMod.natCast_zmod_val]
  -- Zero and one are squares, so nothing is lost by starting at two.
  have hfrom : ∀ y : Residue M, ¬ IsSquare y → 2 ≤ y.val := fun y hy =>
    Nat.le_of_not_lt fun hlt => hy (isSquare_of_val_lt_two hlt)
  have htwo := M.two_le
  obtain ⟨g, hg, hnot, hleast⟩ :=
    exists_nonResidueFrom? hM (show 2 + (M.value - 2) = M.value by omega) hx (hfrom _ hx)
  exact ⟨g, hg, hnot, fun y hy => hleast y hy (hfrom y hy)⟩

/-- For every non-square the search finds the least one, and the product of the two is a square.
Over two there is nothing to be found, and no non-square. -/
theorem exists_complement (hM : M.value.Prime) :
    ∃ g : Residue M, ∀ x : Residue M, ¬ IsSquare x →
      leastNonResidue? = some g ∧ g.IsLeastNonSquare ∧ IsSquare (x * g) := by
  rcases hM.eq_two_or_odd with htwo | hodd
  · exact ⟨0, fun x hx => absurd (isSquare_of_two htwo x) hx⟩
  · obtain ⟨g, hg, hleast⟩ := exists_leastNonResidue? hM hodd
    exact ⟨g, fun x hx =>
      ⟨hg, hleast, isSquare_mul_of_not_isSquare hM hodd hx hleast.not_isSquare⟩⟩

end Residue
end AffineForms
