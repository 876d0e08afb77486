import Mathlib.FieldTheory.Finite.Basic
import AffineForms.Proofs.Residue.Ring
import AffineForms.Residue.Power

/-!
# Residue powers — square and multiply computes the power, and the power the inverse

`Residue.pow` walks the binary digits of the exponent from the top.  With `n` digits to go and `acc`
accumulated so far, the walk ends in `acc` raised to `2 ^ n`, times the power for the digits that
are left (`foldl_powStep`).  So it computes the power of the ring (`pow_eq`).

Over a prime modulus the power `M.value - 2` is the inverse, by Fermat's little theorem
(`exists_inverse`).

Powers and inverses may as well come from elsewhere.  What is asked of them then is named here, and
nothing else is used:

* `RaisesToPowers power`: `power` computes the powers whose exponents are given by their limbs;
* `Inverts invert`: `invert` has an inverse for every residue but zero, and none for zero.

Either way there is one inverse to be answered (`isInverse_of_mul_eq_one`).
-/

namespace AffineForms
namespace Residue

variable {M : Modulus}

/-! ## Powers -/

theorem toZMod_pow (x : Residue M) (n : ℕ) : (x ^ n).toZMod = x.toZMod ^ n := by
  induction n with
  | zero => simp
  | succ n ih => simp [pow_succ, ih]

theorem powStep_eq (x acc : Residue M) (digit : Bool) :
    x.powStep acc digit = acc ^ 2 * x ^ digit.toNat := by
  cases digit with
  | true => simp [powStep, square, sq]
  | false => simp [powStep, square, sq]

theorem foldl_powStep (x acc : Residue M) (e n : ℕ) :
    ((List.range n).reverse.map e.testBit).foldl x.powStep acc = acc ^ 2 ^ n * x ^ (e % 2 ^ n) := by
  induction n generalizing acc with
  | zero => simp [Nat.mod_one]
  | succ n ih =>
      -- The digit that is read first is the highest one of the remaining exponent.
      have hdigits : e % 2 ^ (n + 1) = (e.testBit n).toNat * 2 ^ n + e % 2 ^ n := by
        rw [Nat.mod_pow_succ, Nat.toNat_testBit, Nat.mul_comm, Nat.add_comm]
      rw [List.range_succ, List.reverse_append, List.reverse_singleton, List.singleton_append,
        List.map_cons, List.foldl_cons, ih, powStep_eq]
      calc
        (acc ^ 2 * x ^ (e.testBit n).toNat) ^ 2 ^ n * x ^ (e % 2 ^ n)
            = acc ^ (2 * 2 ^ n) * (x ^ ((e.testBit n).toNat * 2 ^ n) * x ^ (e % 2 ^ n)) := by
              rw [mul_pow, ← pow_mul, ← pow_mul, mul_assoc]
        _ = acc ^ 2 ^ (n + 1) * x ^ (e % 2 ^ (n + 1)) := by
              rw [← pow_add, hdigits, pow_succ' 2 n]

theorem pow_eq (x : Residue M) (e : ℕ) : x.pow e = x ^ e := by
  have hdigits : e % 2 ^ (e.log2 + 1) = e := Nat.mod_eq_of_lt Nat.lt_log2_self
  rw [pow, binaryDigits, foldl_powStep, one_pow, one_mul, hdigits]

/-- `power` raises residues to the powers whose exponents are given by their limbs. -/
def RaisesToPowers (power : Residue M → List UInt64 → Residue M) : Prop :=
  ∀ x limbs, power x limbs = x ^ exponentOfLimbs limbs

theorem raisesToPowers_pow :
    RaisesToPowers fun (x : Residue M) limbs => x.pow (exponentOfLimbs limbs) :=
  fun x _ => x.pow_eq _

theorem exponentOfLimbs_singleton {e : ℕ} (he : e < wordSize) :
    exponentOfLimbs [UInt64.ofNat e] = e := by
  rw [wordSize] at he
  rw [exponentOfLimbs, exponentOfLimbs, Nat.mul_zero, Nat.add_zero, UInt64.toNat_ofNat',
    Nat.mod_eq_of_lt he]

/-- On one word the exponents up to the modulus fit into a single limb. -/
theorem RaisesToPowers.eq_pow {power : Residue M → List UInt64 → Residue M}
    (h : RaisesToPowers power) (hwidth : M.width = .word) {e : ℕ} (he : e ≤ M.value)
    (x : Residue M) : power x [UInt64.ofNat e] = x.pow e := by
  -- A word holds the modulus, so the limb is the exponent and not a remainder of it.
  have hlt := M.value_lt_size
  rw [hwidth, Width.size] at hlt
  rw [h, exponentOfLimbs_singleton (Nat.lt_of_le_of_lt he hlt), pow_eq]

/-! ## Inverses -/

theorem mul_pow_sub_two (hM : M.value.Prime) {x : Residue M} (hx : x ≠ 0) :
    x * x ^ (M.value - 2) = 1 := by
  have : Fact M.value.Prime := ⟨hM⟩
  have hne : x.toZMod ≠ 0 := fun h => hx (toZMod_injective (by rw [h, toZMod_zero]))
  apply toZMod_injective
  calc
    (x * x ^ (M.value - 2)).toZMod
        = x.toZMod ^ (M.value - 2 + 1) := by rw [toZMod_mul, toZMod_pow, pow_succ']
    _ = x.toZMod ^ (M.value - 1) := by
        have htwo := M.two_le
        congr 1
        omega
    _ = (1 : Residue M).toZMod := by rw [ZMod.pow_card_sub_one_eq_one hne, toZMod_one]

theorem exists_inverse (hM : M.value.Prime) {x : Residue M} (hx : x ≠ 0) :
    ∃ y, x.invert? = some y ∧ x * y = 1 :=
  ⟨x ^ (M.value - 2), by rw [invert?, if_neg hx, pow_eq], mul_pow_sub_two hM hx⟩

theorem eq_of_mul_eq_one {x y z : Residue M} (hy : x * y = 1) (hz : x * z = 1) : y = z :=
  left_inv_eq_right_inv ((mul_comm y x).trans hy) hz

/-- `invert` answers the inverse of every residue but zero, which has none. -/
structure Inverts (invert : Residue M → Option (Residue M)) : Prop where
  zero : invert 0 = none
  exists_inverse : ∀ x, x ≠ 0 → ∃ y, invert x = some y ∧ x * y = 1

theorem inverts_invert? (hM : M.value.Prime) : Inverts (invert? (M := M)) where
  zero := if_pos rfl
  exists_inverse _ := Residue.exists_inverse hM

/-- The inverse of a residue, be it answered as such or computed as a power. -/
structure IsInverse (x y : Residue M) : Prop where
  mul_eq_one : x * y = 1
  of_inverts : ∀ invert, Inverts invert → invert x = some y
  of_power : M.width = .word → ∀ power, RaisesToPowers power →
    power x [UInt64.ofNat (M.value - 2)] = y

theorem isInverse_of_mul_eq_one (hM : M.value.Prime) {x y : Residue M} (h : x * y = 1) :
    x.IsInverse y := by
  have hx : x ≠ 0 := left_ne_zero_of_mul_eq_one h
  -- Either answer is an inverse of `x`, and there is one at most.
  refine ⟨h, fun invert hinvert => ?_, fun hwidth power hpower => ?_⟩
  · obtain ⟨z, hz, hmul⟩ := hinvert.exists_inverse x hx
    rw [hz, eq_of_mul_eq_one hmul h]
  · rw [hpower.eq_pow hwidth (Nat.sub_le _ _), pow_eq]
    exact eq_of_mul_eq_one (mul_pow_sub_two hM hx) h

end Residue
end AffineForms
