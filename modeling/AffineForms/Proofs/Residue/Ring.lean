import Mathlib.Algebra.Field.ZMod
import AffineForms.Residue.Basic

/-!
# Residue ring — the coefficients form a commutative ring

`Residue.toZMod` reads a residue as an element of `ZMod M.value`.  The reading is injective and
turns each checked operation into the operation of the same name, so the ring laws are carried
back along it:

* `toZMod_add`, `toZMod_sub`, `toZMod_neg`, `toZMod_mul` for the four operations;
* the instance of `CommRing` for every modulus, prime or composite;
* `eq_zero_or_eq_zero_of_mul` for a prime modulus, where no two non-zero residues multiply to zero.
-/

namespace AffineForms
namespace Residue

variable {M : Modulus}

/-! ## The reading in `ZMod` -/

def toZMod (x : Residue M) : ZMod M.value := (x.val : ZMod M.value)

theorem val_toZMod (x : Residue M) : x.toZMod.val = x.val := by
  have hval : x.toZMod.val = x.val % M.value := ZMod.val_natCast M.value x.val
  simpa [Nat.mod_eq_of_lt x.isLt] using hval

theorem toZMod_injective : Function.Injective (toZMod : Residue M → ZMod M.value) := by
  intro x y h
  have hval : x.toZMod.val = y.toZMod.val := congrArg ZMod.val h
  exact ext (by simpa [val_toZMod] using hval)

@[simp] theorem toZMod_zero : (0 : Residue M).toZMod = 0 := by
  simp [toZMod]

@[simp] theorem toZMod_one : (1 : Residue M).toZMod = 1 := by
  simp [toZMod]

@[simp] theorem toZMod_ofNat (n : Nat) : (ofNat n : Residue M).toZMod = n := by
  simp [toZMod, val_ofNat]

@[simp] theorem toZMod_add (x y : Residue M) : (x + y).toZMod = x.toZMod + y.toZMod := by
  simp [toZMod, val_add]

@[simp] theorem toZMod_mul (x y : Residue M) : (x * y).toZMod = x.toZMod * y.toZMod := by
  simp [toZMod, val_mul]

@[simp] theorem toZMod_neg (x : Residue M) : (-x).toZMod = -x.toZMod := by
  simp [toZMod, val_neg, Nat.cast_sub (Nat.le_of_lt x.isLt)]

@[simp] theorem toZMod_sub (x y : Residue M) : (x - y).toZMod = x.toZMod - y.toZMod := by
  simp [toZMod, val_sub, Nat.cast_sub (Nat.le_of_lt y.isLt), sub_eq_add_neg]

/-! ## The ring -/

instance : CommRing (Residue M) where
  add_assoc x y z := toZMod_injective (by simp [add_assoc])
  zero_add x := toZMod_injective (by simp)
  add_zero x := toZMod_injective (by simp)
  add_comm x y := toZMod_injective (by simp [add_comm])
  left_distrib x y z := toZMod_injective (by simp [mul_add])
  right_distrib x y z := toZMod_injective (by simp [add_mul])
  zero_mul x := toZMod_injective (by simp)
  mul_zero x := toZMod_injective (by simp)
  mul_assoc x y z := toZMod_injective (by simp [mul_assoc])
  one_mul x := toZMod_injective (by simp)
  mul_one x := toZMod_injective (by simp)
  mul_comm x y := toZMod_injective (by simp [mul_comm])
  neg_add_cancel x := toZMod_injective (by simp)
  sub_eq_add_neg x y := toZMod_injective (by simp [sub_eq_add_neg])
  natCast := ofNat
  natCast_zero := toZMod_injective (by simp)
  natCast_succ n := toZMod_injective (by simp)
  nsmul := nsmulRec
  zsmul := zsmulRec

instance : Nontrivial (Residue M) where
  exists_pair_ne := ⟨1, 0, fun h => absurd (congrArg val h) (by simp)⟩

theorem eq_zero_or_eq_zero_of_mul (hM : M.value.Prime) {x y : Residue M} (h : x * y = 0) :
    x = 0 ∨ y = 0 := by
  have : Fact M.value.Prime := ⟨hM⟩
  have hprod : x.toZMod * y.toZMod = 0 := by
    simpa using congrArg toZMod h
  rcases mul_eq_zero.1 hprod with hx | hy
  · exact Or.inl (toZMod_injective (by simpa using hx))
  · exact Or.inr (toZMod_injective (by simpa using hy))

end Residue
end AffineForms
