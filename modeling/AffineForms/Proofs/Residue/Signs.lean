import AffineForms.Proofs.Residue.Ring
import AffineForms.Residue.Sign

/-!
# Residue signs — the order of the representatives, and the two halves of the field

Both ways of comparing residues compare their representatives (`compare_eq`).  When the modulus is
odd or two, both ways of telling a negative residue agree as well: `x` is negative when it is above
its opposite (`isNegative_iff`).

So a residue that differs from its opposite is negative exactly when its opposite is not
(`isNegative_neg`).  Over an odd modulus that is every residue but zero, and over two there is none
(`neg_ne_self_of_odd`, `neg_eq_self_of_two`).  An even modulus above two is excluded because its
half is its own opposite there, and negative.
-/

namespace AffineForms

/-- The moduli for which a residue and its opposite fall into different halves, or are equal for all
residues. -/
def Modulus.OddOrTwo (M : Modulus) : Prop := M.value % 2 = 1 ∨ M.value = 2

instance (M : Modulus) : Decidable M.OddOrTwo :=
  inferInstanceAs (Decidable (M.value % 2 = 1 ∨ M.value = 2))

namespace Residue

variable {M : Modulus} {x : Residue M}

/-! ## Order -/

theorem compareByEncoding_eq (x y : Residue M) :
    x.compareByEncoding y = Ord.compare x.val y.val := by
  -- Encodings over one modulus are equally long.
  have hlen : x.encode.length = y.encode.length := by simp
  rw [compareByEncoding, Bytes.compare_eq hlen, toNat_encode, toNat_encode]

theorem compare_eq (x y : Residue M) : x.compare y = Ord.compare x.val y.val := by
  unfold compare
  split
  · rfl
  · exact compareByEncoding_eq x y

/-! ## Opposites -/

theorem val_pos_of_ne_zero (hx : x ≠ 0) : 0 < x.val :=
  Nat.pos_of_ne_zero fun hval => hx (ext hval)

theorem val_neg_of_ne_zero (hx : x ≠ 0) : (-x).val = M.value - x.val := by
  have hpos := val_pos_of_ne_zero hx
  rw [val_neg, Nat.mod_eq_of_lt (Nat.sub_lt M.pos hpos)]

theorem neg_ne_self_of_odd (hM : M.value % 2 = 1) (hx : x ≠ 0) : -x ≠ x := by
  intro h
  have hval : M.value - x.val = x.val := by
    rw [← val_neg_of_ne_zero hx, h]
  have hlt := x.isLt
  omega

theorem neg_eq_self_of_two (hM : M.value = 2) (x : Residue M) : -x = x := by
  by_cases hx : x = 0
  · simp [hx]
  · have hpos := val_pos_of_ne_zero hx
    have hlt := x.isLt
    apply ext
    rw [val_neg_of_ne_zero hx]
    omega

/-! ## Negative residues -/

theorem isAboveMidpoint_iff :
    x.isAboveMidpoint = true ↔ 2 < M.value ∧ (M.value - 1) / 2 < x.val := by
  simp [isAboveMidpoint]

theorem isAboveOpposite_iff : x.isAboveOpposite = true ↔ (-x).val < x.val := by
  rw [isAboveOpposite, compareByEncoding_eq]
  simp [Nat.compare_eq_gt]

theorem isAboveMidpoint_eq_isAboveOpposite (hM : M.OddOrTwo) (x : Residue M) :
    x.isAboveMidpoint = x.isAboveOpposite := by
  rw [Bool.eq_iff_iff, isAboveMidpoint_iff, isAboveOpposite_iff]
  by_cases hx : x = 0
  · simp [hx]
  · have hpos := val_pos_of_ne_zero hx
    have hlt := x.isLt
    rw [val_neg_of_ne_zero hx]
    rcases hM with hodd | htwo
    · -- Both say that `x` is in the upper one of two equal halves.
      omega
    · -- The only non-zero residue is its own opposite, and negative in neither sense.
      omega

theorem isNegative_iff (hM : M.OddOrTwo) : x.isNegative = true ↔ (-x).val < x.val := by
  unfold isNegative
  split
  · rw [isAboveMidpoint_eq_isAboveOpposite hM, isAboveOpposite_iff]
  · exact isAboveOpposite_iff

theorem isNegative_neg (hM : M.OddOrTwo) (hx : -x ≠ x) : (-x).isNegative = !x.isNegative := by
  -- One of the two representatives is below the other.
  have hval : (-x).val ≠ x.val := fun h => hx (ext h)
  rw [Bool.eq_iff_iff, isNegative_iff hM, neg_neg]
  cases hneg : x.isNegative with
  | true =>
      have hlt := (isNegative_iff hM).1 hneg
      simp only [Bool.not_true, Bool.false_eq_true, iff_false]
      omega
  | false =>
      have hle : ¬ (-x).val < x.val := fun h => by simp [(isNegative_iff hM).2 h] at hneg
      simp only [Bool.not_false, iff_true]
      omega

end Residue
end AffineForms
