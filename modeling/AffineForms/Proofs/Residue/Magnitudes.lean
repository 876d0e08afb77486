import AffineForms.Proofs.Residue.Arithmetic
import AffineForms.Proofs.Residue.Numerals
import AffineForms.Proofs.Residue.Signs

/-!
# Magnitudes — a residue up to its sign

Over an odd modulus the non-zero residues come in pairs of opposites, one of them above the
midpoint.  `Residue.magnitude` picks the other one:

* `Residue.isNegative_magnitude`: a magnitude is not negative;
* `Residue.magnitude_le`: so magnitudes reach up to the midpoint;
* `Residue.magnitude_neg`: opposites have the same magnitude;
* `Residue.magnitude_eq_iff`: no other residues have.

Order, sign and numeral of a residue are each read in two ways, from its representative or from its
encoding.  `order_and_sign_of_encoding` collects what makes the two ways agree: encodings of one
length are ordered as the numbers that they stand for, and to be above the midpoint is to be above
the opposite.  An even modulus above two is the exception to the latter, because its half is its own
opposite.
-/

namespace AffineForms
namespace Residue

variable {M : Modulus} {x y : Residue M}

/-! ## The upper half -/

theorem isAboveOpposite_iff_midpoint_lt (hodd : M.value % 2 = 1) :
    x.isAboveOpposite = true ↔ (M.value - 1) / 2 < x.val := by
  have htwo : 2 < M.value := by
    have hle := M.two_le
    omega
  rw [← isAboveMidpoint_eq_isAboveOpposite (.inl hodd), isAboveMidpoint_iff]
  exact and_iff_right htwo

theorem isNegative_eq_isAboveOpposite (hM : M.OddOrTwo) (x : Residue M) :
    x.isNegative = x.isAboveOpposite := by
  rw [Bool.eq_iff_iff, isNegative_iff hM, isAboveOpposite_iff]

/-! ## Magnitudes -/

theorem magnitude_of_isNegative (h : x.isNegative = true) : x.magnitude = -x := by
  rw [magnitude, h, cond_true]

theorem magnitude_of_not_isNegative (h : x.isNegative = false) : x.magnitude = x := by
  rw [magnitude, h, cond_false]

theorem magnitude_eq_self_or_neg (x : Residue M) : x.magnitude = x ∨ x.magnitude = -x := by
  cases h : x.isNegative with
  | true => exact .inr (magnitude_of_isNegative h)
  | false => exact .inl (magnitude_of_not_isNegative h)

/-- A residue that is its own opposite is not negative. -/
theorem neg_ne_self_of_isNegative (hM : M.OddOrTwo) (h : x.isNegative = true) : -x ≠ x := by
  intro hself
  have hlt := (isNegative_iff hM).1 h
  rw [hself] at hlt
  exact Nat.lt_irrefl _ hlt

theorem isNegative_magnitude (hM : M.OddOrTwo) (x : Residue M) :
    x.magnitude.isNegative = false := by
  cases h : x.isNegative with
  | true =>
      rw [magnitude_of_isNegative h, isNegative_neg hM (neg_ne_self_of_isNegative hM h), h,
        Bool.not_true]
  | false => rw [magnitude_of_not_isNegative h, h]

/-- No magnitude lies above the midpoint, where the non-zero residue of two is the exception. -/
theorem magnitude_le (hM : M.OddOrTwo) (x : Residue M) :
    x.magnitude.val ≤ (M.value - 1) / 2 ∨ M.value = 2 ∧ x.magnitude.val ≤ 1 := by
  rcases hM with hodd | htwo
  · left
    have hnot := isNegative_magnitude (.inl hodd) x
    rw [isNegative_eq_isAboveOpposite (.inl hodd), ← Bool.not_eq_true,
      isAboveOpposite_iff_midpoint_lt hodd] at hnot
    exact Nat.not_lt.1 hnot
  · right
    have hlt := x.magnitude.isLt
    exact ⟨htwo, by omega⟩

theorem magnitude_neg (hM : M.OddOrTwo) (x : Residue M) : (-x).magnitude = x.magnitude := by
  -- The sign flips, unless the residue is its own opposite.
  by_cases hself : -x = x
  · rw [hself]
  · have hflip := isNegative_neg hM hself
    cases h : x.isNegative with
    | true =>
        rw [h] at hflip
        rw [magnitude_of_isNegative h, magnitude_of_not_isNegative hflip]
    | false =>
        rw [h] at hflip
        rw [magnitude_of_not_isNegative h, magnitude_of_isNegative hflip, neg_neg]

theorem magnitude_eq_iff (hM : M.OddOrTwo) : x.magnitude = y.magnitude ↔ x = y ∨ x = -y := by
  constructor
  · intro h
    -- Each magnitude is the residue or its opposite.
    rcases magnitude_eq_self_or_neg x with hx | hx
    · rcases magnitude_eq_self_or_neg y with hy | hy
      · exact .inl (by rw [← hx, h, hy])
      · exact .inr (by rw [← hx, h, hy])
    · rcases magnitude_eq_self_or_neg y with hy | hy
      · exact .inr (by rw [← hy, ← h, hx, neg_neg])
      · exact .inl (neg_injective (by rw [← hx, h, hy]))
  · rintro (rfl | rfl)
    · rfl
    · exact magnitude_neg hM y

/-! ## Numerals -/

theorem numeral_eq_ofBytes (x : Residue M) : x.numeral = Numeral.ofBytes x.encode := by
  rw [numeral_eq, Numeral.ofBytes_eq, toNat_encode]

end Residue

/-- Equally many bytes are ordered as the numbers that they stand for.  Over an odd modulus a
residue is above its opposite, by the order of the encodings, exactly when it is above the midpoint.
So of a non-zero residue and its opposite one is negative, no magnitude is, and residues have the
same magnitude if they are equal or opposite and not otherwise.  For an odd modulus of one word, and
for two, the order, the sign and the numeral that are read off the representative are those that are
read off the encoding. -/
theorem order_and_sign_of_encoding :
    (∀ a b : List UInt8, a.length = b.length →
      Bytes.compare a b = Ord.compare (Bytes.toNat a) (Bytes.toNat b)) ∧
      (∀ M : Modulus, M.value % 2 = 1 →
        (∀ x : Residue M,
          (x.isAboveOpposite = true ↔ (M.value - 1) / 2 < x.val) ∧
            (x.isNegative = true ↔ (M.value - 1) / 2 < x.val) ∧
            (x ≠ 0 → (-x).isNegative = !x.isNegative) ∧
            x.magnitude.isNegative = false ∧ (-x).magnitude = x.magnitude) ∧
        ∀ x y : Residue M, x.magnitude = y.magnitude ↔ x = y ∨ x = -y) ∧
      ∀ p : ℕ, 2 ≤ p → p < 2 ^ 63 → p % 2 = 1 ∨ p = 2 →
        ∃ M : Modulus, Modulus.word? p = some M ∧ M.value = p ∧
          ∀ x y : Residue M,
            x.compare y = x.compareByValue y ∧ x.compareByValue y = x.compareByEncoding y ∧
              x.isNegative = x.isAboveMidpoint ∧ x.isAboveMidpoint = x.isAboveOpposite ∧
              x.numeral = Numeral.decimal x.val ∧
              Numeral.decimal x.val = Numeral.ofBytes x.encode := by
  refine ⟨fun a b => Bytes.compare_eq, ?_, ?_⟩
  · intro M hodd
    have hM : M.OddOrTwo := .inl hodd
    refine ⟨fun x => ⟨Residue.isAboveOpposite_iff_midpoint_lt hodd, ?_, fun hx => ?_,
      x.isNegative_magnitude hM, x.magnitude_neg hM⟩, fun x y => Residue.magnitude_eq_iff hM⟩
    · rw [x.isNegative_eq_isAboveOpposite hM, Residue.isAboveOpposite_iff_midpoint_lt hodd]
    · exact Residue.isNegative_neg hM (Residue.neg_ne_self_of_odd hodd hx)
  · intro p hlow hhigh hp
    obtain ⟨M, hM, rfl, hwidth⟩ := Modulus.exists_word? hlow hhigh
    refine ⟨M, hM, rfl, fun x y => ?_⟩
    have hsign := Residue.isAboveMidpoint_eq_isAboveOpposite hp x
    have hnumeral : x.numeral = Numeral.decimal x.val := by rw [Residue.numeral, hwidth]
    have hcompare : x.compare y = x.compareByValue y := by rw [Residue.compare, hwidth]
    refine ⟨hcompare, (x.compareByEncoding_eq y).symm, ?_, hsign, hnumeral, ?_⟩
    · rw [x.isNegative_eq_isAboveOpposite hp, hsign]
    · rw [← hnumeral, x.numeral_eq_ofBytes]

/-- Over the Pallas base field `(p + 1) / 2` is just above the midpoint, so it is negative; its
magnitude is not, nor is it the magnitude of one.  The last of the bytes decides their order.  Over
`2 ^ 63 - 25` the largest residue has the same sign, numeral and order with zero by its encoding as
by its representative, and over two the same sign. -/
theorem order_and_sign_of_encoding_pallas :
    let x : Residue Modulus.pallasBase := ⟨(Modulus.pallasBase.value + 1) / 2, by decide⟩
    let p := 2 ^ 63 - 25
    ([0xff, 0] : List UInt8).length = ([0, 1] : List UInt8).length ∧
      Bytes.compare [0xff, 0] [0, 1] = .lt ∧
      Modulus.pallasBase.value % 2 = 1 ∧ x ≠ 0 ∧ x.isAboveOpposite = true ∧
      x.isNegative = true ∧ (-x).isNegative = false ∧ x.magnitude.isNegative = false ∧
      (-x).magnitude = x.magnitude ∧ x.magnitude ≠ (1 : Residue Modulus.pallasBase).magnitude ∧
      2 ≤ p ∧ p < 2 ^ 63 ∧ p % 2 = 1 ∧
      (∃ (M : Modulus) (y : Residue M), Modulus.word? p = some M ∧ y.val = p - 1 ∧
        y.isAboveMidpoint = true ∧ y.isAboveOpposite = true ∧ y.compareByEncoding 0 = .gt ∧
        Numeral.ofBytes y.encode = "9223372036854775782".toList) ∧
      ∃ (M : Modulus) (y : Residue M), Modulus.word? 2 = some M ∧ y.val = 1 ∧
        y.isAboveMidpoint = false ∧ y.isAboveOpposite = false := by
  intro x p
  obtain ⟨hbytes, hodd, hword⟩ := order_and_sign_of_encoding
  obtain ⟨hsigns, hsame⟩ := hodd Modulus.pallasBase (by decide)
  obtain ⟨habove, hnegative, hflip, hmagnitude, hneg⟩ := hsigns x
  have hx : x ≠ 0 := by decide
  have hnegative_self : x.isNegative = true := hnegative.2 (by decide)
  have hnegative_opposite : (-x).isNegative = false := by
    rw [hflip hx, hnegative_self, Bool.not_true]
  have horder : Bytes.compare [0xff, 0] [0, 1] = .lt :=
    (hbytes [0xff, 0] [0, 1] rfl).trans (by decide)
  have hone : x.magnitude ≠ (1 : Residue Modulus.pallasBase).magnitude := by
    rw [ne_eq, hsame]
    decide
  refine ⟨rfl, horder, by decide, hx, habove.2 (by decide), hnegative_self, hnegative_opposite,
    hmagnitude, hneg, hone, by decide, by decide, by decide, ?_, ?_⟩
  · obtain ⟨M, hM, hvalue, hagree⟩ := hword p (by decide) (by decide) (.inl (by decide))
    obtain ⟨y, hy⟩ : ∃ y : Residue M, y.val = p - 1 := ⟨⟨p - 1, by rw [hvalue]; decide⟩, rfl⟩
    obtain ⟨-, horder, -, hsign, -, hnumeral⟩ := hagree y 0
    have hmidpoint : y.isAboveMidpoint = true :=
      Residue.isAboveMidpoint_iff.2 (by rw [hvalue, hy]; decide)
    have hgreater : y.compareByValue 0 = .gt :=
      Nat.compare_eq_gt.2 (by rw [hy, Residue.val_zero]; decide)
    exact ⟨M, y, hM, hy, hmidpoint, hsign.symm.trans hmidpoint, horder.symm.trans hgreater,
      hnumeral.symm.trans (by rw [hy]; decide)⟩
  · obtain ⟨M, hM, hvalue, hagree⟩ := hword 2 (by decide) (by decide) (.inr rfl)
    obtain ⟨y, hy⟩ : ∃ y : Residue M, y.val = 1 := ⟨⟨1, by rw [hvalue]; decide⟩, rfl⟩
    obtain ⟨-, -, -, hsign, -⟩ := hagree y 0
    have hmidpoint : y.isAboveMidpoint = false := by
      rw [← Bool.not_eq_true, Residue.isAboveMidpoint_iff, hvalue]
      exact fun h => Nat.lt_irrefl 2 h.1
    exact ⟨M, y, hM, hy, hmidpoint, hsign.symm.trans hmidpoint⟩

/-- Over four the two ways to tell a negative residue differ: two is above the midpoint, and its own
opposite. -/
example :
    let x : Residue ⟨4, .word, by decide, by decide⟩ := .ofNat 2
    x.isAboveMidpoint = true ∧ x.isAboveOpposite = false := by
  decide

end AffineForms
