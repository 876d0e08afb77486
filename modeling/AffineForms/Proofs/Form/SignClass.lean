import AffineForms.Proofs.Residue.Signs
import AffineForms.Form.Order
import AffineForms.VarMap.Lemmas

/-!
# Sign classes — a form and its negation

Two forms state the same constraint when they are equal or opposite (`sameConstraint_iff`).  Over an
odd modulus, and over two, the normal form picks one form of each such class:

* `normalize_eq` writes the normal form as the form under its own sign;
* `normalize_neg`: a valid form and its negation have the same normal form;
* `sameConstraint_iff_normalize`: forms state the same constraint exactly when their normal forms
  are equal.

Validity is needed because the sign is read off the first coefficient: there has to be one, and it
must not be its own opposite by being zero.
-/

namespace AffineForms
namespace Form

variable {M : Modulus} {p q : Form M}

/-! ## Negation -/

theorem neg_neg (p : Form M) : p.neg.neg = p := by
  apply ext
  · simp [neg]
  · simp [neg, VarMap.mapValues, Function.comp_def]

theorem neg_eq_self_of_two (hM : M.value = 2) (p : Form M) : p.neg = p := by
  apply ext
  · exact Residue.neg_eq_self_of_two hM p.constant
  · simp [neg, VarMap.mapValues, Residue.neg_eq_self_of_two hM]

@[simp] theorem size_neg (p : Form M) : p.neg.size = p.size :=
  VarMap.size_mapValues _

/-! ## Normal forms -/

theorem normalize_eq (p : Form M) :
    p.normalize = ⟨signed p.isFlipped p.constant, p.terms.mapValues (signed p.isFlipped)⟩ := by
  unfold normalize
  cases p.isFlipped with
  | true => rfl
  | false =>
      apply ext
      · rfl
      · simp [signed, VarMap.mapValues]

@[simp] theorem size_normalize (p : Form M) : p.normalize.size = p.size := by
  rw [normalize_eq]
  exact VarMap.size_mapValues _

theorem normalize_eq_self_or_neg (p : Form M) : p.normalize = p ∨ p.normalize = p.neg := by
  unfold normalize
  cases p.isFlipped with
  | true => exact Or.inr rfl
  | false => exact Or.inl rfl

/-- Over an odd modulus exactly one of a form and its negation is flipped. -/
theorem isFlipped_neg (hM : M.value % 2 = 1) (hp : p.Valid) : p.neg.isFlipped = !p.isFlipped := by
  rcases p with ⟨constant, ⟨entries, ascending⟩⟩
  cases entries with
  | nil => exact absurd rfl hp.1
  | cons e rest =>
      -- The sign is that of the leading coefficient, which is not its own opposite.
      have hleading : e.2 ≠ 0 := hp.2 e List.mem_cons_self
      exact Residue.isNegative_neg (Or.inl hM) (Residue.neg_ne_self_of_odd hM hleading)

theorem normalize_neg (hM : M.OddOrTwo) (hp : p.Valid) : p.neg.normalize = p.normalize := by
  rcases hM with hodd | htwo
  · unfold normalize
    rw [isFlipped_neg hodd hp, neg_neg]
    cases p.isFlipped with
    | true => rfl
    | false => rfl
  · rw [neg_eq_self_of_two htwo]

/-! ## Equality of constraints -/

theorem zip_all_opposite_iff {k l : List (Var × Residue M)} (hlen : k.length = l.length) :
    ((k.zip l).all fun (a, b) => a.1 == b.1 && a.2 == -b.2) = true ↔
      k = l.map fun e => (e.1, -e.2) := by
  induction k generalizing l with
  | nil =>
      cases l with
      | nil => simp
      | cons b l => cases hlen
  | cons a k ih =>
      cases l with
      | nil => cases hlen
      | cons b l =>
          have hrest : k.length = l.length := by simpa using hlen
          simp [ih hrest, Prod.ext_iff]

theorem isOppositeOf_iff (p q : Form M) : p.isOppositeOf q = true ↔ p = q.neg := by
  unfold isOppositeOf
  constructor
  · intro h
    simp only [Bool.and_eq_true, beq_iff_eq] at h
    rcases h with ⟨⟨hconstant, hsize⟩, hall⟩
    exact ext hconstant ((zip_all_opposite_iff hsize).1 hall)
  · rintro rfl
    have hsize : q.neg.terms.entries.length = q.terms.entries.length := size_neg q
    have hall := (zip_all_opposite_iff hsize).2 rfl
    simp only [Bool.and_eq_true, beq_iff_eq]
    exact ⟨⟨rfl, hsize⟩, hall⟩

theorem sameConstraint_iff (p q : Form M) : p.sameConstraint q = true ↔ p = q ∨ p = q.neg := by
  have hstructural : (p.constant == q.constant && p.terms == q.terms) = true ↔ p = q := by
    cases p
    cases q
    simp
  rw [sameConstraint, Bool.or_eq_true, hstructural, isOppositeOf_iff]

theorem sameConstraint_refl (p : Form M) : p.sameConstraint p = true :=
  (sameConstraint_iff p p).2 (Or.inl rfl)

/-- Forms of one sign class state the same constraint as a third form, or neither does. -/
theorem sameConstraint_congr (h : p.sameConstraint q = true) (r : Form M) :
    p.sameConstraint r = q.sameConstraint r := by
  rw [Bool.eq_iff_iff, sameConstraint_iff, sameConstraint_iff]
  rcases (sameConstraint_iff p q).1 h with rfl | rfl
  · exact Iff.rfl
  · constructor
    · rintro (h | h)
      · exact Or.inr (by rw [← h, neg_neg])
      · exact Or.inl (by rw [← neg_neg q, h, neg_neg])
    · rintro (h | h)
      · exact Or.inr (by rw [h])
      · exact Or.inl (by rw [h, neg_neg])

theorem sameConstraint_comm (p q : Form M) : p.sameConstraint q = q.sameConstraint p := by
  have hsymm : ∀ {p q : Form M}, p.sameConstraint q = true → q.sameConstraint p = true := by
    intro p q h
    rw [← sameConstraint_congr h, sameConstraint_refl]
  exact Bool.eq_iff_iff.2 ⟨hsymm, hsymm⟩

/-- Each normal form is the form itself or its negation, whatever the modulus. -/
theorem sameConstraint_of_normalize_eq (h : p.normalize = q.normalize) :
    p.sameConstraint q = true := by
  rw [sameConstraint_iff]
  rcases normalize_eq_self_or_neg p with hp' | hp' <;>
    rcases normalize_eq_self_or_neg q with hq' | hq'
  · have hpq : p = q := hp'.symm.trans (h.trans hq')
    exact Or.inl hpq
  · have hpq : p = q.neg := hp'.symm.trans (h.trans hq')
    exact Or.inr hpq
  · have hpq : p.neg = q := hp'.symm.trans (h.trans hq')
    exact Or.inr (by rw [← hpq, neg_neg])
  · have hpq : p.neg = q.neg := hp'.symm.trans (h.trans hq')
    exact Or.inl (by rw [← neg_neg p, hpq, neg_neg])

theorem sameConstraint_iff_normalize (hM : M.OddOrTwo) (hp : p.Valid) (hq : q.Valid) :
    p.sameConstraint q = true ↔ p.normalize = q.normalize := by
  refine ⟨fun h => ?_, sameConstraint_of_normalize_eq⟩
  rcases (sameConstraint_iff p q).1 h with rfl | rfl
  · rfl
  · exact normalize_neg hM hq

end Form
end AffineForms
