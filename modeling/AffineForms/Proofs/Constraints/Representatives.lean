import AffineForms.Proofs.Constraints.Dedup
import AffineForms.Proofs.Form.Evaluation
import AffineForms.Proofs.Form.SortKey

/-!
# Representatives — deduplication keeps the first form of each sign class

Deduplication compares neighbours only, so it relies on the sort to bring the forms of one sign
class together and to keep them in the order in which they were given:

* the sort is stable, so it does not change the list of the forms of a class (`filter_sort`);
* the first form of a class is never dropped (`find?_keepFirsts`), and among sorted forms all others
  of the class are (`pairwise_lt_keepFirsts`).

So the survivors are the forms that come first in their class (`mem_dedup_iff`), in strictly
ascending order.  `dedup_keeps_first_of_class` adds that no constraint is lost.
-/

namespace AffineForms

variable {M : Modulus}

namespace Form

variable {p q : Form M}

theorem compare_eq_eq_iff_sameConstraint (hM : M.OddOrTwo) (hp : p.Valid) (hq : q.Valid) :
    p.compare q = .eq ↔ p.sameConstraint q = true :=
  compare_eq_eq_iff.trans (sameConstraint_iff_normalize hM hp hq).symm

theorem compare_eq_lt_of_isLE (hM : M.OddOrTwo) (hp : p.Valid) (hq : q.Valid)
    (hle : (p.compare q).isLE) (hdifferent : ¬ p.sameConstraint q = true) : p.compare q = .lt := by
  rw [← compare_eq_eq_iff_sameConstraint hM hp hq] at hdifferent
  cases hcompare : p.compare q with
  | lt => rfl
  | eq => exact absurd hcompare hdifferent
  | gt => simp [hcompare] at hle

theorem eval_eq_zero_iff_of_sameConstraint (h : p.sameConstraint q = true) (s : Assignment M) :
    p.eval s = 0 ↔ q.eval s = 0 := by
  rcases (sameConstraint_iff p q).1 h with rfl | rfl
  · exact Iff.rfl
  · rw [eval_neg, neg_eq_zero]

end Form

namespace Constraints

/-! ## Sorting -/

theorem compare_ne_gt_eq (p q : Form M) : (p.compare q != .gt) = (p.compare q).isLE := by
  cases p.compare q <;> rfl

theorem compare_ne_gt_trans (p q r : Form M) (hpq : (p.compare q != .gt) = true)
    (hqr : (q.compare r != .gt) = true) : (p.compare r != .gt) = true := by
  rw [compare_ne_gt_eq] at *
  exact Std.TransCmp.isLE_trans hpq hqr

theorem compare_ne_gt_total (p q : Form M) :
    (p.compare q != .gt || q.compare p != .gt) = true := by
  have hswap : q.compare p = (p.compare q).swap := Std.OrientedCmp.eq_swap
  rw [hswap]
  cases p.compare q <;> rfl

theorem pairwise_sort (forms : List (Form M)) :
    (sort forms).Pairwise fun p q => (p.compare q).isLE := by
  have hsorted := List.pairwise_mergeSort compare_ne_gt_trans compare_ne_gt_total forms
  exact hsorted.imp fun h => by rwa [compare_ne_gt_eq] at h

theorem mem_sort {forms : List (Form M)} {p : Form M} : p ∈ sort forms ↔ p ∈ forms :=
  List.mem_mergeSort

/-- Sorting does not rearrange forms that compare equal. -/
theorem filter_sort {keep : Form M → Bool} {forms : List (Form M)}
    (h : ∀ p ∈ forms, ∀ q ∈ forms, keep p = true → keep q = true → p.compare q = .eq) :
    (sort forms).filter keep = forms.filter keep := by
  have hsorted : (forms.filter keep).Pairwise fun p q => (p.compare q != .gt) = true := by
    refine List.pairwise_of_forall_mem_list fun p hp q hq => ?_
    have hp := List.mem_filter.1 hp
    have hq := List.mem_filter.1 hq
    rw [h p hp.1 q hq.1 hp.2 hq.2]
    rfl
  have hsublist : (forms.filter keep).Sublist (sort forms) :=
    List.sublist_mergeSort compare_ne_gt_trans compare_ne_gt_total hsorted List.filter_sublist
  have hfilter : (forms.filter keep).Sublist ((sort forms).filter keep) := by
    simpa using hsublist.filter keep
  have hlength : (forms.filter keep).length = ((sort forms).filter keep).length :=
    ((List.mergeSort_perm forms _).filter keep).length_eq.symm
  exact (hfilter.eq_of_length hlength).symm

/-! ## Dropping repeats -/

section Dropping

variable {chosen : Form M → Bool}

/-- A property of sign classes is met first by the same form as before, since each form that is
dropped follows one of its class that is kept. -/
theorem find?_cons_dropRepeats
    (hchosen : ∀ p q : Form M, p.sameConstraint q = true → chosen p = chosen q) (kept : Form M)
    (forms : List (Form M)) :
    (kept :: dropRepeats kept forms).find? chosen = (kept :: forms).find? chosen := by
  induction forms generalizing kept with
  | nil => rfl
  | cons p ps ih =>
      unfold dropRepeats
      split
      · rename_i hsame
        rw [ih kept, List.find?_cons, List.find?_cons, List.find?_cons, hchosen p kept hsame]
        cases chosen kept <;> rfl
      · rw [List.find?_cons, ih p, ← List.find?_cons]

theorem find?_keepFirsts
    (hchosen : ∀ p q : Form M, p.sameConstraint q = true → chosen p = chosen q)
    (forms : List (Form M)) : (keepFirsts forms).find? chosen = forms.find? chosen := by
  cases forms with
  | nil => rfl
  | cons p ps => exact find?_cons_dropRepeats hchosen p ps

theorem exists_mem_of_find?_eq {kept forms : List (Form M)} {p : Form M}
    (h : kept.find? (·.sameConstraint p) = forms.find? (·.sameConstraint p)) (hp : p ∈ forms) :
    ∃ q ∈ kept, p.sameConstraint q = true := by
  have hfound : (forms.find? (·.sameConstraint p)).isSome :=
    List.find?_isSome.2 ⟨p, hp, Form.sameConstraint_refl p⟩
  rw [← h] at hfound
  obtain ⟨q, hq, hsame⟩ := List.find?_isSome.1 hfound
  exact ⟨q, hq, by rwa [Form.sameConstraint_comm]⟩

/-- Over every modulus, and whatever the order of the forms, a form is dropped only next to one of
its class that is kept. -/
theorem exists_mem_keepFirsts {forms : List (Form M)} {p : Form M} (hp : p ∈ forms) :
    ∃ q ∈ keepFirsts forms, p.sameConstraint q = true :=
  exists_mem_of_find?_eq
    (find?_keepFirsts (fun _ _ h => Form.sameConstraint_congr h p) forms) hp

/-- Among sorted forms, whatever is kept is strictly above all that was kept before. -/
theorem pairwise_lt_cons_dropRepeats (hM : M.OddOrTwo) {kept : Form M} {forms : List (Form M)}
    (hvalid : ∀ p ∈ kept :: forms, p.Valid)
    (hsorted : (kept :: forms).Pairwise fun p q => (p.compare q).isLE) :
    (kept :: dropRepeats kept forms).Pairwise fun p q => p.compare q = .lt := by
  induction forms generalizing kept with
  | nil => exact List.pairwise_singleton _ _
  | cons p ps ih =>
      have hbelow := (List.pairwise_cons.1 hsorted).1
      have hrest := (List.pairwise_cons.1 hsorted).2
      unfold dropRepeats
      split
      · -- The repeat is left out, and the others are sorted and valid without it.
        have hskip : (kept :: ps).Sublist (kept :: p :: ps) :=
          (List.sublist_cons_self p ps).cons_cons _
        exact ih (fun q hq => hvalid q (hskip.subset hq)) (hsorted.sublist hskip)
      · rename_i hdifferent
        rw [Form.sameConstraint_comm] at hdifferent
        have hlt : kept.compare p = .lt :=
          Form.compare_eq_lt_of_isLE hM (hvalid kept List.mem_cons_self)
            (hvalid p (List.mem_cons_of_mem _ List.mem_cons_self)) (hbelow p List.mem_cons_self)
            hdifferent
        refine List.pairwise_cons.2
          ⟨fun q hq => ?_, ih (fun q hq => hvalid q (List.mem_cons_of_mem _ hq)) hrest⟩
        rcases List.mem_cons.1 hq with rfl | hq
        · exact hlt
        · have hle := (List.pairwise_cons.1 hrest).1 q ((dropRepeats_sublist p ps).subset hq)
          exact Std.TransCmp.lt_of_lt_of_isLE hlt hle

theorem pairwise_lt_keepFirsts (hM : M.OddOrTwo) {forms : List (Form M)}
    (hvalid : ∀ p ∈ forms, p.Valid)
    (hsorted : forms.Pairwise fun p q => (p.compare q).isLE) :
    (keepFirsts forms).Pairwise fun p q => p.compare q = .lt := by
  cases forms with
  | nil => exact List.Pairwise.nil
  | cons p ps => exact pairwise_lt_cons_dropRepeats hM hvalid hsorted

end Dropping

/-! ## Lists without repeats -/

section Different

variable {forms : List (Form M)} {p q : Form M}

theorem find?_eq_some_of_pairwise (h : forms.Pairwise fun p q => p.sameConstraint q = false)
    (hp : p ∈ forms) : forms.find? (·.sameConstraint p) = some p := by
  induction h with
  | nil => cases hp
  | @cons r rs hhead _ ih =>
      rcases List.mem_cons.1 hp with rfl | hp
      · rw [List.find?_cons, Form.sameConstraint_refl]
      · rw [List.find?_cons, hhead p hp, ih hp]

theorem countP_eq_one_of_pairwise (h : forms.Pairwise fun p q => p.sameConstraint q = false)
    (hq : q ∈ forms) (hpq : p.sameConstraint q = true) :
    forms.countP (p.sameConstraint ·) = 1 := by
  induction h with
  | nil => cases hq
  | @cons r rs hhead _ ih =>
      rcases List.mem_cons.1 hq with rfl | hq
      · have hnone : rs.countP (p.sameConstraint ·) = 0 := by
          refine List.countP_eq_zero.2 fun x hx => ?_
          rw [Form.sameConstraint_congr hpq, hhead x hx]
          exact Bool.false_ne_true
        rw [List.countP_cons_of_pos hpq, hnone]
      · have hr : ¬ p.sameConstraint r = true := by
          rw [Form.sameConstraint_congr hpq, Form.sameConstraint_comm, hhead q hq]
          exact Bool.false_ne_true
        rw [List.countP_cons_of_neg hr, ih hq]

end Different

/-! ## Survivors -/

section Survivors

variable {forms : List (Form M)} {p : Form M} (hM : M.OddOrTwo) (hforms : ∀ p ∈ forms, p.Valid)

include hM hforms

theorem pairwise_lt_dedup : (dedup forms).Pairwise fun p q => p.compare q = .lt :=
  pairwise_lt_keepFirsts hM (fun p hp => hforms p (mem_sort.1 hp)) (pairwise_sort forms)

theorem pairwise_different_dedup :
    (dedup forms).Pairwise fun p q => p.sameConstraint q = false := by
  refine (pairwise_lt_dedup hM hforms).imp_of_mem fun {p q} hp hq hlt => ?_
  have hp := hforms p (mem_of_mem_dedup hp)
  have hq := hforms q (mem_of_mem_dedup hq)
  rw [← Bool.not_eq_true, ← Form.compare_eq_eq_iff_sameConstraint hM hp hq, hlt]
  decide

/-- The first form of a class survives: neither the sort nor the removal of repeats puts another
one of the class in front of it. -/
theorem find?_dedup (q : Form M) :
    (dedup forms).find? (·.sameConstraint q) = forms.find? (·.sameConstraint q) := by
  have hclass : ∀ p r : Form M, p.sameConstraint r = true →
      p.sameConstraint q = r.sameConstraint q := fun p r h => Form.sameConstraint_congr h q
  have hequal : ∀ p ∈ forms, ∀ r ∈ forms, p.sameConstraint q = true → r.sameConstraint q = true →
      p.compare r = .eq := by
    intro p hp r hr hpq hrq
    rw [Form.compare_eq_eq_iff_sameConstraint hM (hforms p hp) (hforms r hr),
      Form.sameConstraint_congr hpq, Form.sameConstraint_comm]
    exact hrq
  rw [dedup, find?_keepFirsts hclass, ← List.head?_filter, filter_sort hequal, List.head?_filter]

theorem mem_dedup_iff : p ∈ dedup forms ↔ forms.find? (·.sameConstraint p) = some p := by
  rw [← find?_dedup hM hforms]
  exact ⟨find?_eq_some_of_pairwise (pairwise_different_dedup hM hforms), List.mem_of_find?_eq_some⟩

/-- Every given form is in the class of some survivor. -/
theorem exists_mem_dedup (hp : p ∈ forms) : ∃ q ∈ dedup forms, p.sameConstraint q = true :=
  exists_mem_of_find?_eq (find?_dedup hM hforms p) hp

theorem countP_dedup (hp : p ∈ forms) : (dedup forms).countP (p.sameConstraint ·) = 1 := by
  obtain ⟨q, hq, hsame⟩ := exists_mem_dedup hM hforms hp
  exact countP_eq_one_of_pairwise (pairwise_different_dedup hM hforms) hq hsame

theorem eval_dedup_eq_zero_iff (s : Assignment M) :
    (∀ c ∈ eval forms s, c = 0) ↔ ∀ c ∈ eval (dedup forms) s, c = 0 := by
  simp only [eval, List.forall_mem_map]
  constructor
  · intro h p hp
    exact h p (mem_of_mem_dedup hp)
  · intro h p hp
    obtain ⟨q, hq, hsame⟩ := exists_mem_dedup hM hforms hp
    exact (Form.eval_eq_zero_iff_of_sameConstraint hsame s).2 (h q hq)

end Survivors

/-- Deduplication answers the forms that come first in their sign class, as they were given, in
strictly ascending order.  Every given form is in the class of exactly one of them, so the same
assignments satisfy the survivors as satisfied the given forms. -/
theorem dedup_keeps_first_of_class (hM : M.OddOrTwo) {forms : List (Form M)}
    (hforms : ∀ p ∈ forms, p.Valid) :
    (dedup forms).Pairwise (fun p q => p.compare q = .lt) ∧
      (dedup forms).Pairwise (fun p q => p.sameConstraint q = false) ∧
      (∀ p, p ∈ dedup forms ↔ forms.find? (·.sameConstraint p) = some p) ∧
      (∀ p ∈ forms, (dedup forms).countP (p.sameConstraint ·) = 1) ∧
      ∀ s, (∀ c ∈ eval forms s, c = 0) ↔ ∀ c ∈ eval (dedup forms) s, c = 0 :=
  ⟨pairwise_lt_dedup hM hforms, pairwise_different_dedup hM hforms,
    fun _ => mem_dedup_iff hM hforms, fun _ => countP_dedup hM hforms,
    eval_dedup_eq_zero_iff hM hforms⟩

/-- The negation of the sample is given before the sample, so it is the one that survives. -/
theorem dedup_keeps_first_of_class_sample :
    let x : Form Modulus.seven := .ofVar ⟨5, by decide⟩
    let forms := [Form.sample.neg, x, Form.sample, x.neg]
    Modulus.seven.OddOrTwo ∧ (∀ p ∈ forms, p.Valid) ∧ Form.sample.neg ∈ dedup forms ∧
      Form.sample ∉ dedup forms ∧ (dedup forms).countP (Form.sample.sameConstraint ·) = 1 := by
  intro x forms
  have hM : Modulus.seven.OddOrTwo := by decide
  have hforms : ∀ p ∈ forms, p.Valid := by decide
  obtain ⟨-, -, hmem, hcount, -⟩ := dedup_keeps_first_of_class hM hforms
  refine ⟨hM, hforms, (hmem _).2 (by decide), ?_, hcount _ (by decide)⟩
  rw [hmem]
  decide

end Constraints
end AffineForms
