import Mathlib.Data.List.Sort
import AffineForms.Proofs.Constraints.Representatives

/-!
# Batches — deduplication in any order, and piece by piece

A strictly ascending list is determined by its members (`eq_of_pairwise_lt`).  A deduplicated list
is strictly ascending in two ways, which answers two questions about the order of the given forms:

* as a list of normal forms it has the normal forms of what was given as its members.  So whatever
  the order, the same constraints are stated in the same places, though the signs may be others
  (`map_normalize_dedup_congr`);
* as a list of forms it has the first of each sign class as its members.  So the very same list
  comes out as long as each class is met first by the same form (`dedup_congr`).  Deduplicating a
  part that comes first keeps that form, so a system can be deduplicated batch by batch
  (`foldl_dedup`).
-/

namespace AffineForms

/-- Strictly ascending lists with the same members are equal. -/
theorem eq_of_pairwise_lt {α : Type} {cmp : α → α → Ordering} [Std.TransCmp cmp] {k l : List α}
    (hk : k.Pairwise fun a b => cmp a b = .lt) (hl : l.Pairwise fun a b => cmp a b = .lt)
    (h : ∀ a, a ∈ k ↔ a ∈ l) : k = l := by
  have hirrefl : Std.Irrefl fun a b => cmp a b = .lt :=
    ⟨fun a ha => by simp [Std.ReflCmp.compare_self] at ha⟩
  have hantisymm : Std.Antisymm fun a b => cmp a b = .lt :=
    ⟨fun a b hab hba => absurd hba (Std.OrientedCmp.not_lt_of_lt hab)⟩
  exact hk.eq_of_mem_iff hl h

namespace Constraints

variable {M : Modulus} {xs ys : List (Form M)}

/-! ## Any order -/

section Order

variable (hM : M.OddOrTwo)

include hM

theorem mem_map_normalize_dedup_iff (hxs : ∀ p ∈ xs, p.Valid) (q : Form M) :
    q ∈ (dedup xs).map Form.normalize ↔ q ∈ xs.map Form.normalize := by
  simp only [List.mem_map]
  constructor
  · rintro ⟨p, hp, rfl⟩
    exact ⟨p, mem_of_mem_dedup hp, rfl⟩
  · rintro ⟨p, hp, rfl⟩
    -- The form itself may be gone, but one with the same normal form was kept.
    obtain ⟨r, hr, hsame⟩ := exists_mem_dedup hM hxs hp
    have hnormal := (Form.sameConstraint_iff_normalize hM (hxs p hp)
      (hxs r (mem_of_mem_dedup hr))).1 hsame
    exact ⟨r, hr, hnormal.symm⟩

theorem pairwise_lt_map_normalize_dedup (hxs : ∀ p ∈ xs, p.Valid) :
    ((dedup xs).map Form.normalize).Pairwise fun p q =>
      compareKeys p.sortKey q.sortKey = .lt := by
  rw [List.pairwise_map]
  exact (pairwise_lt_dedup hM hxs).imp fun {p q} hlt => by rwa [← Form.compare_eq_compareKeys]

/-- Which constraints are stated decides about the deduplicated list, up to the signs in it. -/
theorem map_normalize_dedup_congr (hxs : ∀ p ∈ xs, p.Valid) (hys : ∀ p ∈ ys, p.Valid)
    (h : ∀ q, q ∈ xs.map Form.normalize ↔ q ∈ ys.map Form.normalize) :
    (dedup xs).map Form.normalize = (dedup ys).map Form.normalize := by
  have := transCmp_comap compareKeys (Form.sortKey : Form M → SortKey)
  refine eq_of_pairwise_lt (pairwise_lt_map_normalize_dedup hM hxs)
    (pairwise_lt_map_normalize_dedup hM hys) fun q => ?_
  rw [mem_map_normalize_dedup_iff hM hxs, mem_map_normalize_dedup_iff hM hys, h]

end Order

theorem forall₂_sameConstraint (h : xs.map Form.normalize = ys.map Form.normalize) :
    List.Forall₂ (fun p q => p.sameConstraint q = true) xs ys := by
  have hnormal : List.Forall₂ (· = ·) (xs.map Form.normalize) (ys.map Form.normalize) := by
    rw [List.forall₂_eq_eq_eq, h]
  rw [List.forall₂_map_left_iff, List.forall₂_map_right_iff] at hnormal
  exact hnormal.imp fun _ _ => Form.sameConstraint_of_normalize_eq

/-! ## Piece by piece -/

section Pieces

variable (hM : M.OddOrTwo)

include hM

/-- What comes first in each class decides about the deduplicated list. -/
theorem dedup_congr (hxs : ∀ p ∈ xs, p.Valid) (hys : ∀ p ∈ ys, p.Valid)
    (h : ∀ q, xs.find? (·.sameConstraint q) = ys.find? (·.sameConstraint q)) :
    dedup xs = dedup ys := by
  refine eq_of_pairwise_lt (pairwise_lt_dedup hM hxs) (pairwise_lt_dedup hM hys) fun p => ?_
  rw [mem_dedup_iff hM hxs, mem_dedup_iff hM hys, h]

theorem dedup_append (hxs : ∀ p ∈ xs, p.Valid) (hys : ∀ p ∈ ys, p.Valid) :
    dedup (dedup xs ++ ys) = dedup (xs ++ ys) := by
  refine dedup_congr hM (List.forall_mem_append.2 ⟨fun p hp => hxs p (mem_of_mem_dedup hp), hys⟩)
    (List.forall_mem_append.2 ⟨hxs, hys⟩) fun q => ?_
  rw [List.find?_append, List.find?_append, find?_dedup hM hxs]

theorem dedup_dedup (hxs : ∀ p ∈ xs, p.Valid) : dedup (dedup xs) = dedup xs :=
  dedup_congr hM (fun p hp => hxs p (mem_of_mem_dedup hp)) hxs (find?_dedup hM hxs)

/-- After any number of batches the forms kept so far are those that one deduplication of all
batches would keep. -/
theorem foldl_dedup (hxs : ∀ p ∈ xs, p.Valid) {batches : List (List (Form M))}
    (hbatches : ∀ batch ∈ batches, ∀ p ∈ batch, p.Valid) :
    batches.foldl (fun kept batch => dedup (kept ++ batch)) (dedup xs) =
      dedup (xs ++ batches.flatten) := by
  induction batches generalizing xs with
  | nil => simp
  | cons batch batches ih =>
      obtain ⟨hbatch, hrest⟩ := List.forall_mem_cons.1 hbatches
      rw [List.foldl_cons, dedup_append hM hxs hbatch,
        ih (List.forall_mem_append.2 ⟨hxs, hbatch⟩) hrest, List.flatten_cons, List.append_assoc]

end Pieces

/-- Deduplication does not depend on the order of the given forms, up to signs: the lists have the
same length, state the same constraints in the same places, and have the same encodings in normal
form.  It may be done piece by piece: deduplicating a part that comes first, or every batch together
with what was kept before it, gives the same list with the same signs. -/
theorem dedup_order_and_batches (hM : M.OddOrTwo) :
    (∀ xs ys : List (Form M), (∀ p ∈ xs, p.Valid) → xs.Perm ys →
        (dedup xs).length = (dedup ys).length ∧
          List.Forall₂ (fun p q => p.sameConstraint q = true) (dedup xs) (dedup ys) ∧
          ((dedup xs).map fun p => p.normalize.encode) =
            (dedup ys).map fun p => p.normalize.encode) ∧
      (∀ xs ys : List (Form M), (∀ p ∈ xs, p.Valid) → (∀ p ∈ ys, p.Valid) →
        dedup (xs ++ ys) = dedup (dedup xs ++ ys)) ∧
      (∀ xs : List (Form M), (∀ p ∈ xs, p.Valid) → dedup (dedup xs) = dedup xs) ∧
      ∀ batches : List (List (Form M)), (∀ batch ∈ batches, ∀ p ∈ batch, p.Valid) →
        batches.foldl (fun kept batch => dedup (kept ++ batch)) [] = dedup batches.flatten := by
  refine ⟨fun xs ys hxs hperm => ?_, fun xs ys hxs hys => (dedup_append hM hxs hys).symm,
    fun xs hxs => dedup_dedup hM hxs, fun batches hbatches => ?_⟩
  · have hys : ∀ p ∈ ys, p.Valid := fun p hp => hxs p (hperm.mem_iff.2 hp)
    have hnormal : (dedup xs).map Form.normalize = (dedup ys).map Form.normalize :=
      map_normalize_dedup_congr hM hxs hys fun q => (hperm.map Form.normalize).mem_iff
    have hsame := forall₂_sameConstraint hnormal
    have hencoded := congrArg (List.map Form.encode) hnormal
    rw [List.map_map, List.map_map] at hencoded
    exact ⟨hsame.length_eq, hsame, hencoded⟩
  · have hnone : dedup ([] : List (Form M)) = [] := by simp [dedup, sort, keepFirsts]
    have hvalid : ∀ p ∈ ([] : List (Form M)), p.Valid := by simp
    have hfold := foldl_dedup hM hvalid hbatches
    rwa [hnone, List.nil_append] at hfold

/-- The sample is given in one batch and its negation in the other.  The sign depends on which of
the two comes first; the encodings of the normal forms do not. -/
theorem dedup_order_and_batches_sample :
    let x : Form Modulus.seven := .ofVar ⟨5, by decide⟩
    let xs := [Form.sample.neg, x]
    let ys := [x.neg, Form.sample]
    Modulus.seven.OddOrTwo ∧ (∀ p ∈ xs, p.Valid) ∧ (∀ p ∈ ys, p.Valid) ∧
      (xs ++ ys).Perm (ys ++ xs) ∧ dedup (xs ++ ys) ≠ dedup (ys ++ xs) ∧
      ((dedup (xs ++ ys)).map fun p => p.normalize.encode) =
        ((dedup (ys ++ xs)).map fun p => p.normalize.encode) ∧
      dedup (xs ++ ys) = dedup (dedup xs ++ ys) ∧
      [xs, ys].foldl (fun kept batch => dedup (kept ++ batch)) [] = dedup (xs ++ ys) := by
  intro x xs ys
  have hM : Modulus.seven.OddOrTwo := by decide
  have hxs : ∀ p ∈ xs, p.Valid := by decide
  have hys : ∀ p ∈ ys, p.Valid := by decide
  have hperm : (xs ++ ys).Perm (ys ++ xs) := List.perm_append_comm
  have hvalid : ∀ p ∈ xs ++ ys, p.Valid := List.forall_mem_append.2 ⟨hxs, hys⟩
  obtain ⟨horder, hpieces, -, hbatches⟩ := dedup_order_and_batches hM
  refine ⟨hM, hxs, hys, hperm, fun h => ?_, (horder _ _ hvalid hperm).2.2, hpieces xs ys hxs hys,
    hbatches [xs, ys] (by simpa using ⟨hxs, hys⟩)⟩
  -- The negation survives in the first order only.
  have hfirst : Form.sample.neg ∈ dedup (xs ++ ys) := (mem_dedup_iff hM hvalid).2 (by decide)
  rw [h, mem_dedup_iff hM fun p hp => hvalid p (hperm.mem_iff.2 hp)] at hfirst
  exact absurd hfirst (by decide)

end Constraints
end AffineForms
