import AffineForms.Constraints

/-!
# Deduplication — the survivors are among the given forms

`Constraints.dropRepeats` and `Constraints.keepFirsts` answer sublists of what they are given, and
the sort answers a permutation of it, so every survivor of `Constraints.dedup` was given.
-/

namespace AffineForms
namespace Constraints

variable {M : Modulus}

theorem dropRepeats_sublist (kept : Form M) (forms : List (Form M)) :
    (dropRepeats kept forms).Sublist forms := by
  induction forms generalizing kept with
  | nil => exact List.Sublist.refl []
  | cons p ps ih =>
      unfold dropRepeats
      split
      · exact (ih kept).cons p
      · exact (ih p).cons_cons p

theorem keepFirsts_sublist (forms : List (Form M)) : (keepFirsts forms).Sublist forms := by
  cases forms with
  | nil => exact List.Sublist.refl []
  | cons p ps => exact (dropRepeats_sublist p ps).cons_cons p

theorem mem_of_mem_dedup {forms : List (Form M)} {p : Form M} (h : p ∈ dedup forms) : p ∈ forms :=
  List.mem_mergeSort.1 ((keepFirsts_sublist (sort forms)).subset h)

end Constraints
end AffineForms
