import AffineForms.Proofs.Constraints.Representatives
import AffineForms.Proofs.Form.Binding

/-!
# Simplification — one round of known values on a system of constraints

A round assigns the known values to every form of a system.  Some forms collapse to constants, which
have to be zero; the others remain, and deduplication keeps one of each sign class.

* `Constraints.assign_eq_ok` says that the round answers, form by form, what `Form.assigned` says;
* `Constraints.forall_eval_iff` splits the answers into the constants and the forms that remain.

`simplification_round` concludes that under the known values neither a solution is lost nor one is
invented, and that a second round with the same values finds nothing to do.
-/

namespace AffineForms
namespace Constraints

variable {M : Modulus}

/-! ## The answers of a round -/

theorem mapM_eq_ok {α β ε : Type} {f : α → Except ε β} {g : α → β} {xs : List α}
    (h : ∀ x ∈ xs, f x = .ok (g x)) : xs.mapM f = .ok (xs.map g) := by
  induction xs with
  | nil => rfl
  | cons x xs ih =>
      have hhead := h x List.mem_cons_self
      have htail := ih fun y hy => h y (List.mem_cons_of_mem x hy)
      simp [List.mapM_cons, hhead, htail, bind, Except.bind, pure, Except.pure]

theorem assign_eq_ok {forms : List (Form M)} (hforms : ∀ p ∈ forms, p.Valid)
    (bindings : Assignment M) :
    assign forms bindings = .ok (forms.map fun p => p.assigned bindings) :=
  mapM_eq_ok fun p hp => Form.assign_eq_ok_assigned (hforms p hp) bindings

/-- The constants that forms collapsed to. -/
def constants (results : List (Affine M × Bool)) : List (Residue M) :=
  results.filterMap fun e => e.1.constant?

/-- The forms that remain. -/
def remaining (results : List (Affine M × Bool)) : List (Form M) :=
  results.filterMap fun e => e.1.form?

theorem mem_remaining_iff {results : List (Affine M × Bool)} {p : Form M} :
    p ∈ remaining results ↔ ∃ e ∈ results, e.1 = .form p := by
  have hform : ∀ r : Affine M, r.form? = some p ↔ r = .form p := by
    intro r
    cases r with
    | constant c => simp [Affine.form?]
    | form q => simp [Affine.form?]
  simp only [remaining, List.mem_filterMap, hform]

/-- All answers are zero when the constants are, and the forms that remain are. -/
theorem forall_eval_iff (results : List (Affine M × Bool)) (s : Assignment M) :
    (∀ e ∈ results, e.1.eval s = 0) ↔
      (∀ c ∈ constants results, c = 0) ∧ ∀ c ∈ eval (remaining results) s, c = 0 := by
  simp only [eval, List.forall_mem_map]
  induction results with
  | nil => simp [constants, remaining]
  | cons e results ih =>
      obtain ⟨r, flag⟩ := e
      rw [List.forall_mem_cons, ih]
      cases r with
      | constant c =>
          simp only [constants, remaining, List.filterMap_cons, Affine.constant?, Affine.form?,
            Affine.eval, List.forall_mem_cons]
          exact and_assoc.symm
      | form p =>
          simp only [constants, remaining, List.filterMap_cons, Affine.constant?, Affine.form?,
            Affine.eval, List.forall_mem_cons]
          exact and_left_comm

/-! ## What a round keeps -/

section Round

variable {forms : List (Form M)} (hforms : ∀ p ∈ forms, p.Valid) (bindings : Assignment M)

include hforms

theorem valid_of_mem_remaining {p : Form M}
    (hp : p ∈ remaining (forms.map fun p => p.assigned bindings)) : p.Valid := by
  obtain ⟨e, he, hvalue⟩ := mem_remaining_iff.1 hp
  obtain ⟨q, hq, rfl⟩ := List.mem_map.1 he
  have hvalid := Form.valid_assigned (hforms q hq) bindings
  rwa [hvalue] at hvalid

theorem eval_eq_zero_iff_assigned {s : Assignment M} (hs : s.Extends bindings) :
    (∀ c ∈ eval forms s, c = 0) ↔
      ∀ e ∈ forms.map fun p => p.assigned bindings, e.1.eval s = 0 := by
  simp only [eval, List.forall_mem_map]
  refine forall₂_congr fun p hp => ?_
  rw [Form.eval_assigned (hforms p hp), Assignment.orElse_eq_of_extends hs]

omit hforms in
theorem eq_none_of_mentions_remaining {p : Form M}
    (hp : p ∈ remaining (forms.map fun p => p.assigned bindings)) {v : Var}
    (hv : p.mentions v = true) : bindings v = none := by
  obtain ⟨e, he, hvalue⟩ := mem_remaining_iff.1 hp
  obtain ⟨q, -, rfl⟩ := List.mem_map.1 he
  exact Form.eq_none_of_mentions_assigned hvalue hv

/-- A second round with the same values changes nothing in the forms that remain. -/
theorem assign_of_subset_remaining {kept : List (Form M)}
    (hkept : kept ⊆ remaining (forms.map fun p => p.assigned bindings)) :
    assign kept bindings = .ok (kept.map fun p => (.form p, false)) :=
  mapM_eq_ok fun p hp => by
    have hvalid := valid_of_mem_remaining hforms bindings (hkept hp)
    rw [Form.assign_eq_ok_assigned hvalid, Form.assigned_of_unbound hvalid]
    exact fun v hv => eq_none_of_mentions_remaining bindings (hkept hp) hv

end Round

/-- A round of known values answers for every system of valid forms.  Under an assignment with these
values the forms vanish exactly when all constants are zero and the deduplicated forms that remain
vanish.  What remains mentions no variable with a known value, so another round with the same values
raises no flag and leaves all of it as it is, before and after the deduplication. -/
theorem simplification_round (hM : M.OddOrTwo) {forms : List (Form M)}
    (hforms : ∀ p ∈ forms, p.Valid) (bindings : Assignment M) :
    ∃ results, assign forms bindings = .ok results ∧
      (∀ s : Assignment M, s.Extends bindings →
        ((∀ c ∈ eval forms s, c = 0) ↔
          (∀ c ∈ constants results, c = 0) ∧
            ∀ c ∈ eval (dedup (remaining results)) s, c = 0)) ∧
      (∀ p ∈ remaining results, ∀ v, p.mentions v = true → bindings v = none) ∧
      dedup (remaining results) ⊆ remaining results ∧
      ∀ kept ⊆ remaining results,
        assign kept bindings = .ok (kept.map fun p => (.form p, false)) := by
  refine ⟨_, assign_eq_ok hforms bindings, fun s hs => ?_,
    fun p hp v => eq_none_of_mentions_remaining bindings hp,
    fun p => mem_of_mem_dedup, fun kept => assign_of_subset_remaining hforms bindings⟩
  have hremaining : ∀ p ∈ remaining (forms.map fun p => p.assigned bindings), p.Valid :=
    fun p => valid_of_mem_remaining hforms bindings
  rw [eval_eq_zero_iff_assigned hforms bindings hs, forall_eval_iff,
    eval_dedup_eq_zero_iff hM hremaining]

/-- With `x0` one, the sample `3 + x0 - 2·x2` becomes the negation of `3 + 2·x2`, so one of the two
is dropped, and `1 - x0` collapses to zero. -/
theorem simplification_round_sample :
    let double : Form Modulus.seven :=
      ⟨⟨3, by decide⟩, VarMap.singleton (exampleVar 2) ⟨2, by decide⟩⟩
    let forms := [Form.sample, double, .pin (exampleVar 0) 1]
    let bindings := Assignment.ofMap (VarMap.singleton (exampleVar 0) (1 : Residue Modulus.seven))
    let s := Assignment.ofList [1, 0, (⟨2, by decide⟩ : Residue Modulus.seven)]
    Modulus.seven.OddOrTwo ∧ (∀ p ∈ forms, p.Valid) ∧ s.Extends bindings ∧
      ∃ results, assign forms bindings = .ok results ∧ constants results = [0] ∧
        remaining results = [double.neg, double] ∧
        (∀ c ∈ eval (dedup [double.neg, double]) s, c = 0) ∧
        assign (dedup [double.neg, double]) bindings =
          .ok ((dedup [double.neg, double]).map fun p => (.form p, false)) := by
  intro double forms bindings s
  have hM : Modulus.seven.OddOrTwo := by decide
  have hforms : ∀ p ∈ forms, p.Valid := by decide
  have hs : s.Extends bindings := by
    intro v x hv
    have hvar : v = exampleVar 0 ∧ 1 = x := by
      simpa [bindings, Assignment.ofMap, VarMap.get?_singleton] using hv
    rw [hvar.1, ← hvar.2]
    rfl
  obtain ⟨results, hresults, hsolutions, -, hsubset, hagain⟩ :=
    simplification_round hM hforms bindings
  have hvalues : results = [(.form double.neg, true), (.form double, false), (.constant 0, true)] :=
    Except.ok.inj (hresults.symm.trans (by decide))
  have hconstants : constants results = [0] := by rw [hvalues]; rfl
  have hremaining : remaining results = [double.neg, double] := by rw [hvalues]; rfl
  have hzero := ((hsolutions s hs).1 (by decide)).2
  have hround := hagain _ hsubset
  rw [hremaining] at hzero hround
  exact ⟨hM, hforms, hs, results, hresults, hconstants, hremaining, hzero, hround⟩

end Constraints
end AffineForms
