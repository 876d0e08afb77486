import Mathlib.Data.List.TFAE
import AffineForms.Proofs.Form.Evaluation
import AffineForms.Proofs.Form.SignClass

/-!
# Meaning — a value in canonical shape is determined by what it evaluates to

A valid value has one shape for each function that it computes.  The constant term is the value
where every variable reads zero, and the coefficient of a variable is what is added when that
variable reads one instead.  A `Probe` is a choice of such assignments, among the maps
(`Probe.ofMaps`) or among the lists (`Probe.ofLists`).

* `Affine.eval_update` says how a value changes with one variable;
* `Affine.eq_of_eval_eq`: valid values that agree on a probe are equal;
* `canonical_form_complete` draws the consequences for equality, encodings, constants and sign
  classes.

No multiplication is undone here, so zero divisors do no harm; and only the values zero and one are
given to variables, so neither does a modulus of two.
-/

namespace AffineForms

/-! ## Assignments that differ in one variable -/

namespace Assignment

variable {M : Modulus} {s t : Assignment M}

theorem weigh_of_read_eq_zero (hs : ∀ v, s.read v = 0) (terms : List (Var × Residue M)) :
    s.weigh terms = 0 := by
  induction terms with
  | nil => rfl
  | cons e terms ih => simp [hs, ih]

theorem weigh_update {v : Var} (hst : ∀ w, w ≠ v → t.read w = s.read w)
    {terms : List (Var × Residue M)} (hterms : terms.Pairwise fun a b => a.1 < b.1) :
    t.weigh terms =
      s.weigh terms + (VarMap.lookup v terms).getD 0 * (t.read v - s.read v) := by
  induction terms with
  | nil => simp [VarMap.lookup]
  | cons head rest ih =>
      obtain ⟨w, a⟩ := head
      have hhead := (List.pairwise_cons.1 hterms).1
      have hrest := ih (List.pairwise_cons.1 hterms).2
      rw [weigh_cons, weigh_cons, hrest]
      by_cases hvw : v = w
      · subst hvw
        -- The variable occurs once, so the remaining terms weigh the same.
        have hnone : VarMap.lookup v rest = none :=
          VarMap.lookup_eq_none_of_forall fun e he => VarMap.ne_of_lt (hhead e he)
        simp only [hnone, VarMap.lookup, if_pos, Option.getD_none, Option.getD_some]
        ring
      · simp only [VarMap.lookup, if_neg hvw, hst w (Ne.symm hvw)]
        ring

end Assignment

/-- Assignments that tell affine values apart: one where every variable reads zero, and for each
variable one where this variable alone reads one. -/
structure Probe (M : Modulus) where
  origin : Assignment M
  unit : Var → Assignment M
  read_origin : ∀ w, origin.read w = 0
  read_unit : ∀ v w, (unit v).read w = if w = v then 1 else 0

namespace Probe

variable {M : Modulus}

def ofMaps : Probe M where
  origin := .ofMap VarMap.empty
  unit v := .ofMap (VarMap.singleton v 1)
  read_origin _ := rfl
  read_unit v w := by
    rw [Assignment.read, Assignment.ofMap, VarMap.get?_singleton]
    split <;> rfl

def ofLists : Probe M where
  origin := .ofList []
  unit v := .ofList (List.replicate v.index 0 ++ [1])
  read_origin _ := rfl
  read_unit v w := by
    rw [Assignment.read, Assignment.ofList]
    rcases Nat.lt_trichotomy w.index v.index with hlt | heq | hgt
    · have hne : w ≠ v := fun h => Nat.ne_of_lt hlt (Var.ext_iff.1 h)
      simp [hne, hlt, List.getElem?_append_left]
    · simp [Var.ext heq]
    · have hne : w ≠ v := fun h => Nat.ne_of_gt hgt (Var.ext_iff.1 h)
      have hlength : (List.replicate v.index (0 : Residue M) ++ [1]).length ≤ w.index := by
        simpa using hgt
      rw [List.getElem?_eq_none hlength, if_neg hne, Option.getD_none]

end Probe

/-! ## The parts of a value -/

namespace Terms

variable {M : Modulus} {a b : Terms M}

/-- A map that stores no zero can be looked up through its coefficients. -/
theorem get?_eq_coeffAt (ha : a.ZeroFree) (v : Var) :
    a.get? v = if a.coeffAt v = 0 then none else some (a.coeffAt v) := by
  have hne := zeroFree_iff.1 ha v
  rw [coeffAt]
  cases hget : a.get? v with
  | none => simp
  | some c =>
      have hc : c ≠ 0 := fun hzero => hne (by rw [hget, hzero])
      simp [hc]

theorem coeffAt_of_contains_eq_false {v : Var} (h : a.contains v = false) : a.coeffAt v = 0 := by
  have hnone : a.get? v = none := by simpa [VarMap.contains] using h
  rw [coeffAt, hnone, Option.getD_none]

theorem contains_eq_false_iff (ha : a.ZeroFree) {v : Var} :
    a.contains v = false ↔ a.coeffAt v = 0 := by
  refine ⟨coeffAt_of_contains_eq_false, fun hzero => ?_⟩
  rw [VarMap.contains, get?_eq_coeffAt ha, if_pos hzero, Option.isSome_none]

theorem eq_of_coeffAt_eq (ha : a.ZeroFree) (hb : b.ZeroFree)
    (h : ∀ v, a.coeffAt v = b.coeffAt v) : a = b := by
  refine VarMap.ext_get? fun v => ?_
  rw [get?_eq_coeffAt ha, get?_eq_coeffAt hb, h v]

end Terms

namespace Affine

variable {M : Modulus} {r r₁ r₂ : Affine M}

/-- The terms of a value; a constant has none. -/
def terms : Affine M → Terms M
  | constant _ => VarMap.empty
  | form p => p.terms

def mentions (r : Affine M) (v : Var) : Bool := r.terms.contains v

theorem zeroFree_terms (h : r.Valid) : r.terms.ZeroFree := by
  cases r with
  | constant c => exact Terms.zeroFree_empty
  | form p => exact h.2

theorem terms_collapse (c : Residue M) (terms : Terms M) :
    (collapse c terms).terms = terms := by
  unfold collapse
  split
  · rename_i hempty
    have hnil : terms.entries = [] := List.isEmpty_iff.1 hempty
    exact VarMap.ext_entries hnil.symm
  · rfl

theorem constantTerm_collapse (c : Residue M) (terms : Terms M) :
    (collapse c terms).constantTerm = c := by
  unfold collapse
  split
  · rfl
  · rfl

/-- A valid value is put together from its constant term and its terms. -/
theorem collapse_terms (h : r.Valid) : collapse r.constantTerm r.terms = r := by
  cases r with
  | constant c => rfl
  | form p => exact collapse_of_ne_nil h.1

theorem eval_eq (r : Affine M) (s : Assignment M) :
    r.eval s = r.constantTerm + s.weigh r.terms.entries := by
  cases r with
  | constant c => simp [eval, constantTerm, terms, Terms.weigh_empty]
  | form p => exact p.eval_eq s

theorem mentions_eq_false_iff (h : r.Valid) {v : Var} :
    r.mentions v = false ↔ r.terms.coeffAt v = 0 :=
  Terms.contains_eq_false_iff (zeroFree_terms h)

theorem encode_inj (h : r₁.encode = r₂.encode) : r₁ = r₂ := by
  cases r₁ with
  | constant c =>
      cases r₂ with
      | constant d => exact congrArg constant (Residue.encode_inj.1 (List.cons.inj h).2)
      | form q => exact absurd (List.cons.inj h).1 (by decide)
  | form p =>
      cases r₂ with
      | constant d => exact absurd (List.cons.inj h).1 (by decide)
      | form q => exact congrArg form (Form.encode_inj (List.cons.inj h).2)

/-! ## Reading the parts off the values -/

theorem eval_update {s t : Assignment M} {v : Var} (hst : ∀ w, w ≠ v → t.read w = s.read w)
    (r : Affine M) : r.eval t = r.eval s + r.terms.coeffAt v * (t.read v - s.read v) := by
  rw [eval_eq, eval_eq, Assignment.weigh_update hst r.terms.ascending, Terms.coeffAt, VarMap.get?]
  ring

theorem constantTerm_eq_eval (probe : Probe M) (r : Affine M) :
    r.constantTerm = r.eval probe.origin := by
  rw [eval_eq, Assignment.weigh_of_read_eq_zero probe.read_origin, add_zero]

theorem coeffAt_eq_eval (probe : Probe M) (r : Affine M) (v : Var) :
    r.terms.coeffAt v = r.eval (probe.unit v) - r.eval probe.origin := by
  have hst : ∀ w, w ≠ v → (probe.unit v).read w = probe.origin.read w := by
    intro w hw
    rw [probe.read_unit, probe.read_origin, if_neg hw]
  rw [eval_update hst, probe.read_unit, probe.read_origin, if_pos rfl]
  ring

theorem eq_of_eval_eq (probe : Probe M) (h₁ : r₁.Valid) (h₂ : r₂.Valid)
    (horigin : r₁.eval probe.origin = r₂.eval probe.origin)
    (hunit : ∀ v, r₁.eval (probe.unit v) = r₂.eval (probe.unit v)) : r₁ = r₂ := by
  have hconstant : r₁.constantTerm = r₂.constantTerm := by
    rw [constantTerm_eq_eval probe, constantTerm_eq_eval probe, horigin]
  have hterms : r₁.terms = r₂.terms := by
    refine Terms.eq_of_coeffAt_eq (zeroFree_terms h₁) (zeroFree_terms h₂) fun v => ?_
    rw [coeffAt_eq_eval probe, coeffAt_eq_eval probe, horigin, hunit]
  rw [← collapse_terms h₁, ← collapse_terms h₂, hconstant, hterms]

theorem eq_of_forall_eval_eq (h₁ : r₁.Valid) (h₂ : r₂.Valid)
    (h : ∀ s : Assignment M, r₁.eval s = r₂.eval s) : r₁ = r₂ :=
  eq_of_eval_eq Probe.ofMaps h₁ h₂ (h _) fun _ => h _

/-- A valid value is also rebuilt from a list of its terms. -/
theorem ofTerms_terms (h : r.Valid) : ofTerms r.constantTerm r.terms.entries = r := by
  refine eq_of_forall_eval_eq (valid_collapse (Terms.zeroFree_dropZeros _)) h fun s => ?_
  rw [eval_eq r s]
  exact eval_ofTerms _ _ s

end Affine

namespace Form

variable {M : Modulus} {p q : Form M}

theorem coeffAt_eq_eval (probe : Probe M) (p : Form M) (v : Var) :
    p.terms.coeffAt v = p.eval (probe.unit v) - p.eval probe.origin :=
  Affine.coeffAt_eq_eval probe (.form p) v

theorem eq_of_forall_eval_eq (hp : p.Valid) (hq : q.Valid)
    (h : ∀ s : Assignment M, p.eval s = q.eval s) : p = q :=
  Affine.form.inj (Affine.eq_of_forall_eval_eq hp hq h)

end Form

/-! ## Completeness -/

/-- Valid values that evaluate alike everywhere are the same value, with the same encoding; it is
enough that they evaluate alike under all maps, or under all lists of values.  So the constants are
the values that evaluate alike everywhere, and two valid forms state the same constraint exactly
when the functions that they compute are equal or opposite. -/
theorem canonical_form_complete (M : Modulus) :
    (∀ r₁ r₂ : Affine M, r₁.Valid → r₂.Valid →
      [r₁ = r₂, r₁.encode = r₂.encode, ∀ s : Assignment M, r₁.eval s = r₂.eval s,
        ∀ m : Terms M, r₁.eval (.ofMap m) = r₂.eval (.ofMap m),
        ∀ values : List (Residue M), r₁.eval (.ofList values) = r₂.eval (.ofList values)].TFAE) ∧
      (∀ (r : Affine M) (c : Residue M), r.Valid → (r = .constant c ↔ ∀ s, r.eval s = c)) ∧
      ∀ p q : Form M, p.Valid → q.Valid →
        (p.sameConstraint q = true ↔
          (∀ s, p.eval s = q.eval s) ∨ ∀ s, p.eval s = -q.eval s) := by
  refine ⟨?_, ?_, ?_⟩
  · intro r₁ r₂ h₁ h₂
    tfae_have 1 → 2 := congrArg Affine.encode
    tfae_have 2 → 3 := fun h s => by rw [Affine.encode_inj h]
    tfae_have 3 → 4 := fun h m => h (.ofMap m)
    tfae_have 4 → 1 := fun h => Affine.eq_of_eval_eq Probe.ofMaps h₁ h₂ (h _) fun _ => h _
    tfae_have 3 → 5 := fun h values => h (.ofList values)
    tfae_have 5 → 1 := fun h => Affine.eq_of_eval_eq Probe.ofLists h₁ h₂ (h _) fun _ => h _
    tfae_finish
  · intro r c hr
    constructor
    · rintro rfl s
      rfl
    · intro h
      exact Affine.eq_of_forall_eval_eq hr trivial h
  · intro p q hp hq
    rw [Form.sameConstraint_iff]
    refine or_congr ⟨?_, Form.eq_of_forall_eval_eq hp hq⟩ ⟨?_, ?_⟩
    · rintro rfl s
      rfl
    · rintro rfl s
      exact q.eval_neg s
    · intro h
      refine Form.eq_of_forall_eval_eq hp (Form.valid_neg hq) fun s => ?_
      rw [h s, q.eval_neg s]

theorem canonical_form_complete_sample :
    Form.sample.Valid ∧ Form.sample.neg.Valid ∧
      ¬ (∀ m, Form.sample.eval (.ofMap m) = Form.sample.neg.eval (.ofMap m)) ∧
      ¬ (∃ c, ∀ s, Form.sample.eval s = c) ∧
      ((∀ s, Form.sample.neg.eval s = Form.sample.eval s) ∨
        ∀ s, Form.sample.neg.eval s = -Form.sample.eval s) := by
  have hp : Form.sample.Valid := by decide
  have hq : Form.sample.neg.Valid := by decide
  obtain ⟨hequal, hconstant, hsame⟩ := canonical_form_complete Modulus.seven
  have htfae := hequal (.form Form.sample) (.form Form.sample.neg) hp hq
  refine ⟨hp, hq, ?_, ?_, (hsame _ _ hq hp).1 (by decide)⟩
  · intro h
    exact absurd ((htfae.out 0 3).2 h) (by decide)
  · rintro ⟨c, hc⟩
    have hform : Affine.form Form.sample = .constant c :=
      (hconstant (.form Form.sample) c hp).2 hc
    cases hform

end AffineForms
