import Mathlib.Tactic.Ring
import AffineForms.Proofs.Form.Runs

/-!
# Evaluation — the operations on forms are the operations on their values

Evaluating a form folds over its terms in the order of their variables, while the operations merge
maps, cancel terms and collapse.  Both sides meet in `Assignment.weigh`, the weighted sum of a list
of terms, in which an unbound variable counts as zero:

* `eval_eq` writes the value of a form as its constant plus the weighted sum of its terms;
* every update of a map goes through `VarMap.alter`, which changes the weighted sum by the change of
  one coefficient (`Terms.weigh_alter`), so `Terms.weigh_accumulate` holds whatever cancels on the
  way.

`Form.exists_add`, `Form.exists_sub` and `Form.exists_erase` say of the operations that may fail
that they answer a valid value, and which function it is.  `eval_homomorphism` puts all operations
together.
-/

namespace AffineForms

/-! ## Weighted sums -/

namespace Assignment

variable {M : Modulus} (s : Assignment M)

/-- The value of a variable, where an unbound variable counts as zero. -/
def read (v : Var) : Residue M := (s v).getD 0

/-- The sum of `coefficient · value` over a list of terms. -/
def weigh (terms : List (Var × Residue M)) : Residue M :=
  (terms.map fun e => e.2 * s.read e.1).sum

@[simp] theorem weigh_nil : s.weigh [] = 0 := rfl

@[simp] theorem weigh_cons (e : Var × Residue M) (terms : List (Var × Residue M)) :
    s.weigh (e :: terms) = e.2 * s.read e.1 + s.weigh terms :=
  List.sum_cons

theorem weigh_map_mul (terms : List (Var × Residue M)) (k : Residue M) :
    s.weigh (terms.map fun e => (e.1, e.2 * k)) = s.weigh terms * k := by
  induction terms with
  | nil => simp
  | cons e terms ih =>
      simp only [List.map_cons, weigh_cons, ih]
      ring

theorem weigh_filter_ne_zero (terms : List (Var × Residue M)) :
    s.weigh (terms.filter fun e => e.2 != 0) = s.weigh terms := by
  induction terms with
  | nil => rfl
  | cons e terms ih =>
      by_cases he : e.2 = 0
      · simp [he, ih]
      · simp [he, ih]

theorem weigh_consOption (v : Var) (c : Option (Residue M)) (rest : List (Var × Residue M)) :
    s.weigh (VarMap.consOption v c rest) = c.getD 0 * s.read v + s.weigh rest := by
  cases c with
  | none => simp [VarMap.consOption]
  | some a => simp [VarMap.consOption]

/-- Altering one entry of an ascending list changes the weighted sum by the change of that entry. -/
theorem weigh_alterEntries (v : Var) (f : Option (Residue M) → Option (Residue M))
    {terms : List (Var × Residue M)} (hterms : terms.Pairwise fun a b => a.1 < b.1) :
    s.weigh (VarMap.alterEntries v f terms) =
      s.weigh terms +
        ((f (VarMap.lookup v terms)).getD 0 - (VarMap.lookup v terms).getD 0) * s.read v := by
  induction terms with
  | nil =>
      rw [VarMap.alterEntries, weigh_consOption]
      simp [VarMap.lookup]
  | cons head rest ih =>
      obtain ⟨w, a⟩ := head
      have hhead := (List.pairwise_cons.1 hterms).1
      have hrest := ih (List.pairwise_cons.1 hterms).2
      unfold VarMap.alterEntries
      split
      · rename_i hlt
        -- Every entry lies beyond `v`, which has none.
        have hnone : VarMap.lookup v ((w, a) :: rest) = none := by
          refine VarMap.lookup_eq_none_of_forall fun e he => VarMap.ne_of_lt ?_
          rcases List.mem_cons.1 he with rfl | he
          · exact hlt
          · exact Var.lt_trans hlt (hhead e he)
        rw [weigh_consOption, hnone]
        simp only [Option.getD_none]
        ring
      · split
        · rename_i heq
          subst heq
          rw [weigh_consOption, weigh_cons]
          simp only [VarMap.lookup, if_pos, Option.getD_some]
          ring
        · rename_i hne
          rw [weigh_cons, weigh_cons, hrest]
          simp only [VarMap.lookup, if_neg hne]
          ring

end Assignment

namespace Terms

variable {M : Modulus} (s : Assignment M) (terms : Terms M)

/-- The coefficient of a variable, which is zero where the variable does not occur. -/
def coeffAt (v : Var) : Residue M := (terms.get? v).getD 0

theorem weigh_empty : s.weigh (VarMap.empty : Terms M).entries = 0 := rfl

theorem weigh_alter (v : Var) (f : Option (Residue M) → Option (Residue M)) :
    s.weigh (terms.alter v f).entries =
      s.weigh terms.entries + ((f (terms.get? v)).getD 0 - terms.coeffAt v) * s.read v :=
  s.weigh_alterEntries v f terms.ascending

theorem weigh_erase (v : Var) :
    s.weigh (terms.erase v).entries = s.weigh terms.entries - terms.coeffAt v * s.read v := by
  rw [VarMap.erase, weigh_alter]
  simp only [Option.getD_none]
  ring

theorem weigh_mapValues_mul (k : Residue M) :
    s.weigh (terms.mapValues fun c => c * k).entries = s.weigh terms.entries * k :=
  s.weigh_map_mul terms.entries k

theorem weigh_mapValues_neg :
    s.weigh (terms.mapValues fun c => -c).entries = -s.weigh terms.entries := by
  have hneg : (fun c : Residue M => -c) = fun c => c * -1 := by
    funext c
    ring
  rw [hneg, weigh_mapValues_mul]
  ring

theorem weigh_dropZeros : s.weigh terms.dropZeros.entries = s.weigh terms.entries :=
  s.weigh_filter_ne_zero terms.entries

/-! ### Accumulated terms -/

theorem getD_addCoefficient (c : Residue M) (stored : Option (Residue M)) :
    (addCoefficient c stored).getD 0 = stored.getD 0 + c := by
  cases stored with
  | none =>
      by_cases hc : c = 0
      · simp [addCoefficient, hc]
      · simp [addCoefficient, hc]
  | some b =>
      by_cases hsum : b + c = 0
      · simp [addCoefficient, hsum]
      · simp [addCoefficient, hsum]

/-- Updates that add to the coefficient, whether or not they store a zero, add up to the weight of
the additions. -/
theorem weigh_foldl_alter {f : Residue M → Option (Residue M) → Option (Residue M)}
    (hf : ∀ c stored, (f c stored).getD 0 = stored.getD 0 + c)
    (additions : List (Var × Residue M)) :
    s.weigh (additions.foldl (fun m e => m.alter e.1 (f e.2)) terms).entries =
      s.weigh terms.entries + s.weigh additions := by
  induction additions generalizing terms with
  | nil => simp
  | cons e rest ih =>
      have hstep : s.weigh (terms.alter e.1 (f e.2)).entries =
          s.weigh terms.entries + e.2 * s.read e.1 := by
        rw [weigh_alter, hf, coeffAt]
        ring
      rw [List.foldl_cons, ih, hstep, Assignment.weigh_cons, add_assoc]

theorem weigh_accumulate (additions : List (Var × Residue M)) :
    s.weigh (accumulate terms additions).entries = s.weigh terms.entries + s.weigh additions :=
  weigh_foldl_alter s terms getD_addCoefficient additions

theorem weigh_total (additions : List (Var × Residue M)) :
    s.weigh (total additions).entries = s.weigh additions := by
  -- A sum is stored even when it is zero, and then weighs nothing.
  have hsum : ∀ (c : Residue M) (stored : Option (Residue M)),
      (some (stored.getD 0 + c)).getD 0 = stored.getD 0 + c := fun _ _ => rfl
  exact (weigh_foldl_alter s VarMap.empty hsum additions).trans (zero_add _)

theorem weigh_add (a b : Terms M) :
    s.weigh (a.add b).entries = s.weigh a.entries + s.weigh b.entries := by
  unfold add
  split
  · exact weigh_accumulate s a b.entries
  · rw [weigh_accumulate]
    ring

end Terms

/-! ## Values -/

namespace Form

variable {M : Modulus}

theorem foldl_filterMap_eq (s : Assignment M) (terms : List (Var × Residue M)) (c : Residue M) :
    (terms.filterMap fun e => (s e.1).map fun x => e.2 * x).foldl (· + ·) c =
      c + s.weigh terms := by
  induction terms generalizing c with
  | nil => simp
  | cons e terms ih =>
      cases hs : s e.1 with
      | none => simp [hs, ih, Assignment.read]
      | some x =>
          simp only [List.filterMap_cons, hs, Option.map_some, List.foldl_cons, ih,
            Assignment.weigh_cons, Assignment.read, Option.getD_some]
          ring

theorem eval_eq (p : Form M) (s : Assignment M) :
    p.eval s = p.constant + s.weigh p.terms.entries :=
  foldl_filterMap_eq s p.terms.entries p.constant

theorem eval_neg (p : Form M) (s : Assignment M) : p.neg.eval s = -p.eval s := by
  rw [eval_eq, eval_eq, neg, Terms.weigh_mapValues_neg]
  ring

theorem eval_shift (p : Form M) (delta : Residue M) (s : Assignment M) :
    (p.shift delta).eval s = p.eval s + delta := by
  rw [eval_eq, eval_eq, shift]
  ring

end Form

namespace Affine

variable {M : Modulus}

theorem eval_collapse (c : Residue M) (terms : Terms M) (s : Assignment M) :
    (collapse c terms).eval s = c + s.weigh terms.entries := by
  unfold collapse
  split
  · rename_i hempty
    have hnil : terms.entries = [] := List.isEmpty_iff.1 hempty
    simp [eval, hnil]
  · exact Form.eval_eq ⟨c, terms⟩ s

theorem eval_ofTerms (c : Residue M) (terms : List (Var × Residue M)) (s : Assignment M) :
    (ofTerms c terms).eval s = c + s.weigh terms := by
  rw [ofTerms, ofMap, eval_collapse, Terms.weigh_dropZeros, Terms.weigh_total]

end Affine

/-! ## Operations that may collapse -/

namespace Form

variable {M : Modulus} {p q : Form M}

theorem eval_scale (p : Form M) (factor : Residue M) (s : Assignment M) :
    (p.scale factor).eval s = p.eval s * factor := by
  unfold scale
  split
  · rename_i hzero
    simp [Affine.eval, hzero]
  · rw [Affine.eval, eval_eq, eval_eq, Terms.weigh_mapValues_mul]
    ring

theorem exists_assemble {terms : Terms M} (h : terms.ZeroFree) (c : Residue M) :
    ∃ r, Affine.assemble c terms = .ok r ∧ r.Valid ∧
      ∀ s : Assignment M, r.eval s = c + s.weigh terms.entries :=
  ⟨Affine.collapse c terms, Affine.assemble_eq_ok h, Affine.valid_collapse h,
    Affine.eval_collapse c terms⟩

theorem exists_add (hp : p.Valid) (hq : q.Valid) :
    ∃ r, p.add q = .ok r ∧ r.Valid ∧ ∀ s, r.eval s = p.eval s + q.eval s := by
  obtain ⟨r, hr, hvalid, heval⟩ :=
    exists_assemble (Terms.zeroFree_add hp.2 hq.2) (p.constant + q.constant)
  refine ⟨r, hr, hvalid, fun s => ?_⟩
  rw [heval, Terms.weigh_add, eval_eq, eval_eq]
  ring

theorem exists_sub (hp : p.Valid) (hq : q.Valid) :
    ∃ r, p.sub q = .ok r ∧ r.Valid ∧ ∀ s, r.eval s = p.eval s - q.eval s := by
  obtain ⟨r, hr, hvalid, heval⟩ := exists_add hp (valid_neg hq)
  refine ⟨r, hr, hvalid, fun s => ?_⟩
  rw [heval, eval_neg]
  ring

theorem exists_erase (hp : p.Valid) (v : Var) :
    ∃ r, p.erase v = .ok r ∧ r.Valid ∧
      ∀ s, r.eval s = p.eval s - p.terms.coeffAt v * s.read v := by
  obtain ⟨r, hr, hvalid, heval⟩ := exists_assemble (Terms.zeroFree_erase hp.2 v) p.constant
  refine ⟨r, hr, hvalid, fun s => ?_⟩
  rw [heval, Terms.weigh_erase, eval_eq]
  ring

end Form

/-- Over every modulus each operation on forms is the operation of the same name on their values,
whether or not the result collapses.  The assignment may be partial; an unbound variable counts as
zero, and so does the coefficient of a variable that does not occur. -/
theorem eval_homomorphism {M : Modulus} {p q : Form M} (hp : p.Valid) (hq : q.Valid)
    (s : Assignment M) :
    (∃ r, p.add q = .ok r ∧ r.eval s = p.eval s + q.eval s) ∧
      (∃ r, p.sub q = .ok r ∧ r.eval s = p.eval s - q.eval s) ∧
      p.neg.eval s = -p.eval s ∧
      (∀ factor, (p.scale factor).eval s = p.eval s * factor) ∧
      (∀ delta, (p.shift delta).eval s = p.eval s + delta) ∧
      (∀ v, ∃ r, p.erase v = .ok r ∧ r.eval s = p.eval s - p.terms.coeffAt v * s.read v) ∧
      ∀ (c : Residue M) (terms : List (Var × Residue M)),
        (Affine.ofTerms c terms).eval s = c + (terms.map fun e => e.2 * s.read e.1).sum := by
  obtain ⟨sum, hsum, -, heval_sum⟩ := Form.exists_add hp hq
  obtain ⟨difference, hdifference, -, heval_difference⟩ := Form.exists_sub hp hq
  refine ⟨⟨sum, hsum, heval_sum s⟩, ⟨difference, hdifference, heval_difference s⟩, p.eval_neg s,
    fun factor => p.eval_scale factor s, fun delta => p.eval_shift delta s, ?_, ?_⟩
  · intro v
    obtain ⟨rest, hrest, -, heval_rest⟩ := Form.exists_erase hp v
    exact ⟨rest, hrest, heval_rest s⟩
  · intro c terms
    exact Affine.eval_ofTerms c terms s

/-- Over fifteen: the sum of a form and its negation collapses, and scaling `3·x0 + x1` by five
stores a zero.  Both evaluate as they should where `x1` is unbound. -/
theorem eval_homomorphism_fifteen :
    let five : Residue Modulus.fifteen := ⟨5, by decide⟩
    let s := Assignment.ofMap (VarMap.singleton (exampleVar 0) ⟨2, by decide⟩)
    threeAndOne.Valid ∧ threeAndOne.neg.Valid ∧ ¬ (threeAndOne.scale five).Valid ∧
      (∃ r, threeAndOne.add threeAndOne.neg = .ok r ∧
        r.eval s = threeAndOne.eval s + threeAndOne.neg.eval s) ∧
      (threeAndOne.scale five).eval s = threeAndOne.eval s * five := by
  intro five s
  have hp : threeAndOne.Valid := by decide
  have hq : threeAndOne.neg.Valid := by decide
  obtain ⟨hsum, -, -, hscale, -⟩ := eval_homomorphism hp hq s
  exact ⟨hp, hq, by decide, hsum, hscale five⟩

end AffineForms
