import AffineForms.Proofs.Form.Collecting

/-!
# Accumulating — removing at zero equals summing and then filtering

`Terms.accumulate` removes an entry as soon as its coefficient reaches zero, and a later term enters
it again.  `Terms.sumInto` keeps an entry once it is there, whatever its coefficient.  After each
term the first map is the second one without its zeros (`dropZeros_addTo`), so by induction the two
end alike, however often a variable comes and goes (`accumulate_dropZeros`).

That ties the loop to the way in which values are built from lists of terms.  And since coefficients
determine a map that stores no zero, nothing is left of a list but its sums
(`eq_accumulate_iff`): not its order, and not what the sums pass through.
-/

namespace AffineForms

variable {M : Modulus}

namespace Terms

/-! ## Dropping the zeros at the end -/

/-- Adds a term and keeps its entry, also one that is zero. -/
def addTo (terms : Terms M) (e : Var × Residue M) : Terms M :=
  terms.alter e.1 fun stored => some (stored.getD 0 + e.2)

/-- Adds terms one after the other and keeps every entry. -/
def sumInto (terms : Terms M) (additions : List (Var × Residue M)) : Terms M :=
  additions.foldl addTo terms

theorem total_eq_sumInto (l : List (Var × Residue M)) : total l = sumInto VarMap.empty l := rfl

theorem dropZeros_of_zeroFree {m : Terms M} (hm : m.ZeroFree) : m.dropZeros = m := by
  refine VarMap.ext_entries (List.filter_eq_self.2 fun e he => ?_)
  simpa using hm e he

theorem filter_some_ne_zero (b : Residue M) :
    (some b).filter (fun c => c != 0) = if b = 0 then none else some b := by
  by_cases hb : b = 0
  · simp [Option.filter, hb]
  · simp [Option.filter, hb]

/-- It does not matter whether a stored zero is dropped before the addition or after it. -/
theorem addCoefficient_filter (c : Residue M) (stored : Option (Residue M)) :
    addCoefficient c (stored.filter fun b => b != 0) =
      (some (stored.getD 0 + c)).filter fun b => b != 0 := by
  cases stored with
  | none =>
      rw [Option.filter_none, Option.getD_none, zero_add, filter_some_ne_zero]
      rfl
  | some b =>
      rw [Option.getD_some, filter_some_ne_zero, filter_some_ne_zero]
      by_cases hb : b = 0
      · -- The entry is vacant on the left, where a zero is stored on the right.
        rw [if_pos hb, hb, zero_add]
        rfl
      · rw [if_neg hb]
        rfl

theorem dropZeros_addTo (m : Terms M) (e : Var × Residue M) :
    (m.addTo e).dropZeros = m.dropZeros.alter e.1 (addCoefficient e.2) := by
  refine VarMap.ext_get? fun v => ?_
  rw [addTo, dropZeros, dropZeros, VarMap.get?_filter, VarMap.get?_alter, VarMap.get?_alter,
    VarMap.get?_filter, VarMap.get?_filter]
  split
  · exact (addCoefficient_filter e.2 (m.get? e.1)).symm
  · rfl

theorem accumulate_dropZeros (m : Terms M) (l : List (Var × Residue M)) :
    accumulate m.dropZeros l = (sumInto m l).dropZeros := by
  induction l generalizing m with
  | nil => rfl
  | cons e rest ih =>
      calc
        accumulate m.dropZeros (e :: rest)
            = accumulate (m.dropZeros.alter e.1 (addCoefficient e.2)) rest := rfl
        _ = accumulate (m.addTo e).dropZeros rest := by rw [dropZeros_addTo]
        _ = (sumInto (m.addTo e) rest).dropZeros := ih (m.addTo e)

theorem accumulate_empty (l : List (Var × Residue M)) :
    accumulate VarMap.empty l = (total l).dropZeros := by
  rw [total_eq_sumInto, ← accumulate_dropZeros, dropZeros_of_zeroFree zeroFree_empty]

/-! ## What is left of a list -/

variable {m r : Terms M} {k l : List (Var × Residue M)}

theorem eq_accumulate_iff (hm : m.ZeroFree) :
    r = accumulate m l ↔ r.ZeroFree ∧ ∀ v, r.coeffAt v = m.coeffAt v + sumAt v l := by
  have hfree := zeroFree_accumulate hm l
  constructor
  · rintro rfl
    exact ⟨hfree, m.coeffAt_accumulate l⟩
  · rintro ⟨hr, hcoeff⟩
    refine eq_of_coeffAt_eq hr hfree fun v => ?_
    rw [hcoeff, coeffAt_accumulate]

theorem accumulate_eq_of_perm (hm : m.ZeroFree) (h : k.Perm l) :
    accumulate m k = accumulate m l := by
  refine (eq_accumulate_iff hm).2 ⟨zeroFree_accumulate hm k, fun v => ?_⟩
  rw [coeffAt_accumulate, sumAt_eq_of_perm h]

end Terms

theorem Affine.terms_ofTerms (c : Residue M) (l : List (Var × Residue M)) :
    (ofTerms c l).terms = Terms.accumulate VarMap.empty l := by
  rw [ofTerms, ofMap, terms_collapse, Terms.accumulate_empty]

/-- Terms that are added to a map without stored zeros leave no zero behind, and raise the
coefficient of each variable by its sum; the variables of the result are those whose coefficient is
then not zero.  The result is the same in every order of the terms, and the same if every entry is
kept until the end, where the zeros are dropped.  From the empty map it has the terms of the value
that is built from the list. -/
theorem removal_agrees_with_filtering (m : Terms M) (hm : m.ZeroFree) (l : List (Var × Residue M)) :
    (Terms.accumulate m l).ZeroFree ∧
      (∀ v, (Terms.accumulate m l).coeffAt v = m.coeffAt v + Terms.sumAt v l) ∧
      (∀ v, (Terms.accumulate m l).contains v = true ↔ m.coeffAt v + Terms.sumAt v l ≠ 0) ∧
      (∀ k : List (Var × Residue M), k.Perm l → Terms.accumulate m k = Terms.accumulate m l) ∧
      Terms.accumulate m l = (m.sumInto l).dropZeros ∧
      Terms.accumulate VarMap.empty l = (Terms.total l).dropZeros ∧
      ∀ c, (Affine.ofTerms c l).terms = Terms.accumulate VarMap.empty l := by
  have hfree := Terms.zeroFree_accumulate hm l
  refine ⟨hfree, m.coeffAt_accumulate l, fun v => ?_, fun k => Terms.accumulate_eq_of_perm hm, ?_,
    Terms.accumulate_empty l, fun c => Affine.terms_ofTerms c l⟩
  · rw [← Terms.coeffAt_accumulate, ← Bool.not_eq_false, Terms.contains_eq_false_iff hfree]
  · rw [← Terms.accumulate_dropZeros, Terms.dropZeros_of_zeroFree hm]

/-- Over seven, the entry of `x0` is cancelled, entered, cancelled and entered again; that of `x1`,
not in the map at first, comes and goes; a zero is added to `x2`, and `x3` is left alone.  If every
entry is kept, there are four of them at the end, two without a coefficient. -/
theorem removal_agrees_with_filtering_seven :
    let term (v : Fin 4) (c : ℕ) : Var × Residue Modulus.seven := (exampleVar v, .ofNat c)
    let m : Terms Modulus.seven := ⟨[term 0 3, term 3 1], by decide⟩
    let l := [term 0 4, term 1 5, term 0 2, term 2 0, term 0 5, term 1 2, term 0 6]
    let r : Terms Modulus.seven := ⟨[term 0 6, term 3 1], by decide⟩
    m.ZeroFree ∧ Terms.accumulate m l = r ∧ r.ZeroFree ∧ (m.sumInto l).size = 4 ∧
      (m.sumInto l).dropZeros = r ∧ Terms.accumulate m l.reverse = r ∧
      r.contains (exampleVar 1) = false ∧
      r.coeffAt (exampleVar 0) = m.coeffAt (exampleVar 0) + Terms.sumAt (exampleVar 0) l ∧
      (Affine.ofTerms (.ofNat 5) l).terms = VarMap.singleton (exampleVar 0) (.ofNat 3) := by
  intro term m l r
  have hm : m.ZeroFree := by decide
  have hr : Terms.accumulate m l = r := by decide
  obtain ⟨hfree, hcoeff, hcontains, hperm, hfilter, -, hvalue⟩ :=
    removal_agrees_with_filtering m hm l
  have habsent : (Terms.accumulate m l).contains (exampleVar 1) = false := by
    rw [← Bool.not_eq_true, hcontains]
    exact not_not_intro (by decide)
  rw [hr] at hfree hcoeff habsent hfilter
  exact ⟨hm, hr, hfree, by decide, hfilter.symm, (hperm _ l.reverse_perm).trans hr, habsent,
    hcoeff _, (hvalue _).trans (by decide)⟩

end AffineForms
