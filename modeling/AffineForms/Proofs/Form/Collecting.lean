import AffineForms.Proofs.Form.Meaning

/-!
# Collecting — a list of terms counts through the sum for each variable

There are two ways to collect a list of terms in a map.  `Terms.total` keeps every entry until the
end, and the zeros are dropped then; `Terms.accumulate` removes an entry as soon as it is zero, so
that a later term enters it again.  What the two have in common is that one term changes the
coefficient of its variable by what it adds (`coeffAt_foldl_alter`), and a coefficient does not show
whether a zero is stored.

* `Terms.sumAt` is the sum of the coefficients that a list gives to a variable;
* `Terms.coeffAt_accumulate`, `Terms.coeffAt_total`: the coefficient of a variable grows by its sum,
  whatever the sum passes through on the way;
* `Affine.eq_ofTerms_iff`: a valid value is collected from a list of terms exactly when its
  coefficients are the sums.

The last one leaves nothing of the list but its sums.  The order of the list, its repeats and its
zeros do not show in the result.
-/

namespace AffineForms

variable {M : Modulus}

namespace Terms

/-! ## The sum for a variable -/

/-- The sum of the coefficients that a list of terms gives to a variable. -/
def sumAt (v : Var) (terms : List (Var × Residue M)) : Residue M :=
  ((terms.filter fun e => e.1 = v).map Prod.snd).sum

@[simp] theorem sumAt_nil (v : Var) : sumAt v ([] : List (Var × Residue M)) = 0 := rfl

@[simp] theorem sumAt_cons (v : Var) (e : Var × Residue M) (terms : List (Var × Residue M)) :
    sumAt v (e :: terms) = (if e.1 = v then e.2 else 0) + sumAt v terms := by
  by_cases he : e.1 = v
  · simp [sumAt, he]
  · simp [sumAt, he]

theorem sumAt_append (v : Var) (k l : List (Var × Residue M)) :
    sumAt v (k ++ l) = sumAt v k + sumAt v l := by
  simp [sumAt]

theorem sumAt_eq_of_perm {k l : List (Var × Residue M)} (h : k.Perm l) (v : Var) :
    sumAt v k = sumAt v l :=
  ((h.filter _).map _).sum_eq

theorem sumAt_eq_zero_of_forall {terms : List (Var × Residue M)} (h : ∀ e ∈ terms, e.2 = 0)
    (v : Var) : sumAt v terms = 0 := by
  induction terms with
  | nil => rfl
  | cons e terms ih =>
      rw [sumAt_cons, h e List.mem_cons_self, ih fun d hd => h d (List.mem_cons_of_mem e hd)]
      simp

/-! ## The coefficients of what has been collected -/

variable (terms : Terms M)

/-- A variable has one entry at most, which is then the sum. -/
theorem sumAt_of_ascending {l : List (Var × Residue M)} (hl : l.Pairwise fun a b => a.1 < b.1)
    (v : Var) : sumAt v l = (VarMap.lookup v l).getD 0 := by
  induction l with
  | nil => rfl
  | cons head rest ih =>
      obtain ⟨w, a⟩ := head
      have hhead := (List.pairwise_cons.1 hl).1
      rw [sumAt_cons, ih (List.pairwise_cons.1 hl).2]
      by_cases hvw : v = w
      · subst hvw
        have hnone : VarMap.lookup v rest = none :=
          VarMap.lookup_eq_none_of_forall fun e he => VarMap.ne_of_lt (hhead e he)
        simp [VarMap.lookup, hnone]
      · simp [VarMap.lookup, hvw, Ne.symm hvw]

theorem sumAt_entries (v : Var) : sumAt v terms.entries = terms.coeffAt v :=
  sumAt_of_ascending terms.ascending v

theorem coeffAt_alter (v w : Var) (f : Option (Residue M) → Option (Residue M)) :
    coeffAt (terms.alter v f) w = if w = v then (f (terms.get? v)).getD 0 else terms.coeffAt w := by
  rw [coeffAt, VarMap.get?_alter]
  split
  · rfl
  · rfl

theorem coeffAt_dropZeros (v : Var) : terms.dropZeros.coeffAt v = terms.coeffAt v := by
  rw [coeffAt, coeffAt, dropZeros, VarMap.get?_filter]
  cases terms.get? v with
  | none => rfl
  | some c =>
      by_cases hc : c = 0
      · simp [Option.filter, hc]
      · simp [Option.filter, hc]

/-- Updates that add to the coefficient, whether or not they store a zero, add up to the sum. -/
theorem coeffAt_foldl_alter {f : Residue M → Option (Residue M) → Option (Residue M)}
    (hf : ∀ c stored, (f c stored).getD 0 = stored.getD 0 + c)
    (additions : List (Var × Residue M)) (v : Var) :
    coeffAt (additions.foldl (fun m e => m.alter e.1 (f e.2)) terms) v =
      terms.coeffAt v + sumAt v additions := by
  induction additions generalizing terms with
  | nil => simp
  | cons e rest ih =>
      have hstep : coeffAt (terms.alter e.1 (f e.2)) v =
          terms.coeffAt v + if e.1 = v then e.2 else 0 := by
        rw [coeffAt_alter]
        by_cases hv : v = e.1
        · rw [if_pos hv, hf, hv, if_pos rfl, coeffAt]
        · rw [if_neg hv, if_neg (Ne.symm hv), add_zero]
      rw [List.foldl_cons, ih, hstep, sumAt_cons, add_assoc]

theorem coeffAt_accumulate (additions : List (Var × Residue M)) (v : Var) :
    (accumulate terms additions).coeffAt v = terms.coeffAt v + sumAt v additions :=
  coeffAt_foldl_alter terms getD_addCoefficient additions v

theorem coeffAt_total (additions : List (Var × Residue M)) (v : Var) :
    (total additions).coeffAt v = sumAt v additions := by
  -- A sum is stored even when it is zero, which is then also the coefficient.
  have hsum : ∀ (c : Residue M) (stored : Option (Residue M)),
      (some (stored.getD 0 + c)).getD 0 = stored.getD 0 + c := fun _ _ => rfl
  exact (coeffAt_foldl_alter VarMap.empty hsum additions v).trans (zero_add _)

end Terms

/-! ## Values from lists of terms -/

namespace Affine

variable {r : Affine M} {c : Residue M} {k l : List (Var × Residue M)}

theorem valid_ofTerms (c : Residue M) (l : List (Var × Residue M)) : (ofTerms c l).Valid :=
  valid_collapse (Terms.zeroFree_dropZeros _)

theorem constantTerm_ofTerms (c : Residue M) (l : List (Var × Residue M)) :
    (ofTerms c l).constantTerm = c :=
  constantTerm_collapse c _

theorem coeffAt_ofTerms (c : Residue M) (l : List (Var × Residue M)) (v : Var) :
    (ofTerms c l).terms.coeffAt v = Terms.sumAt v l := by
  rw [ofTerms, ofMap, terms_collapse, Terms.coeffAt_dropZeros, Terms.coeffAt_total]

theorem eq_ofTerms_iff (hr : r.Valid) :
    r = ofTerms c l ↔ r.constantTerm = c ∧ ∀ v, r.terms.coeffAt v = Terms.sumAt v l := by
  constructor
  · rintro rfl
    exact ⟨constantTerm_ofTerms c l, coeffAt_ofTerms c l⟩
  · rintro ⟨hconstant, hcoeff⟩
    have hterms : r.terms = (ofTerms c l).terms := by
      refine Terms.eq_of_coeffAt_eq (zeroFree_terms hr) (zeroFree_terms (valid_ofTerms c l)) ?_
      intro v
      rw [hcoeff, coeffAt_ofTerms]
    rw [← collapse_terms hr, ← collapse_terms (valid_ofTerms c l), hterms, hconstant,
      constantTerm_ofTerms]

theorem ofTerms_congr (c : Residue M) (h : ∀ v, Terms.sumAt v k = Terms.sumAt v l) :
    ofTerms c k = ofTerms c l := by
  refine (eq_ofTerms_iff (valid_ofTerms c k)).2 ⟨constantTerm_ofTerms c k, fun v => ?_⟩
  rw [coeffAt_ofTerms, h]

theorem ofTerms_eq_of_perm (c : Residue M) (h : k.Perm l) : ofTerms c k = ofTerms c l :=
  ofTerms_congr c (Terms.sumAt_eq_of_perm h)

theorem ofTerms_eq_constant_iff : ofTerms c l = .constant c ↔ ∀ v, Terms.sumAt v l = 0 := by
  have hiff := eq_ofTerms_iff (r := .constant c) (c := c) (l := l) trivial
  rw [eq_comm, hiff]
  constructor
  · rintro ⟨-, hzero⟩ v
    exact (hzero v).symm
  · intro hzero
    exact ⟨rfl, fun v => (hzero v).symm⟩

theorem mentions_ofTerms_iff (v : Var) :
    (ofTerms c l).mentions v = true ↔ Terms.sumAt v l ≠ 0 := by
  rw [← Bool.not_eq_false, ← coeffAt_ofTerms c]
  exact (mentions_eq_false_iff (valid_ofTerms c l)).not

end Affine

/-- A value that is collected from a list of terms has the given constant, and for each variable the
sum of its coefficients, if that is not zero; it is the constant when all sums are zero.  So it does
not matter in which order the list is, whether terms with the coefficient zero are in it, and
whether two terms of a variable are given as one.  The terms of a valid form, in any order, give
back the form. -/
theorem ofTerms_determined_by_sums (c : Residue M) (l : List (Var × Residue M)) :
    (Affine.ofTerms c l).Valid ∧ (Affine.ofTerms c l).constantTerm = c ∧
      (∀ v, (Affine.ofTerms c l).mentions v = true ↔ Terms.sumAt v l ≠ 0) ∧
      (∀ v, (Affine.ofTerms c l).terms.get? v =
        if Terms.sumAt v l = 0 then none else some (Terms.sumAt v l)) ∧
      (Affine.ofTerms c l = .constant c ↔ ∀ v, Terms.sumAt v l = 0) ∧
      (∀ k : List (Var × Residue M), k.Perm l → Affine.ofTerms c k = Affine.ofTerms c l) ∧
      (∀ zeros k : List (Var × Residue M), (∀ e ∈ zeros, e.2 = 0) → k.Perm (zeros ++ l) →
        Affine.ofTerms c k = Affine.ofTerms c l) ∧
      (∀ (v : Var) (a b : Residue M) (k rest : List (Var × Residue M)),
        l.Perm ((v, a) :: (v, b) :: rest) → k.Perm ((v, a + b) :: rest) →
          Affine.ofTerms c k = Affine.ofTerms c l) ∧
      ∀ (p : Form M) (k : List (Var × Residue M)), p.Valid → k.Perm p.terms.entries →
        Affine.ofTerms p.constant k = .form p := by
  have hvalid := Affine.valid_ofTerms c l
  refine ⟨hvalid, Affine.constantTerm_ofTerms c l, Affine.mentions_ofTerms_iff, ?_,
    Affine.ofTerms_eq_constant_iff, fun k => Affine.ofTerms_eq_of_perm c, ?_, ?_, ?_⟩
  · intro v
    rw [Terms.get?_eq_coeffAt (Affine.zeroFree_terms hvalid), Affine.coeffAt_ofTerms]
  · intro zeros k hzeros hk
    refine Affine.ofTerms_congr c fun v => ?_
    rw [Terms.sumAt_eq_of_perm hk, Terms.sumAt_append, Terms.sumAt_eq_zero_of_forall hzeros,
      zero_add]
  · intro v a b k rest hl hk
    refine Affine.ofTerms_congr c fun w => ?_
    rw [Terms.sumAt_eq_of_perm hk, Terms.sumAt_eq_of_perm hl]
    by_cases hvw : v = w
    · simp [hvw, add_assoc]
    · simp [hvw]
  · intro p k hp hk
    exact (Affine.ofTerms_eq_of_perm p.constant hk).trans (Affine.ofTerms_terms (r := .form p) hp)

/-- Over seven, a list gives three, four and two to `x1`, whose sum passes through zero, one and six
to `x0`, which cancel, and zero to `x2`.  What is left is `5 + 2·x1`, also from the list reversed,
with a zero of `x3` in front, and with the first two terms of `x1` given as one. -/
theorem ofTerms_determined_by_sums_seven :
    let term (v : Fin 4) (c : ℕ) : Var × Residue Modulus.seven := (exampleVar v, .ofNat c)
    let l := [term 1 3, term 0 1, term 1 4, term 2 0, term 0 6, term 1 2]
    let k := [term 0 1, term 2 0, term 1 (3 + 4), term 0 6, term 1 2]
    let r := Affine.ofTerms (.ofNat 5) l
    r = .form ⟨.ofNat 5, VarMap.singleton (exampleVar 1) (.ofNat 2)⟩ ∧
      r.mentions (exampleVar 0) = false ∧ Terms.sumAt (exampleVar 0) l = 0 ∧
      r.terms.get? (exampleVar 1) = some (Terms.sumAt (exampleVar 1) l) ∧
      Affine.ofTerms (.ofNat 5) l.reverse = r ∧
      (∀ e ∈ [term 3 0], e.2 = 0) ∧ Affine.ofTerms (.ofNat 5) (term 3 0 :: l) = r ∧
      l.Perm (term 1 3 :: term 1 4 :: [term 0 1, term 2 0, term 0 6, term 1 2]) ∧
      Affine.ofTerms (.ofNat 5) k = r ∧
      Form.sample.Valid ∧
      Affine.ofTerms Form.sample.constant Form.sample.terms.entries.reverse =
        .form Form.sample := by
  intro term l k r
  obtain ⟨-, -, hmentions, hget, -, hperm, hzeros, hpair, hform⟩ :=
    ofTerms_determined_by_sums (.ofNat 5) l
  have hcancel : Terms.sumAt (exampleVar 0) l = 0 := by decide
  have habsent : r.mentions (exampleVar 0) = false := by
    rw [← Bool.not_eq_true, hmentions]
    exact not_not_intro hcancel
  have hzero : ∀ e ∈ [term 3 0], e.2 = 0 := by decide
  have hsplit : l.Perm (term 1 3 :: term 1 4 :: [term 0 1, term 2 0, term 0 6, term 1 2]) := by
    decide
  have hjoin : k.Perm ((exampleVar 1, .ofNat 3 + .ofNat 4) ::
      [term 0 1, term 2 0, term 0 6, term 1 2]) := by
    decide
  have hsample : Form.sample.Valid := by decide
  refine ⟨by decide, habsent, hcancel, (hget _).trans (by decide), hperm _ l.reverse_perm, hzero,
    hzeros _ _ hzero (.refl _), hsplit, hpair _ _ _ _ _ hsplit hjoin, hsample, ?_⟩
  exact hform _ _ hsample (List.reverse_perm _)

end AffineForms
