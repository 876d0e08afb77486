import AffineForms.Proofs.Form.Collecting

/-!
# Merging — the sum of two maps, whichever of them is copied

`Terms.add` copies the map with more entries and accumulates the entries of the other one, so its
two arguments play different parts.  The coefficients do not show it: each is the sum of the two
coefficients, because one loop adds terms to whatever is stored (`Terms.coeffAt_accumulate`).

Entries show it when zeros are stored.  An addition never leaves a zero behind at the variable that
it meets, so the zeros of the accumulated map vanish, and those of the copied map stay exactly where
no addition comes along (`Terms.get?_accumulate_eq_some_zero_iff`).

Without stored zeros, which is the shape of the maps of valid forms, coefficients determine a map.
Then the sum is the same both ways round (`Terms.add_comm_of_zeroFree`).
-/

namespace AffineForms

variable {M : Modulus}

namespace Terms

/-! ## The parts that the two maps play -/

/-- The map of which a sum is a copy at first: the one with more entries, on a tie the first. -/
def copied (a b : Terms M) : Terms M := if b.size ≤ a.size then a else b

/-- The map whose entries are added to the copy. -/
def accumulated (a b : Terms M) : Terms M := if b.size ≤ a.size then b else a

variable (a b : Terms M) (v : Var)

theorem add_eq_accumulate : a.add b = accumulate (copied a b) (accumulated a b).entries := by
  unfold add copied accumulated
  split
  · rfl
  · rfl

theorem coeffAt_copied_add_accumulated :
    (copied a b).coeffAt v + (accumulated a b).coeffAt v = a.coeffAt v + b.coeffAt v := by
  unfold copied accumulated
  -- The two parts are played by `a` and `b`, or the other way round.
  split
  · rfl
  · exact add_comm _ _

theorem coeffAt_add : (a.add b).coeffAt v = a.coeffAt v + b.coeffAt v := by
  rw [add_eq_accumulate, coeffAt_accumulate, sumAt_entries, coeffAt_copied_add_accumulated]

/-! ## Stored zeros -/

variable (m : Terms M)

/-- A stored zero stays as long as no addition meets it, and none is ever made. -/
theorem get?_accumulate_eq_some_zero_iff (additions : List (Var × Residue M)) :
    (accumulate m additions).get? v = some 0 ↔
      m.get? v = some 0 ∧ ∀ e ∈ additions, e.1 ≠ v := by
  induction additions generalizing m with
  | nil => simp [accumulate]
  | cons e rest ih =>
      have hstep : VarMap.get? (m.alter e.1 (addCoefficient e.2)) v = some 0 ↔
          m.get? v = some 0 ∧ e.1 ≠ v := by
        rw [VarMap.get?_alter]
        by_cases hv : v = e.1
        · simp [hv, addCoefficient_ne_some_zero]
        · simp [hv, Ne.symm hv]
      calc
        (accumulate m (e :: rest)).get? v = some 0
            ↔ VarMap.get? (m.alter e.1 (addCoefficient e.2)) v = some 0 ∧
                ∀ d ∈ rest, d.1 ≠ v := ih _
        _ ↔ m.get? v = some 0 ∧ ∀ d ∈ e :: rest, d.1 ≠ v := by
            rw [hstep, and_assoc, List.forall_mem_cons]

theorem contains_eq_false_iff_forall : m.contains v = false ↔ ∀ e ∈ m.entries, e.1 ≠ v := by
  rw [← Bool.not_eq_true, ← VarMap.mem_keys_iff, VarMap.keys, List.mem_map]
  constructor
  · intro h e he hv
    exact h ⟨e, he, hv⟩
  · rintro h ⟨e, he, hv⟩
    exact h e he hv

theorem get?_add_eq_some_zero_iff :
    (a.add b).get? v = some 0 ↔
      (copied a b).get? v = some 0 ∧ (accumulated a b).contains v = false := by
  rw [add_eq_accumulate, get?_accumulate_eq_some_zero_iff, contains_eq_false_iff_forall]

theorem contains_iff_zero_or_coeffAt :
    m.contains v = true ↔ m.get? v = some 0 ∨ m.coeffAt v ≠ 0 := by
  rw [VarMap.contains, coeffAt]
  cases m.get? v with
  | none => simp
  | some c => simp [eq_or_ne]

theorem contains_add_iff :
    (a.add b).contains v = true ↔
      ((copied a b).get? v = some 0 ∧ (accumulated a b).contains v = false) ∨
        a.coeffAt v + b.coeffAt v ≠ 0 := by
  rw [contains_iff_zero_or_coeffAt, get?_add_eq_some_zero_iff, coeffAt_add]

/-! ## Maps without stored zeros -/

variable {a b}

theorem add_comm_of_zeroFree (ha : a.ZeroFree) (hb : b.ZeroFree) : a.add b = b.add a := by
  refine eq_of_coeffAt_eq (zeroFree_add ha hb) (zeroFree_add hb ha) fun w => ?_
  rw [coeffAt_add, coeffAt_add, add_comm]

end Terms

/-- The sum of any two maps has at each variable the sum of the coefficients, where a variable that
does not occur counts as zero.  It stores a zero exactly where the copied map, which is the larger
one or on a tie the first, stores a zero and the other map has no entry.  All its other variables
are those with a sum that is not zero.  If neither map stores a zero, then neither does the sum, and
it is the same both ways round. -/
theorem merge_pointwise (a b : Terms M) :
    (∀ v, (a.add b).coeffAt v = a.coeffAt v + b.coeffAt v) ∧
      (∀ v, (a.add b).get? v = some 0 ↔
        (a.copied b).get? v = some 0 ∧ (a.accumulated b).contains v = false) ∧
      (∀ v, (a.add b).contains v = true ↔
        ((a.copied b).get? v = some 0 ∧ (a.accumulated b).contains v = false) ∨
          a.coeffAt v + b.coeffAt v ≠ 0) ∧
      (a.ZeroFree → b.ZeroFree → (a.add b).ZeroFree ∧ a.add b = b.add a) :=
  ⟨a.coeffAt_add b, a.get?_add_eq_some_zero_iff b, a.contains_add_iff b, fun ha hb =>
    ⟨Terms.zeroFree_add ha hb, Terms.add_comm_of_zeroFree ha hb⟩⟩

/-- Over seven, `a` stores zeros at `x0` and `x2` and is larger than `b`.  In the sum the zero at
`x0` stays, the terms in `x1` cancel, and `x2` has the coefficient that it has in `b`.  For two maps
of one size that store a zero each, the order of the sum matters; for `c` and `b`, which store none,
it does not. -/
theorem merge_pointwise_seven :
    let x : Fin 4 → Var := exampleVar
    let a : Terms Modulus.seven := ⟨[(x 0, 0), (x 1, .ofNat 3), (x 2, 0)], by decide⟩
    let b : Terms Modulus.seven := ⟨[(x 1, .ofNat 4), (x 2, .ofNat 5)], by decide⟩
    let c : Terms Modulus.seven := ⟨[(x 0, 1), (x 1, .ofNat 3)], by decide⟩
    let zero (n : Fin 4) : Terms Modulus.seven := VarMap.singleton (x n) 0
    a.add b = ⟨[(x 0, 0), (x 2, .ofNat 5)], by decide⟩ ∧
      (a.add b).get? (x 0) = some 0 ∧ (a.add b).contains (x 2) = true ∧
      (a.add b).coeffAt (x 1) = a.coeffAt (x 1) + b.coeffAt (x 1) ∧
      (zero 0).add (zero 1) ≠ (zero 1).add (zero 0) ∧
      c.ZeroFree ∧ b.ZeroFree ∧ (c.add b).ZeroFree ∧ c.add b = b.add c := by
  intro x a b c zero
  obtain ⟨hcoeff, hzero, hcontains, -⟩ := merge_pointwise a b
  obtain ⟨-, -, -, hfree⟩ := merge_pointwise c b
  have hc : c.ZeroFree := by decide
  have hb : b.ZeroFree := by decide
  obtain ⟨hsum, hcomm⟩ := hfree hc hb
  exact ⟨by decide, (hzero (x 0)).2 ⟨by decide, by decide⟩, (hcontains (x 2)).2 (.inr (by decide)),
    hcoeff (x 1), by decide, hc, hb, hsum, hcomm⟩

end AffineForms
