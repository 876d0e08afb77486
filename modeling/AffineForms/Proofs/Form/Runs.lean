import Mathlib.Algebra.GroupWithZero.NonZeroDivisors
import Mathlib.Logic.Relation
import AffineForms.Proofs.Codec.Exact
import AffineForms.Proofs.Constraints.Dedup
import AffineForms.Proofs.Form.ZeroFree
import AffineForms.Proofs.Residue.Ring

/-!
# Runs — the canonical shape survives every sequence of operations

A run starts with nothing and stores one value after the other: values built from given data
(`Step.ofTerms` to `Step.decodeAffine`), results of operations on stored values (`Step.apply`), and
the survivors of a deduplication.  The other forms that an operation takes have to be stored as
well.

The invariant is that all stored values are valid:

* `Operation.keepsShape_apply` is what a single operation preserves, in any ring;
* `Step.valid` is what a step preserves, `Reachable.valid` what a whole run preserves.

Only `Form.scale` needs a condition (`Operation.Regular`): a factor that is a zero divisor may store
zeros.  Substitution multiplies as well, but drops the products that are zero.
-/

namespace AffineForms

/-! ## Outcomes -/

section Outcomes

variable {M : Modulus}

/-- A valid value, or the refusal of some precondition other than the one on zeros. -/
def KeepsShape : Except Fault (Affine M) → Prop
  | .ok r => r.Valid
  | .error fault => fault ≠ .zeroCoefficient

theorem keepsShape_assemble {terms : Terms M} (h : terms.ZeroFree) (c : Residue M) :
    KeepsShape (Affine.assemble c terms) := by
  rw [Affine.assemble_eq_ok h]
  exact Affine.valid_collapse h

theorem ne_zeroCoefficient_of_keepsShape {outcome : Except Fault (Affine M)}
    (h : KeepsShape outcome) : outcome ≠ .error .zeroCoefficient := by
  rintro rfl
  exact h rfl

end Outcomes

/-! ## Single operations -/

namespace Form

variable {M : Modulus} {p q : Form M}

theorem entries_mapValues_ne_nil {f : Residue M → Residue M} (h : p.terms.entries ≠ []) :
    (p.terms.mapValues f).entries ≠ [] := by
  simpa [VarMap.mapValues] using h

theorem valid_neg (h : p.Valid) : p.neg.Valid := by
  refine ⟨entries_mapValues_ne_nil h.1, Terms.zeroFree_mapValues h.2 ?_⟩
  intro c hc
  exact neg_eq_zero.1 hc

theorem valid_normalize (h : p.Valid) : p.normalize.Valid := by
  unfold normalize
  cases p.isFlipped with
  | true => exact valid_neg h
  | false => exact h

theorem valid_scale (h : p.Valid) {factor : Residue M}
    (hfactor : factor = 0 ∨ factor ∈ nonZeroDivisors (Residue M)) : (p.scale factor).Valid := by
  unfold scale
  split
  · trivial
  · rename_i hne
    -- A factor that is no divisor of zero turns only zero into zero.
    have hregular : factor ∈ nonZeroDivisors (Residue M) := hfactor.resolve_left hne
    refine ⟨entries_mapValues_ne_nil h.1, Terms.zeroFree_mapValues h.2 ?_⟩
    exact mem_nonZeroDivisors_iff_right.1 hregular

/-- The terms under new names, accumulated. -/
def renamed (p : Form M) (f : Var → Var) : Terms M :=
  Terms.accumulate VarMap.empty (p.terms.entries.map fun e => (f e.1, e.2))

theorem relabel_eq (p : Form M) (f : Var → Var) :
    p.relabel f =
      if (p.renamed f).size = p.size then .ok ⟨p.constant, p.renamed f⟩
      else .error (.collision (p.renamed f).size p.size) :=
  rfl

theorem keepsShape_relabel (h : p.Valid) (f : Var → Var) :
    KeepsShape ((p.relabel f).map Affine.form) := by
  rw [relabel_eq]
  split
  · rename_i hsize
    refine ⟨?_, Terms.zeroFree_accumulate Terms.zeroFree_empty _⟩
    -- A renaming that is accepted keeps the number of terms, hence at least one of them.
    intro hnil
    have hzero : p.size = 0 := by
      rw [← hsize]
      exact congrArg List.length hnil
    exact h.1 (List.length_eq_zero_iff.1 hzero)
  · simp [Except.map, KeepsShape]

theorem keepsShape_add (hp : p.Valid) (hq : q.Valid) : KeepsShape (p.add q) :=
  keepsShape_assemble (Terms.zeroFree_add hp.2 hq.2) _

theorem keepsShape_substitute (h : p.Valid) (v : Var) (replacement : Form M) :
    KeepsShape (p.substitute v replacement) := by
  unfold substitute
  split
  · exact h
  · split
    · simp [KeepsShape]
    · -- The products may be zero, but accumulating them stores no zero.
      exact keepsShape_assemble (Terms.zeroFree_accumulate (Terms.zeroFree_erase h.2 v) _) _

theorem assign_eq_ok (h : p.terms.ZeroFree) (bindings : Assignment M) :
    p.assign bindings =
      .ok (Affine.collapse (p.remainder bindings).constant (p.remainder bindings).terms,
        (p.remainder bindings).changed) := by
  simp [assign, Affine.assemble_eq_ok (zeroFree_remainder h bindings)]

theorem keepsShape_assign (h : p.Valid) (bindings : Assignment M) :
    KeepsShape ((p.assign bindings).map Prod.fst) := by
  rw [assign_eq_ok h.2]
  exact Affine.valid_collapse (zeroFree_remainder h.2 bindings)

end Form

/-! ## Operations as data -/

/-- An operation on a form, together with its other arguments. -/
inductive Operation (M : Modulus) where
  | erase (v : Var)
  | add (q : Form M)
  | sub (q : Form M)
  | neg
  | shift (delta : Residue M)
  | scale (factor : Residue M)
  | relabel (f : Var → Var)
  | substitute (v : Var) (replacement : Form M)
  | assign (bindings : Assignment M)
  | normalize

namespace Operation

variable {M : Modulus}

def apply : Operation M → Form M → Except Fault (Affine M)
  | erase v, p => p.erase v
  | add q, p => p.add q
  | sub q, p => p.sub q
  | neg, p => .ok (.form p.neg)
  | shift delta, p => .ok (.form (p.shift delta))
  | scale factor, p => .ok (p.scale factor)
  | relabel f, p => (p.relabel f).map .form
  | substitute v replacement, p => p.substitute v replacement
  | assign bindings, p => (p.assign bindings).map Prod.fst
  | normalize, p => .ok (.form p.normalize)

/-- The forms among the other arguments. -/
def operands : Operation M → List (Form M)
  | add q => [q]
  | sub q => [q]
  | substitute _ replacement => [replacement]
  | _ => []

/-- A factor to scale by is zero, or no divisor of zero. -/
def Regular : Operation M → Prop
  | scale factor => factor = 0 ∨ factor ∈ nonZeroDivisors (Residue M)
  | _ => True

theorem regular_of_prime (hM : M.value.Prime) (op : Operation M) : op.Regular := by
  cases op with
  | scale factor =>
      by_cases hzero : factor = 0
      · exact Or.inl hzero
      · refine Or.inr (mem_nonZeroDivisors_iff_right.2 fun x hx => ?_)
        exact (Residue.eq_zero_or_eq_zero_of_mul hM hx).resolve_right hzero
  | _ => trivial

theorem keepsShape_apply (op : Operation M) {p : Form M} (hp : p.Valid)
    (hoperands : ∀ q ∈ op.operands, q.Valid) (hop : op.Regular) : KeepsShape (op.apply p) := by
  cases op with
  | erase v => exact keepsShape_assemble (Terms.zeroFree_erase hp.2 v) p.constant
  | add q => exact Form.keepsShape_add hp (hoperands q List.mem_cons_self)
  | sub q => exact Form.keepsShape_add hp (Form.valid_neg (hoperands q List.mem_cons_self))
  | neg => exact Form.valid_neg hp
  | shift delta => exact hp
  | scale factor => exact Form.valid_scale hp hop
  | relabel f => exact Form.keepsShape_relabel hp f
  | substitute v replacement => exact Form.keepsShape_substitute hp v replacement
  | assign bindings => exact Form.keepsShape_assign hp bindings
  | normalize => exact Form.valid_normalize hp

theorem apply_ne_zeroCoefficient (op : Operation M) {p : Form M} (hp : p.Valid)
    (hoperands : ∀ q ∈ op.operands, q.Valid) : op.apply p ≠ .error .zeroCoefficient := by
  by_cases hop : op.Regular
  · exact ne_zeroCoefficient_of_keepsShape (op.keepsShape_apply hp hoperands hop)
  · -- Only scaling has a condition, and it does not check for zeros.
    cases op with
    | scale factor => simp [apply]
    | _ => exact absurd trivial hop

end Operation

/-! ## Steps -/

/-- What one step of a run adds to the values stored so far. -/
inductive Step {M : Modulus} : List (Affine M) → List (Affine M) → Prop where
  | constant (store : List (Affine M)) (c : Residue M) : Step store (.constant c :: store)
  | ofTerms (store : List (Affine M)) (c : Residue M) (terms : List (Var × Residue M)) :
      Step store (.ofTerms c terms :: store)
  | ofMap (store : List (Affine M)) (c : Residue M) (terms : Terms M) :
      Step store (.ofMap c terms :: store)
  | ofVar (store : List (Affine M)) (v : Var) : Step store (.form (.ofVar v) :: store)
  | pin (store : List (Affine M)) (v : Var) (value : Residue M) :
      Step store (.form (.pin v value) :: store)
  | decodeForm (store : List (Affine M)) {bytes : List UInt8} {p : Form M}
      (hp : Form.decode bytes = .ok p) : Step store (.form p :: store)
  | decodeAffine (store : List (Affine M)) {bytes : List UInt8} {r : Affine M}
      (hr : Affine.decode bytes = .ok r) : Step store (r :: store)
  | apply (store : List (Affine M)) {r result : Affine M} (op : Operation M) (hr : r ∈ store)
      (hoperands : ∀ q ∈ op.operands, .form q ∈ store) (hop : op.Regular)
      (hresult : r.andThen op.apply = .ok result) : Step store (result :: store)
  | dedup (store : List (Affine M)) {forms : List (Form M)}
      (hforms : ∀ p ∈ forms, .form p ∈ store) :
      Step store ((Constraints.dedup forms).map .form ++ store)

/-- The values stored at the end of some run. -/
def Reachable {M : Modulus} (store : List (Affine M)) : Prop :=
  Relation.ReflTransGen Step [] store

section Runs

variable {M : Modulus} {store next : List (Affine M)}

theorem valid_of_mem_cons {r : Affine M} (hstore : ∀ x ∈ store, x.Valid) (hr : r.Valid) :
    ∀ x ∈ r :: store, x.Valid := by
  intro x hx
  rcases List.mem_cons.1 hx with rfl | hx
  · exact hr
  · exact hstore x hx

theorem Step.valid (h : Step store next) (hstore : ∀ r ∈ store, r.Valid) : ∀ r ∈ next, r.Valid := by
  cases h with
  | constant c => exact valid_of_mem_cons hstore trivial
  | ofTerms c terms =>
      exact valid_of_mem_cons hstore (Affine.valid_collapse (Terms.zeroFree_dropZeros _))
  | ofMap c terms =>
      exact valid_of_mem_cons hstore (Affine.valid_collapse (Terms.zeroFree_dropZeros _))
  | ofVar v =>
      refine valid_of_mem_cons hstore ⟨List.cons_ne_nil _ _, ?_⟩
      exact Terms.zeroFree_singleton one_ne_zero
  | pin v value =>
      refine valid_of_mem_cons hstore ⟨List.cons_ne_nil _ _, ?_⟩
      exact Terms.zeroFree_singleton (neg_ne_zero.2 one_ne_zero)
  | decodeForm hp => exact valid_of_mem_cons hstore (Form.decode_eq_ok_iff.1 hp).1
  | decodeAffine hr => exact valid_of_mem_cons hstore (Affine.decode_eq_ok_iff.1 hr).1
  | @apply r result op hr hoperands hop hresult =>
      cases r with
      | constant c =>
          -- A constant is passed through.
          cases hresult
          exact valid_of_mem_cons hstore trivial
      | form p =>
          have hshape := op.keepsShape_apply (hstore _ hr)
            (fun q hq => hstore _ (hoperands q hq)) hop
          rw [show op.apply p = .ok result from hresult] at hshape
          exact valid_of_mem_cons hstore hshape
  | dedup hforms =>
      -- The survivors were stored before.
      intro r hr
      rcases List.mem_append.1 hr with hr | hr
      · rcases List.mem_map.1 hr with ⟨p, hp, rfl⟩
        exact hstore _ (hforms p (Constraints.mem_of_mem_dedup hp))
      · exact hstore r hr

theorem Reachable.valid (h : Reachable store) : ∀ r ∈ store, r.Valid := by
  induction h with
  | refl => simp
  | tail _ hstep ih => exact hstep.valid ih

/-- In every run all stored forms are valid, and the precondition on zero coefficients is met by
every operation on stored forms, by the construction from a map, and by decoding.  Over a prime
modulus the condition on the factors of a run always holds. -/
theorem run_keeps_canonical (M : Modulus) :
    (∀ store : List (Affine M), Reachable store →
      (∀ p, Affine.form p ∈ store → p.Valid) ∧
        ∀ p (op : Operation M), Affine.form p ∈ store → (∀ q ∈ op.operands, .form q ∈ store) →
          op.apply p ≠ .error .zeroCoefficient) ∧
      (∀ (c : Residue M) (terms : Terms M),
        Affine.assemble c terms.dropZeros = .ok (Affine.ofMap c terms)) ∧
      (∀ (bytes : List UInt8) (fault : Fault),
        (Form.decode bytes : Except CodecFailure (Form M)) ≠ .error (.violated fault) ∧
          (Affine.decode bytes : Except CodecFailure (Affine M)) ≠ .error (.violated fault)) ∧
      (M.value.Prime → ∀ op : Operation M, op.Regular) := by
  refine ⟨?_, Affine.assemble_dropZeros, ?_, Operation.regular_of_prime⟩
  · intro store hstore
    refine ⟨fun p hp => hstore.valid _ hp, ?_⟩
    intro p op hp hoperands
    exact op.apply_ne_zeroCoefficient (hstore.valid _ hp)
      fun q hq => hstore.valid _ (hoperands q hq)
  · intro bytes fault
    exact ⟨Form.decode_ne_violated bytes fault, Affine.decode_ne_violated bytes fault⟩

end Runs

/-! ### A run with zero divisors -/

section ZeroDivisors

/-- The variables `x0` to `x3`. -/
def exampleVar (n : Fin 4) : Var := ⟨n, Nat.lt_trans n.isLt (by decide)⟩

def threeAndOne : Form Modulus.fifteen :=
  ⟨0, ⟨[(exampleVar 0, ⟨3, by decide⟩), (exampleVar 1, 1)], by decide⟩⟩

def fiveAndOne : Form Modulus.fifteen :=
  ⟨0, ⟨[(exampleVar 2, ⟨5, by decide⟩), (exampleVar 3, 1)], by decide⟩⟩

/-- Over fifteen, the form `5·x2 + x3` is put for `x0` in `3·x0 + x1`.  The product of 3 and 5 is
zero, so `x2` does not occur in the result. -/
def zeroDivisorStore : List (Affine Modulus.fifteen) :=
  [.form ⟨0, ⟨[(exampleVar 1, 1), (exampleVar 3, ⟨3, by decide⟩)], by decide⟩⟩,
    .form fiveAndOne, .form threeAndOne]

theorem reachable_zeroDivisorStore : Reachable zeroDivisorStore := by
  have hfirst : Step [] [Affine.form threeAndOne] :=
    Step.ofTerms [] 0 [(exampleVar 1, 1), (exampleVar 0, ⟨3, by decide⟩)]
  have hsecond : Step [Affine.form threeAndOne] [.form fiveAndOne, .form threeAndOne] :=
    Step.ofTerms _ 0 [(exampleVar 2, ⟨5, by decide⟩), (exampleVar 3, 1)]
  have hthird : Step [.form fiveAndOne, .form threeAndOne] zeroDivisorStore := by
    refine Step.apply _ (r := .form threeAndOne) (.substitute (exampleVar 0) fiveAndOne)
      ?_ ?_ trivial ?_
    · simp
    · simp [Operation.operands]
    · decide
  exact ((Relation.ReflTransGen.refl.tail hfirst).tail hsecond).tail hthird

theorem run_keeps_canonical_fifteen :
    Reachable zeroDivisorStore ∧ ∀ p, Affine.form p ∈ zeroDivisorStore → p.Valid :=
  ⟨reachable_zeroDivisorStore,
    ((run_keeps_canonical Modulus.fifteen).1 zeroDivisorStore reachable_zeroDivisorStore).1⟩

end ZeroDivisors

end AffineForms
