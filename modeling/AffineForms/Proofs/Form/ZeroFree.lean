import AffineForms.Form.Substitution
import AffineForms.VarMap.Lemmas

/-!
# Zero-free maps — which operations store no zero coefficient

A map of coefficients is zero-free when no lookup answers zero (`zeroFree_iff`).  Every update goes
through `VarMap.alter`, so one lemma about it (`zeroFree_alter`) carries the property through the
updates of a single variable.  Main statements:

* `zeroFree_accumulate`: accumulating any terms, zeros and repeats included, into a zero-free map
  leaves a zero-free map;
* `Terms.zeroFree_add` and `zeroFree_mapValues` for sums and for changes of every coefficient;
* `Form.zeroFree_remainder`: binding variables only takes terms away.
-/

namespace AffineForms

namespace Terms

variable {M : Modulus} {terms : Terms M}

theorem zeroFree_iff : terms.ZeroFree ↔ ∀ v, terms.get? v ≠ some 0 := by
  constructor
  · intro h v hv
    exact h (v, 0) (VarMap.get?_eq_some_iff.1 hv) rfl
  · intro h e he hzero
    apply h e.1
    rw [← hzero]
    exact VarMap.get?_eq_some_iff.2 he

/-! ## Updates of one variable -/

theorem zeroFree_empty : ZeroFree (VarMap.empty : Terms M) := by
  intro e he
  cases he

theorem zeroFree_singleton {v : Var} {c : Residue M} (hc : c ≠ 0) :
    ZeroFree (VarMap.singleton v c) := by
  intro e he
  rcases List.mem_singleton.1 he with rfl
  exact hc

theorem zeroFree_alter {v : Var} {f : Option (Residue M) → Option (Residue M)}
    (h : terms.ZeroFree) (hf : f (terms.get? v) ≠ some 0) : ZeroFree (terms.alter v f) := by
  refine zeroFree_iff.2 fun w => ?_
  rw [VarMap.get?_alter]
  split
  · exact hf
  · exact zeroFree_iff.1 h w

theorem zeroFree_erase (h : terms.ZeroFree) (v : Var) : ZeroFree (terms.erase v) :=
  zeroFree_alter h (by simp)

theorem zeroFree_insert (h : terms.ZeroFree) {v : Var} {c : Residue M} (hc : c ≠ 0) :
    ZeroFree (terms.insert v c) :=
  zeroFree_alter h (by simpa using hc)

/-! ## Sums -/

theorem addCoefficient_ne_some_zero (c : Residue M) (stored : Option (Residue M)) :
    addCoefficient c stored ≠ some 0 := by
  cases stored with
  | none =>
      by_cases hc : c = 0
      · simp [addCoefficient, hc]
      · simp [addCoefficient, hc]
  | some b =>
      by_cases hsum : b + c = 0
      · simp [addCoefficient, hsum]
      · simp [addCoefficient, hsum]

theorem zeroFree_accumulate (h : terms.ZeroFree) (additions : List (Var × Residue M)) :
    (accumulate terms additions).ZeroFree := by
  induction additions generalizing terms with
  | nil => exact h
  | cons e rest ih =>
      -- One addition is one update, whose result is never a stored zero.
      have hstep : ZeroFree (terms.alter e.1 (addCoefficient e.2)) :=
        zeroFree_alter h (addCoefficient_ne_some_zero e.2 _)
      exact ih hstep

theorem zeroFree_add {a b : Terms M} (ha : a.ZeroFree) (hb : b.ZeroFree) : (a.add b).ZeroFree := by
  unfold add
  -- Whichever map is copied, the other one is accumulated into it.
  split
  · exact zeroFree_accumulate ha b.entries
  · exact zeroFree_accumulate hb a.entries

/-! ## Changes of every coefficient -/

theorem zeroFree_mapValues {f : Residue M → Residue M} (h : terms.ZeroFree)
    (hf : ∀ c, f c = 0 → c = 0) : ZeroFree (terms.mapValues f) := by
  intro e he hzero
  rcases List.mem_map.1 he with ⟨d, hd, rfl⟩
  exact h d hd (hf d.2 hzero)

end Terms

/-! ## Binding variables -/

namespace Remainder

variable {M : Modulus}

theorem zeroFree_step (bindings : Assignment M) {rest : Remainder M} {e : Var × Residue M}
    (h : rest.terms.ZeroFree) (he : e.2 ≠ 0) : (rest.step bindings e).terms.ZeroFree := by
  unfold step
  split
  · exact h
  · exact Terms.zeroFree_insert h he

theorem zeroFree_foldl_step (bindings : Assignment M) {entries : List (Var × Residue M)}
    {rest : Remainder M} (h : rest.terms.ZeroFree) (hentries : ∀ e ∈ entries, e.2 ≠ 0) :
    (entries.foldl (Remainder.step bindings) rest).terms.ZeroFree := by
  induction entries generalizing rest with
  | nil => exact h
  | cons e entries ih =>
      have hstep := zeroFree_step bindings h (hentries e List.mem_cons_self)
      exact ih hstep fun d hd => hentries d (List.mem_cons_of_mem e hd)

end Remainder

theorem Form.zeroFree_remainder {M : Modulus} {p : Form M} (h : p.terms.ZeroFree)
    (bindings : Assignment M) : (p.remainder bindings).terms.ZeroFree :=
  Remainder.zeroFree_foldl_step bindings Terms.zeroFree_empty h

end AffineForms
