import Mathlib.Logic.Function.DependsOn
import AffineForms.Proofs.Form.Binding

/-!
# Denotation — outcomes known by the function that they compute

A valid value is determined by what it evaluates to (`Affine.eq_of_forall_eval_eq`).  So a law about
operations that merge maps, cancel terms and collapse can be settled on the values: both sides have
to answer a valid value, and the two functions have to be the same.

* `Denotes outcome f` says that the outcome is a valid value which computes `f`;
* `Denotes.eq`: two outcomes with one denotation are the same outcome;
* `Denotes.bind`: what an operation makes of the answer of an earlier one;
* `Affine.support_subset`: a valid value mentions those variables only on which its function
  depends, whatever has been cancelled on the way.

`Form.exists_add`, `Form.exists_sub`, `Form.exists_erase` and `Form.exists_substitute` are
statements of this kind.
-/

namespace AffineForms

variable {M : Modulus}

/-! ## Outcomes that denote a function -/

/-- The outcome is a valid value, and it computes the function. -/
def Denotes (outcome : Except Fault (Affine M)) (f : Assignment M → Residue M) : Prop :=
  ∃ r, outcome = .ok r ∧ r.Valid ∧ ∀ s, r.eval s = f s

namespace Denotes

variable {a b : Except Fault (Affine M)} {f g : Assignment M → Residue M}

theorem of_valid {r : Affine M} (h : r.Valid) : Denotes (.ok r) r.eval :=
  ⟨r, rfl, h, fun _ => rfl⟩

theorem congr (h : Denotes a f) (hfg : ∀ s, f s = g s) : Denotes a g := by
  obtain ⟨r, hr, hvalid, heval⟩ := h
  exact ⟨r, hr, hvalid, fun s => (heval s).trans (hfg s)⟩

theorem eq (ha : Denotes a f) (hb : Denotes b f) : a = b := by
  obtain ⟨r₁, rfl, hvalid₁, heval₁⟩ := ha
  obtain ⟨r₂, rfl, hvalid₂, heval₂⟩ := hb
  have hsame : r₁ = r₂ :=
    Affine.eq_of_forall_eval_eq hvalid₁ hvalid₂ fun s => (heval₁ s).trans (heval₂ s).symm
  rw [hsame]

theorem bind {k : Affine M → Except Fault (Affine M)} (h : Denotes a f)
    (hk : ∀ r, r.Valid → (∀ s, r.eval s = f s) → Denotes (k r) g) : Denotes (a >>= k) g := by
  obtain ⟨r, rfl, hvalid, heval⟩ := h
  exact hk r hvalid heval

end Denotes

/-! ## The variables that occur -/

namespace Form

/-- The set of the variables that occur. -/
def support (p : Form M) : Set Var := {v | p.mentions v = true}

theorem dependsOn_eval (p : Form M) : DependsOn p.eval p.support := by
  intro s t h
  refine eval_congr fun u hu => ?_
  rw [Assignment.read, Assignment.read, h u hu]

end Form

namespace Affine

/-- The set of the variables that occur; it is empty for a constant. -/
def support (r : Affine M) : Set Var := {v | r.mentions v = true}

/-- A variable on which the value does not depend has the coefficient zero, which is not stored. -/
theorem support_subset {r : Affine M} (hr : r.Valid) {S : Set Var} (h : DependsOn r.eval S) :
    r.support ⊆ S := by
  intro v hv
  by_contra hvS
  -- The two assignments differ at `v` only, which is not in `S`.
  have hsame : r.eval (Probe.ofMaps.unit v) = r.eval Probe.ofMaps.origin := by
    refine h fun u hu => ?_
    have huv : u ≠ v := fun heq => hvS (heq ▸ hu)
    exact if_neg huv
  have hzero : r.terms.coeffAt v = 0 := by
    rw [coeffAt_eq_eval Probe.ofMaps, hsame, sub_self]
  have habsent : r.mentions v = false := (mentions_eq_false_iff hr).2 hzero
  exact absurd (habsent.symm.trans hv) (by decide)

end Affine

end AffineForms
