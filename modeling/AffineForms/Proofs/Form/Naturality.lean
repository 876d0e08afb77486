import Mathlib.Logic.Equiv.Basic
import AffineForms.Proofs.Form.Relabelling

/-!
# Naturality — relabelling is reading through the renaming

A renaming may reverse the order of the variables, so that maps are merged, folded and copied in
another order than before.  None of this shows in the results.  The relabelled form evaluates like
the form itself under `s ∘ f` (`Form.exists_relabel`), and this law is all that is used here:

* `Form.exists_relabel_relabel`: two renamings, one after the other, are one renaming;
* `RelabelsTo.of_denotes`: an operation whose function depends on certain variables only commutes
  with every renaming that keeps these apart.

`Form.relabelsTo_combine`, for an operation on the values of two forms such as their sum or their
difference, and `Form.relabelsTo_substitute` are instances of the second.  A value that has
collapsed has no variables and is left as it is (`Affine.relabel`).
-/

namespace AffineForms

variable {M : Modulus}

/-! ## Relabelled values -/

namespace Affine

/-- Renames every variable of a value; a constant has none. -/
def relabel (r : Affine M) (f : Var → Var) : Except Fault (Affine M) :=
  r.andThen fun p => (p.relabel f).map form

theorem denotes_relabel {r : Affine M} (hr : r.Valid) {f : Var → Var}
    (h : Set.InjOn f r.support) : Denotes (r.relabel f) fun s => r.eval fun v => s (f v) := by
  cases r with
  | constant c => exact Denotes.of_valid trivial
  | form p =>
      obtain ⟨q, hq, hvalid, heval⟩ := Form.exists_relabel hr h
      refine ⟨form q, ?_, hvalid, heval⟩
      rw [relabel, andThen, hq]
      rfl

end Affine

/-- Both outcomes are values, and the second one is the first one under new names. -/
def RelabelsTo (f : Var → Var) (outcome renamed : Except Fault (Affine M)) : Prop :=
  ∃ r r', outcome = .ok r ∧ r.relabel f = .ok r' ∧ renamed = .ok r'

/-- If one outcome computes a function, and the other one computes it through a renaming that keeps
apart the variables on which it depends, then renaming the one gives the other. -/
theorem RelabelsTo.of_denotes {f : Var → Var} {outcome renamed : Except Fault (Affine M)}
    {F : Assignment M → Residue M} {S : Set Var} (houtcome : Denotes outcome F)
    (hrenamed : Denotes renamed fun s => F fun v => s (f v)) (hF : DependsOn F S)
    (hf : Set.InjOn f S) : RelabelsTo f outcome renamed := by
  obtain ⟨r, hr, hvalid, heval⟩ := houtcome
  have hdepends : DependsOn r.eval S := by
    intro s t hst
    rw [heval, heval, hF hst]
  -- The value mentions no other variables, so the renaming is accepted.
  have hinj : Set.InjOn f r.support := hf.mono (Affine.support_subset hvalid hdepends)
  have hrelabel := Affine.denotes_relabel hvalid hinj
  have hsame : renamed = r.relabel f := hrenamed.eq (hrelabel.congr fun s => heval _)
  obtain ⟨r', hr', -⟩ := hrelabel
  exact ⟨r, r', hr, hr', hsame.trans hr'⟩

namespace Form

variable {p q p' q' : Form M} {f g : Var → Var} {v : Var}

/-! ## Two renamings -/

theorem exists_relabel_relabel (hp : p.Valid) (hf : Set.InjOn f p.support)
    (hg : Set.InjOn g (f '' p.support)) :
    ∃ r, (p.relabel f >>= fun t => t.relabel g) = .ok r ∧ r.Valid ∧
      ∀ s, r.eval s = p.eval fun u => s (g (f u)) := by
  obtain ⟨t, ht, htvalid, hteval⟩ := exists_relabel hp hf
  rw [← support_of_relabel hp ht] at hg
  obtain ⟨r, hr, hrvalid, hreval⟩ := exists_relabel htvalid hg
  refine ⟨r, ?_, hrvalid, fun s => ?_⟩
  · rw [ht]
    exact hr
  · rw [hreval, hteval]

theorem relabel_relabel (hp : p.Valid) (hf : Set.InjOn f p.support)
    (hg : Set.InjOn g (f '' p.support)) :
    (p.relabel f >>= fun t => t.relabel g) = p.relabel (g ∘ f) := by
  obtain ⟨r, hr, hvalid, heval⟩ := exists_relabel_relabel hp hf hg
  obtain ⟨t, ht, htvalid, hteval⟩ := exists_relabel hp (hg.comp hf (Set.mapsTo_image f p.support))
  have hsame : r = t :=
    eq_of_forall_eval_eq hvalid htvalid fun s => (heval s).trans (hteval s).symm
  rw [hr, ht, hsame]

/-- A renaming that can be undone on the variables of a form is undone by renaming back. -/
theorem relabel_leftInverse (hp : p.Valid) (h : Set.LeftInvOn g f p.support) :
    (p.relabel f >>= fun t => t.relabel g) = .ok p := by
  -- On the new names renaming back is undone by `f`.
  have hg : Set.InjOn g (f '' p.support) := by
    rintro _ ⟨u, hu, rfl⟩ _ ⟨w, hw, rfl⟩ hsame
    rw [h hu, h hw] at hsame
    rw [hsame]
  obtain ⟨r, hr, hvalid, heval⟩ := exists_relabel_relabel hp h.injOn hg
  have hsame : r = p := by
    refine eq_of_forall_eval_eq hvalid hp fun s => ?_
    rw [heval]
    exact p.dependsOn_eval fun u hu => congrArg s (h hu)
  rw [hr, hsame]

/-! ## Operations on relabelled forms -/

theorem dependsOn_combine (op : Residue M → Residue M → Residue M) (p q : Form M) :
    DependsOn (fun s => op (p.eval s) (q.eval s)) (p.support ∪ q.support) := by
  intro s t h
  have hp : p.eval s = p.eval t := p.dependsOn_eval fun u hu => h u (Or.inl hu)
  have hq : q.eval s = q.eval t := q.dependsOn_eval fun u hu => h u (Or.inr hu)
  exact congrArg₂ op hp hq

theorem dependsOn_substitute (p q : Form M) (v : Var) (a : Residue M) :
    DependsOn (fun s : Assignment M => p.eval s + a * (q.eval s - s.read v))
      (insert v (p.support ∪ q.support)) := by
  intro (s : Assignment M) (t : Assignment M) h
  have hp : p.eval s = p.eval t := p.dependsOn_eval fun u hu => h u (Or.inr (Or.inl hu))
  have hq : q.eval s = q.eval t := q.dependsOn_eval fun u hu => h u (Or.inr (Or.inr hu))
  have hv : s.read v = t.read v := congrArg (·.getD 0) (h v (Or.inl rfl))
  simp only [hp, hq, hv]

section Renamed

variable (hp : p.Valid) (hq : q.Valid) (hp' : p.relabel f = .ok p') (hq' : q.relabel f = .ok q')

include hp hp'

theorem mentions_of_relabel (h : Set.InjOn f (insert v p.support)) (hv : p.mentions v = false) :
    p'.mentions (f v) = false := by
  refine (Terms.contains_eq_false_iff (valid_of_relabel hp hp').2).2 ?_
  rw [coeffAt_of_relabel hp hp' h]
  exact Terms.coeffAt_of_contains_eq_false hv

include hq hq'

/-- An operation that combines the values of two forms commutes with the renaming. -/
theorem relabelsTo_combine {op : Residue M → Residue M → Residue M}
    {combine : Form M → Form M → Except Fault (Affine M)}
    (hcombine : ∀ {a b : Form M}, a.Valid → b.Valid →
      Denotes (combine a b) fun s => op (a.eval s) (b.eval s))
    (h : Set.InjOn f (p.support ∪ q.support)) :
    RelabelsTo f (combine p q) (combine p' q') := by
  refine .of_denotes (hcombine hp hq) ?_ (dependsOn_combine op p q) h
  refine (hcombine (valid_of_relabel hp hp') (valid_of_relabel hq hq')).congr fun s => ?_
  rw [eval_of_relabel hp hp', eval_of_relabel hq hq']

theorem relabelsTo_substitute (h : Set.InjOn f (insert v (p.support ∪ q.support)))
    (hv : q.mentions v = false) :
    RelabelsTo f (p.substitute v q) (p'.substitute (f v) q') := by
  have hvp : Set.InjOn f (insert v p.support) :=
    h.mono (Set.insert_subset_insert Set.subset_union_left)
  have hvq : Set.InjOn f (insert v q.support) :=
    h.mono (Set.insert_subset_insert Set.subset_union_right)
  -- No variable of `q` is given the name of `v`, so the substitution is not refused.
  have habsent : q'.mentions (f v) = false := mentions_of_relabel hq hq' hvq hv
  refine .of_denotes (exists_substitute hp hv) ?_ (p.dependsOn_substitute q v _) h
  refine Denotes.congr (exists_substitute (valid_of_relabel hp hp') habsent) fun s => ?_
  rw [eval_of_relabel hp hp', eval_of_relabel hq hq', coeffAt_of_relabel hp hp' hvp]
  rfl

end Renamed

end Form

/-- Renaming one way and then another is renaming both ways at once, and renaming back gives back
the form.  A relabelled form evaluates like the form itself read through the renaming.  And a
renaming that keeps all variables apart commutes with sums, differences and substitutions: the
results on the relabelled forms are the relabelled results, a collapsed one being left as it is. -/
theorem relabel_natural {p q : Form M} (hp : p.Valid) (hq : q.Valid) (f g : Var → Var) (v : Var) :
    (Set.InjOn f p.support → Set.InjOn g (f '' p.support) →
        ∃ r, (p.relabel f >>= fun t => t.relabel g) = .ok r ∧ p.relabel (g ∘ f) = .ok r) ∧
      ((∀ u ∈ p.support, g (f u) = u) → (p.relabel f >>= fun t => t.relabel g) = .ok p) ∧
      (Set.InjOn f p.support →
        ∃ r, p.relabel f = .ok r ∧ ∀ s, r.eval s = p.eval fun u => s (f u)) ∧
      (Set.InjOn f (p.support ∪ q.support) →
        ∃ p' q', p.relabel f = .ok p' ∧ q.relabel f = .ok q' ∧
          RelabelsTo f (p.add q) (p'.add q') ∧
          RelabelsTo f (p.sub q) (p'.sub q') ∧
          (Set.InjOn f (insert v (p.support ∪ q.support)) → q.mentions v = false →
            RelabelsTo f (p.substitute v q) (p'.substitute (f v) q'))) := by
  refine ⟨?_, Form.relabel_leftInverse hp, ?_, ?_⟩
  · intro hf hg
    obtain ⟨r, hr, -⟩ := Form.exists_relabel_relabel hp hf hg
    exact ⟨r, hr, (Form.relabel_relabel hp hf hg).symm.trans hr⟩
  · intro hf
    obtain ⟨r, hr, -, heval⟩ := Form.exists_relabel hp hf
    exact ⟨r, hr, heval⟩
  · intro hf
    obtain ⟨p', hp', -⟩ := Form.exists_relabel hp (hf.mono Set.subset_union_left)
    obtain ⟨q', hq', -⟩ := Form.exists_relabel hq (hf.mono Set.subset_union_right)
    exact ⟨p', q', hp', hq', Form.relabelsTo_combine hp hq hp' hq' Form.exists_add hf,
      Form.relabelsTo_combine hp hq hp' hq' Form.exists_sub hf,
      Form.relabelsTo_substitute hp hq hp' hq'⟩

/-- Over seven, exchange `x0` and `x3` in `p = 3 + x0 - 2·x2` and in `q = 2 + 4·x0`, which reverses
the order of the terms of `p`.  Putting `q` for `x2` collapses to the constant six, with the old
names and with the new ones; exchanging the variables once more gives back `p`. -/
theorem relabel_natural_seven :
    let p := Form.sample
    let q : Form Modulus.seven := ⟨⟨2, by decide⟩, VarMap.singleton (exampleVar 0) ⟨4, by decide⟩⟩
    let f : Var → Var := Equiv.swap (exampleVar 0) (exampleVar 3)
    p.Valid ∧ q.Valid ∧ Set.InjOn f (insert (exampleVar 2) (p.support ∪ q.support)) ∧
      q.mentions (exampleVar 2) = false ∧
      (p.relabel f >>= fun t => t.relabel f) = .ok p ∧
      p.substitute (exampleVar 2) q = .ok (.constant ⟨6, by decide⟩) ∧
      ∃ p' q', p.relabel f = .ok p' ∧ q.relabel f = .ok q' ∧
        p' = ⟨⟨3, by decide⟩, ⟨[(exampleVar 2, ⟨5, by decide⟩), (exampleVar 3, 1)], by decide⟩⟩ ∧
        RelabelsTo f (p.add q) (p'.add q') ∧
        RelabelsTo f (p.substitute (exampleVar 2) q) (p'.substitute (f (exampleVar 2)) q') := by
  intro p q f
  have hp : p.Valid := by decide
  have hq : q.Valid := by decide
  have hf : Set.InjOn f (insert (exampleVar 2) (p.support ∪ q.support)) :=
    (Equiv.swap (exampleVar 0) (exampleVar 3)).injective.injOn
  have hv : q.mentions (exampleVar 2) = false := by decide
  obtain ⟨-, hback, -, hcommutes⟩ := relabel_natural hp hq f f (exampleVar 2)
  obtain ⟨p', q', hp', hq', hadd, -, hsubstitute⟩ := hcommutes (hf.mono (Set.subset_insert _ _))
  have hvalue : p' =
      ⟨⟨3, by decide⟩, ⟨[(exampleVar 2, ⟨5, by decide⟩), (exampleVar 3, 1)], by decide⟩⟩ :=
    Except.ok.inj (hp'.symm.trans (by decide))
  exact ⟨hp, hq, hf, hv, hback fun u _ => Equiv.swap_apply_self _ _ u, by decide, p', q', hp', hq',
    hvalue, hadd, hsubstitute hf hv⟩

end AffineForms
