import Mathlib.Data.Finset.Card
import AffineForms.Form.Algebra
import AffineForms.Proofs.Codec.Layout
import AffineForms.VarMap.Lemmas

/-!
# Elements — what a stream of field elements says about the forms

Written as field elements, a form is its constant, its number of terms, and then two elements for
each term.  The four sorts of entries look alike, and numbers are reduced: where the modulus is
small, two indices may be written as the same element, and so may two numbers of terms.

* `Form.elements_inj`: if the indices are below the modulus, the stream determines the form, because
  its length tells how many terms there are;
* `Form.elements_append_inj`: if the number of terms is below the modulus too, the second element
  tells where the stream ends, so the form can be read off the beginning of a longer stream;
* `Constraints.elements_inj`: forms that are written one after the other can be told apart.

Both conditions hold of every form if the modulus exceeds the word size
(`Form.fits_of_wordSize_lt`), as it does for both Pasta moduli.
-/

namespace AffineForms

variable {M : Modulus}

/-! ## Numbers as elements -/

theorem Residue.ofNat_inj {m n : Nat} (hm : m < M.value) (hn : n < M.value)
    (h : (ofNat m : Residue M) = ofNat n) : m = n := by
  have hval : m % M.value = n % M.value := by
    rw [← val_ofNat, ← val_ofNat, h]
  rwa [Nat.mod_eq_of_lt hm, Nat.mod_eq_of_lt hn] at hval

/-- There are no more variables than indices. -/
theorem VarMap.size_le_wordSize {α : Type} (m : VarMap α) : m.size ≤ wordSize := by
  have hnodup : (m.keys.map Var.index).Nodup := m.nodup_keys.map fun _ _ h => Var.ext h
  have hsubset : (m.keys.map Var.index).toFinset ⊆ Finset.range wordSize := by
    intro n hn
    rcases List.mem_map.1 (List.mem_toFinset.1 hn) with ⟨v, -, rfl⟩
    exact Finset.mem_range.2 v.index_lt
  calc
    m.size = (m.keys.map Var.index).toFinset.card := by
        rw [List.toFinset_card_of_nodup hnodup, List.length_map, keys, List.length_map, size]
    _ ≤ (Finset.range wordSize).card := Finset.card_le_card hsubset
    _ = wordSize := Finset.card_range wordSize

namespace Codec

def termElements (e : Var × Residue M) : List (Residue M) := [.ofNat e.1.index, e.2]

theorem termElements_inj {d e : Var × Residue M} (hd : d.1.index < M.value)
    (he : e.1.index < M.value) (h : termElements d = termElements e) : d = e := by
  rcases List.cons.inj h with ⟨hvar, hrest⟩
  exact Prod.ext (Var.ext (Residue.ofNat_inj hd he hvar)) (List.cons.inj hrest).1

end Codec

/-! ## The stream of a form -/

namespace Form

variable {p q : Form M}

/-- The indices of all variables are below the modulus. -/
def IndicesFit (p : Form M) : Prop := ∀ v ∈ p.vars, v.index < M.value

instance (p : Form M) : Decidable p.IndicesFit :=
  inferInstanceAs (Decidable (∀ v ∈ p.vars, v.index < M.value))

/-- The indices and the number of terms are below the modulus. -/
def Fits (p : Form M) : Prop := p.IndicesFit ∧ p.size < M.value

instance (p : Form M) : Decidable p.Fits :=
  inferInstanceAs (Decidable (p.IndicesFit ∧ p.size < M.value))

theorem fits_of_wordSize_lt (h : wordSize < M.value) (p : Form M) : p.Fits :=
  ⟨fun v _ => Nat.lt_trans v.index_lt h, Nat.lt_of_le_of_lt p.terms.size_le_wordSize h⟩

theorem run_write_elements (p : Form M) (written : List (Residue M)) :
    ((p.write Event.appendElement).run written).2 =
      written ++ p.constant :: .ofNat p.size :: p.terms.entries.flatMap Codec.termElements := by
  have hrun := run_write_append (fun e => [e.toResidue]) p written
  simp only [events, List.flatMap_cons, List.flatMap_assoc] at hrun
  exact hrun

theorem elements_eq (p : Form M) :
    p.elements =
      p.constant :: .ofNat p.size :: p.terms.entries.flatMap Codec.termElements :=
  p.run_write_elements []

theorem length_elements (p : Form M) : p.elements.length = 2 + 2 * p.size := by
  have hterms : (p.terms.entries.flatMap Codec.termElements).length = p.size * 2 := by
    simp [List.length_flatMap, Codec.termElements, size, VarMap.size]
  rw [elements_eq, List.length_cons, List.length_cons, hterms]
  omega

theorem elements_inj (hp : p.IndicesFit) (hq : q.IndicesFit) (h : p.elements = q.elements) :
    p = q := by
  rw [elements_eq, elements_eq] at h
  rcases List.cons.inj h with ⟨hconstant, htail⟩
  -- The element for the number of terms is not needed: all terms are equally long.
  rcases List.cons.inj htail with ⟨-, hterms⟩
  have hentries : p.terms.entries = q.terms.entries := by
    refine flatMap_inj_of_length Nat.two_pos (fun _ => rfl) ?_ hterms
    intro d hd e he
    exact Codec.termElements_inj (hp d.1 (List.mem_map_of_mem hd)) (hq e.1 (List.mem_map_of_mem he))
  exact ext hconstant hentries

/-- The beginning of a longer stream determines the form and where its elements end. -/
theorem elements_append_inj (hp : p.Fits) (hq : q.Fits) {k l : List (Residue M)}
    (h : p.elements ++ k = q.elements ++ l) : p = q ∧ k = l := by
  have hsize : p.size = q.size := by
    rw [elements_eq, elements_eq] at h
    rcases List.cons.inj h with ⟨-, htail⟩
    exact Residue.ofNat_inj hp.2 hq.2 (List.cons.inj htail).1
  have hlength : p.elements.length = q.elements.length := by
    rw [length_elements, length_elements, hsize]
  rcases List.append_inj h hlength with ⟨helements, hrest⟩
  exact ⟨elements_inj hp.1 hq.1 helements, hrest⟩

theorem eq_of_isPrefix_elements (hp : p.Fits) (hq : q.Fits) (h : p.elements <+: q.elements) :
    p = q := by
  rcases h with ⟨rest, hrest⟩
  rw [← List.append_nil q.elements] at hrest
  exact (elements_append_inj hp hq hrest).1

end Form

/-! ## Several forms -/

namespace Constraints

/-- The elements of several forms that are written one after the other. -/
def elements (forms : List (Form M)) : List (Residue M) :=
  ((forms.forM fun p => p.write Event.appendElement).run []).2

theorem run_forM_write_elements (forms : List (Form M)) (written : List (Residue M)) :
    ((forms.forM fun p => p.write Event.appendElement).run written).2 =
      written ++ forms.flatMap Form.elements := by
  induction forms generalizing written with
  | nil => exact (List.append_nil written).symm
  | cons p forms ih =>
      have hhead : ((p.write Event.appendElement).run written).2 = written ++ p.elements := by
        rw [p.run_write_elements, p.elements_eq]
      calc
        (((p :: forms).forM fun p => p.write Event.appendElement).run written).2
            = ((forms.forM fun p => p.write Event.appendElement).run
                ((p.write Event.appendElement).run written).2).2 := rfl
        _ = written ++ (p :: forms).flatMap Form.elements := by
            rw [hhead, ih, List.flatMap_cons, List.append_assoc]

theorem elements_eq (forms : List (Form M)) : elements forms = forms.flatMap Form.elements :=
  run_forM_write_elements forms []

theorem elements_inj {ps qs : List (Form M)} (hps : ∀ p ∈ ps, p.Fits) (hqs : ∀ q ∈ qs, q.Fits)
    (h : elements ps = elements qs) : ps = qs := by
  rw [elements_eq, elements_eq] at h
  induction ps generalizing qs with
  | nil =>
      cases qs with
      | nil => rfl
      | cons q qs =>
          rw [List.flatMap_cons, q.elements_eq] at h
          cases h
  | cons p ps ih =>
      cases qs with
      | nil =>
          rw [List.flatMap_cons, p.elements_eq] at h
          cases h
      | cons q qs =>
          rw [List.flatMap_cons, List.flatMap_cons] at h
          -- The first form is the same on both sides, and it ends at the same place.
          rcases Form.elements_append_inj (hps p List.mem_cons_self) (hqs q List.mem_cons_self) h
            with ⟨hpq, hrest⟩
          have htail : ps = qs :=
            ih (fun p' hp' => hps p' (List.mem_cons_of_mem p hp'))
              (fun q' hq' => hqs q' (List.mem_cons_of_mem q hq')) hrest
          rw [hpq, htail]

end Constraints

/-- Forms with indices below the modulus are written alike only if they are equal.  If their numbers
of terms are below the modulus too, the elements of one are no proper beginning of those of another,
and lists of such forms are written alike only if they are equal.  A modulus beyond the word size,
as both Pasta moduli are, meets these conditions for every form. -/
theorem elements_collision_free (M : Modulus) :
    (∀ p q : Form M, p.IndicesFit → q.IndicesFit → (p.elements = q.elements ↔ p = q)) ∧
      (∀ p q : Form M, p.Fits → q.Fits → p.elements <+: q.elements → p = q) ∧
      (∀ ps qs : List (Form M), (∀ p ∈ ps, p.Fits) → (∀ q ∈ qs, q.Fits) →
        (Constraints.elements ps = Constraints.elements qs ↔ ps = qs)) ∧
      (wordSize < M.value → ∀ p : Form M, p.Fits) ∧
      wordSize < Modulus.pallasBase.value ∧ wordSize < Modulus.vestaBase.value := by
  refine ⟨?_, fun p q => Form.eq_of_isPrefix_elements, ?_, Form.fits_of_wordSize_lt, by decide,
    by decide⟩
  · intro p q hp hq
    exact ⟨Form.elements_inj hp hq, congrArg Form.elements⟩
  · intro ps qs hps hqs
    exact ⟨Constraints.elements_inj hps hqs, congrArg Constraints.elements⟩

/-- Over seven, the sample and its negation are written with the elements `3, 2, 0, 1, 2, 5` and
`4, 2, 0, 6, 2, 2`, so it shows in which order the two are written.  Over the Pallas base field the
largest index fits. -/
theorem elements_collision_free_seven :
    let p := Form.sample
    let q := Form.sample.neg
    let large : Form Modulus.pallasBase := .ofVar ⟨0xffffffffffffffff, by decide⟩
    p.Fits ∧ q.Fits ∧ p.elements.map Residue.val = [3, 2, 0, 1, 2, 5] ∧
      q.elements.map Residue.val = [4, 2, 0, 6, 2, 2] ∧
      p.elements ≠ q.elements ∧ ¬ p.elements <+: q.elements ∧
      Constraints.elements [p, q] ≠ Constraints.elements [q, p] ∧
      wordSize < Modulus.pallasBase.value ∧ large.Fits := by
  intro p q large
  have hp : p.Fits := by decide
  have hq : q.Fits := by decide
  have hne : p ≠ q := by decide
  have hlist : [p, q] ≠ [q, p] := fun h => hne (List.cons.inj h).1
  obtain ⟨hsame, hbeginning, hlists, -, -⟩ := elements_collision_free Modulus.seven
  obtain ⟨-, -, -, hfits, hpallas, -⟩ := elements_collision_free Modulus.pallasBase
  refine ⟨hp, hq, by decide, by decide, fun h => hne ((hsame p q hp.1 hq.1).1 h),
    fun h => hne (hbeginning p q hp hq h), fun h => hlist ((hlists [p, q] [q, p] ?_ ?_).1 h),
    hpallas, hfits hpallas large⟩
  · exact List.forall_mem_cons.2 ⟨hp, List.forall_mem_singleton.2 hq⟩
  · exact List.forall_mem_cons.2 ⟨hq, List.forall_mem_singleton.2 hp⟩

/-- Without the bound on the indices there are collisions: over seven, `x0` and `x7` are written
alike. -/
example : (Form.ofVar ⟨0, by decide⟩ : Form Modulus.seven).elements =
    (Form.ofVar ⟨7, by decide⟩ : Form Modulus.seven).elements := by
  decide

end AffineForms
