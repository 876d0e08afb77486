import Mathlib.Data.Finset.Card
import AffineForms.Proofs.Form.Denotation

/-!
# Relabelling — a renaming is refused when it makes two variables one

`Form.relabel` accumulates the terms under their new names and then compares two numbers: how many
terms it has got, and how many there were.  Terms with one new name are added up, and while that
happens their sum may reach zero, so that the entry is removed, and a later term may enter it again.

The comparison is exact all the same.  What has been accumulated is known by its value
(`Form.eval_renamed`), so a name that no variable is given has the coefficient zero at the end, and
is not stored.  The entries therefore go by the names that are given, and of these there are fewer
than variables as soon as two variables share one.

* `Form.coeffAt_renamed`: a variable that shares its name with no other keeps its coefficient;
* `Form.size_renamed_eq_iff`: the two numbers agree when the variables are kept apart;
* `Form.relabel_eq_ok_iff`, `Form.exists_relabel`: when there is an answer, and which one.
-/

namespace AffineForms

/-! ## The variables of a map -/

theorem VarMap.card_keys {α : Type} (m : VarMap α) : m.keys.toFinset.card = m.size := by
  rw [List.toFinset_card_of_nodup m.nodup_keys, keys, List.length_map, size]

variable {M : Modulus}

theorem Assignment.weigh_rename (s : Assignment M) (f : Var → Var)
    (terms : List (Var × Residue M)) :
    s.weigh (terms.map fun e => (f e.1, e.2)) = Assignment.weigh (fun v => s (f v)) terms := by
  simp [weigh, read, Function.comp_def]

namespace Form

variable {p q : Form M} {f : Var → Var} {v w : Var}

theorem coe_vars (p : Form M) : (p.vars.toFinset : Set Var) = p.support := by
  rw [List.coe_toFinset]
  ext v
  exact VarMap.mem_keys_iff

/-! ## The accumulated terms -/

theorem zeroFree_renamed (p : Form M) (f : Var → Var) : (p.renamed f).ZeroFree :=
  Terms.zeroFree_accumulate Terms.zeroFree_empty _

/-- The terms under their new names read a value through the renaming. -/
theorem eval_renamed (p : Form M) (f : Var → Var) (s : Assignment M) :
    (⟨p.constant, p.renamed f⟩ : Form M).eval s = p.eval fun v => s (f v) := by
  rw [eval_eq, eval_eq, renamed, Terms.weigh_accumulate, Terms.weigh_empty, zero_add,
    Assignment.weigh_rename]

theorem coeffAt_renamed_eq_eval (p : Form M) (f : Var → Var) (w : Var) :
    (p.renamed f).coeffAt w =
      (p.eval fun v => Probe.ofMaps.unit w (f v)) -
        p.eval fun v => Probe.ofMaps.origin (f v) := by
  have hcoeff := coeffAt_eq_eval Probe.ofMaps ⟨p.constant, p.renamed f⟩ w
  rwa [eval_renamed, eval_renamed] at hcoeff

theorem coeffAt_renamed_of_notMem (h : w ∉ f '' p.support) : (p.renamed f).coeffAt w = 0 := by
  rw [coeffAt_renamed_eq_eval, sub_eq_zero]
  -- Through the renaming no variable of the form reads the one that is set.
  refine p.dependsOn_eval fun u hu => ?_
  have hne : f u ≠ w := fun heq => h ⟨u, hu, heq⟩
  exact if_neg hne

/-- A variable that shares its new name with no variable of the form keeps its coefficient, which is
zero if it does not occur. -/
theorem coeffAt_renamed (h : Set.InjOn f (insert v p.support)) :
    (p.renamed f).coeffAt (f v) = p.terms.coeffAt v := by
  rw [coeffAt_renamed_eq_eval, coeffAt_eq_eval Probe.ofMaps]
  -- Where `f v` alone reads one under the new names, `v` alone does under the old ones.
  refine congrArg₂ _ (p.dependsOn_eval fun u hu => ?_) rfl
  have hiff : f u = f v ↔ u = v :=
    h.eq_iff (Set.mem_insert_of_mem v hu) (Set.mem_insert v p.support)
  exact if_congr hiff rfl rfl

/-! ## How many terms there are -/

theorem keys_renamed_subset (p : Form M) (f : Var → Var) :
    (p.renamed f).keys.toFinset ⊆ p.vars.toFinset.image f := by
  intro w hw
  by_contra hnot
  have himage : w ∉ f '' p.support := by
    rw [← coe_vars]
    simpa using hnot
  have habsent : (p.renamed f).contains w = false :=
    (Terms.contains_eq_false_iff (p.zeroFree_renamed f)).2 (coeffAt_renamed_of_notMem himage)
  rw [List.mem_toFinset, VarMap.mem_keys_iff, habsent] at hw
  cases hw

theorem keys_renamed (hp : p.Valid) (h : Set.InjOn f p.support) :
    (p.renamed f).keys.toFinset = p.vars.toFinset.image f := by
  refine (p.keys_renamed_subset f).antisymm fun w hw => ?_
  rcases Finset.mem_image.1 hw with ⟨v, hv, rfl⟩
  have hmem : v ∈ p.support := by
    rw [← coe_vars]
    exact hv
  have hinsert : Set.InjOn f (insert v p.support) := by rwa [Set.insert_eq_of_mem hmem]
  rw [List.mem_toFinset, VarMap.mem_keys_iff]
  by_contra habsent
  -- The coefficient is the one of `v`, which is not zero.
  have hzero : p.terms.coeffAt v = 0 := by
    rw [← coeffAt_renamed hinsert]
    exact Terms.coeffAt_of_contains_eq_false (by simpa using habsent)
  have hnot : p.mentions v = false := (Terms.contains_eq_false_iff hp.2).2 hzero
  exact absurd (hnot.symm.trans hmem) (by decide)

theorem size_renamed_le (p : Form M) (f : Var → Var) : (p.renamed f).size ≤ p.size :=
  calc
    (p.renamed f).size = (p.renamed f).keys.toFinset.card := (p.renamed f).card_keys.symm
    _ ≤ (p.vars.toFinset.image f).card := Finset.card_le_card (p.keys_renamed_subset f)
    _ ≤ p.vars.toFinset.card := Finset.card_image_le
    _ = p.size := p.terms.card_keys

theorem size_renamed_eq_iff (hp : p.Valid) :
    (p.renamed f).size = p.size ↔ Set.InjOn f p.support := by
  constructor
  · intro hsize
    -- As many entries as variables need as many names, so no name is given twice.
    have hnames : p.vars.toFinset.card ≤ (p.vars.toFinset.image f).card :=
      calc
        p.vars.toFinset.card = p.size := p.terms.card_keys
        _ = (p.renamed f).size := hsize.symm
        _ = (p.renamed f).keys.toFinset.card := (p.renamed f).card_keys.symm
        _ ≤ (p.vars.toFinset.image f).card := Finset.card_le_card (p.keys_renamed_subset f)
    rw [← coe_vars]
    exact Finset.card_image_iff.1 (le_antisymm Finset.card_image_le hnames)
  · intro hinj
    have hnames : (p.vars.toFinset.image f).card = p.vars.toFinset.card :=
      Finset.card_image_iff.2 (by rwa [coe_vars])
    calc
      (p.renamed f).size = (p.renamed f).keys.toFinset.card := (p.renamed f).card_keys.symm
      _ = p.vars.toFinset.card := by rw [keys_renamed hp hinj, hnames]
      _ = p.size := p.terms.card_keys

/-! ## The answer -/

theorem relabel_eq_ok_iff (hp : p.Valid) :
    p.relabel f = .ok q ↔ Set.InjOn f p.support ∧ q = ⟨p.constant, p.renamed f⟩ := by
  rw [relabel_eq, ← size_renamed_eq_iff hp]
  by_cases hsize : (p.renamed f).size = p.size
  · simp [hsize, eq_comm]
  · simp [hsize]

section Accepted

variable (hp : p.Valid) (hq : p.relabel f = .ok q)

include hp hq

theorem valid_of_relabel : q.Valid := by
  have hshape := keepsShape_relabel hp f
  rwa [hq] at hshape

theorem eval_of_relabel (s : Assignment M) : q.eval s = p.eval fun v => s (f v) := by
  obtain ⟨-, rfl⟩ := (relabel_eq_ok_iff hp).1 hq
  exact p.eval_renamed f s

theorem coeffAt_of_relabel (h : Set.InjOn f (insert v p.support)) :
    q.terms.coeffAt (f v) = p.terms.coeffAt v := by
  obtain ⟨-, rfl⟩ := (relabel_eq_ok_iff hp).1 hq
  exact coeffAt_renamed h

theorem support_of_relabel : q.support = f '' p.support := by
  obtain ⟨hinj, rfl⟩ := (relabel_eq_ok_iff hp).1 hq
  rw [← coe_vars, ← coe_vars, ← Finset.coe_image]
  exact congrArg _ (keys_renamed hp hinj)

end Accepted

theorem exists_relabel (hp : p.Valid) (h : Set.InjOn f p.support) :
    ∃ q, p.relabel f = .ok q ∧ q.Valid ∧ ∀ s, q.eval s = p.eval fun v => s (f v) := by
  have hok : p.relabel f = .ok ⟨p.constant, p.renamed f⟩ := (relabel_eq_ok_iff hp).2 ⟨h, rfl⟩
  exact ⟨_, hok, valid_of_relabel hp hok, eval_of_relabel hp hok⟩

end Form

/-- A renaming is refused exactly when it gives one name to two variables of the form, whatever
cancels and comes back while the terms are accumulated.  The refusal reports fewer terms than there
were.  When there is an answer, it has the constant of the form, the coefficient of each variable at
its new name, and no other term. -/
theorem relabel_detects_collisions {p : Form M} (hp : p.Valid) (f : Var → Var) :
    ((∃ fault, p.relabel f = .error fault) ↔ ¬ Set.InjOn f p.support) ∧
      (∀ fault, p.relabel f = .error fault →
        ∃ found, found < p.size ∧ fault = .collision found p.size) ∧
      ∀ q, p.relabel f = .ok q →
        q.Valid ∧ q.constant = p.constant ∧
          (∀ v ∈ p.support, q.coefficient? (f v) = p.coefficient? v) ∧
          ∀ w ∈ q.support, ∃ v ∈ p.support, f v = w := by
  refine ⟨⟨?_, ?_⟩, ?_, ?_⟩
  · rintro ⟨fault, hfault⟩ hinj
    obtain ⟨q, hq, -⟩ := Form.exists_relabel hp hinj
    rw [hq] at hfault
    cases hfault
  · intro hnot
    cases hrelabel : p.relabel f with
    | error fault => exact ⟨fault, rfl⟩
    | ok q => exact absurd ((Form.relabel_eq_ok_iff hp).1 hrelabel).1 hnot
  · intro fault hfault
    rw [Form.relabel_eq] at hfault
    split at hfault
    · cases hfault
    · rename_i hsize
      cases hfault
      exact ⟨_, lt_of_le_of_ne (p.size_renamed_le f) hsize, rfl⟩
  · intro q hq
    have hvalid : q.Valid := Form.valid_of_relabel hp hq
    obtain ⟨hinj, hvalue⟩ := (Form.relabel_eq_ok_iff hp).1 hq
    refine ⟨hvalid, by rw [hvalue], ?_, ?_⟩
    · intro v hv
      have hcoeff : q.terms.coeffAt (f v) = p.terms.coeffAt v :=
        Form.coeffAt_of_relabel hp hq (by rwa [Set.insert_eq_of_mem hv])
      rw [Form.coefficient?, Form.coefficient?, Terms.get?_eq_coeffAt hvalid.2,
        Terms.get?_eq_coeffAt hp.2, hcoeff]
    · intro w hw
      rwa [Form.support_of_relabel hp hq] at hw

/-- Over seven, the variables of `x0 - x1 + 3·x2` are all named `x3`.  The first two terms cancel
and their entry is removed; the third enters it again, so that one term of three is left.  With `x0`
alone named `x3` the terms are kept, and the first becomes the last. -/
theorem relabel_detects_collisions_seven :
    let p : Form Modulus.seven :=
      ⟨0, ⟨[(exampleVar 0, 1), (exampleVar 1, ⟨6, by decide⟩), (exampleVar 2, ⟨3, by decide⟩)],
        by decide⟩⟩
    let q : Form Modulus.seven :=
      ⟨0, ⟨[(exampleVar 1, ⟨6, by decide⟩), (exampleVar 2, ⟨3, by decide⟩), (exampleVar 3, 1)],
        by decide⟩⟩
    let collide : Var → Var := fun _ => exampleVar 3
    let move : Var → Var := fun v => if v = exampleVar 0 then exampleVar 3 else v
    p.Valid ∧ p.relabel collide = .error (.collision 1 3) ∧ ¬ Set.InjOn collide p.support ∧
      p.relabel move = .ok q ∧ Set.InjOn move p.support ∧
      q.coefficient? (exampleVar 3) = p.coefficient? (exampleVar 0) := by
  intro p q collide move
  have hp : p.Valid := by decide
  have hrefused : p.relabel collide = .error (.collision 1 3) := by decide
  have haccepted : p.relabel move = .ok q := by decide
  obtain ⟨hcollide, -, -⟩ := relabel_detects_collisions hp collide
  obtain ⟨hmove, -, hparts⟩ := relabel_detects_collisions hp move
  obtain ⟨-, -, hcoefficient, -⟩ := hparts q haccepted
  refine ⟨hp, hrefused, hcollide.1 ⟨_, hrefused⟩, haccepted, ?_,
    hcoefficient (exampleVar 0) (by decide : p.mentions (exampleVar 0) = true)⟩
  by_contra hnot
  obtain ⟨fault, hfault⟩ := hmove.2 hnot
  rw [haccepted] at hfault
  cases hfault

end AffineForms
