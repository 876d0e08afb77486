import AffineForms.Proofs.Form.Assigning

/-!
# Rounds — values that become known one round after the other

Values may be assigned in rounds, each to what the round before has left.  A value that has
collapsed takes no further part: it is passed through with the flag down (`Affine.assignRound`).

In the end it does not matter how the values were spread over the rounds.  One round with the first
value that any of them gives to a variable (`Assignment.firstOf`) has the same answer, and raises
its flag if one of the rounds does:

* `Affine.assigned_orElse` is the step: two rounds are one round;
* `Affine.assignRounds_eq_ok` is the run: any number of rounds are one round.

The order of the rounds matters only where they give different values to the same variable
(`Assignment.Compatible`).
-/

namespace AffineForms

variable {M : Modulus}

/-! ## Values from several rounds -/

namespace Assignment

/-- For each variable the first value that one of the assignments gives to it. -/
def firstOf (rounds : List (Assignment M)) : Assignment M :=
  rounds.foldr orElse fun _ => none

/-- Where both assignments have a value it is the same; there may be no such variable. -/
def Compatible (a b : Assignment M) : Prop := ∀ v, a v = none ∨ b v = none ∨ a v = b v

instance : Std.Symm (Compatible (M := M)) where
  symm a b h v := by
    rcases h v with hnone | hnone | heq
    · exact Or.inr (Or.inl hnone)
    · exact Or.inl hnone
    · exact Or.inr (Or.inr heq.symm)

theorem orElse_comm {a b : Assignment M} (h : a.Compatible b) : a.orElse b = b.orElse a := by
  funext v
  rcases h v with hnone | hnone | heq
  · simp [orElse, hnone]
  · simp [orElse, hnone]
  · rw [orElse, orElse, heq]

theorem firstOf_eq_of_perm {rounds others : List (Assignment M)} (hperm : rounds.Perm others)
    (h : rounds.Pairwise Compatible) : firstOf rounds = firstOf others := by
  have hall : ∀ a ∈ rounds, ∀ b ∈ rounds, a.Compatible b := fun a ha b hb =>
    h.forall_of_forall (fun _ _ _ => Or.inr (Or.inr rfl)) ha hb
  refine hperm.foldr_eq' (fun a ha b hb s => ?_) _
  rw [← orElse_assoc, ← orElse_assoc, orElse_comm (hall a ha b hb)]

end Assignment

/-! ## One round -/

namespace Affine

/-- Replaces the bound variables of a value and tells whether there were any; a constant has
none. -/
def assignRound (r : Affine M) (bindings : Assignment M) : Except Fault (Affine M × Bool) :=
  match r with
  | constant c => .ok (constant c, false)
  | form p => p.assign bindings

/-- The answer of a round, which never fails on a valid value. -/
def assigned (r : Affine M) (bindings : Assignment M) : Affine M × Bool :=
  match r with
  | constant c => (constant c, false)
  | form p => p.assigned bindings

variable {r : Affine M}

theorem assignRound_eq_ok (hr : r.Valid) (bindings : Assignment M) :
    r.assignRound bindings = .ok (r.assigned bindings) := by
  cases r with
  | constant c => rfl
  | form p => exact Form.assign_eq_ok_assigned hr bindings

theorem valid_assigned (hr : r.Valid) (bindings : Assignment M) :
    (r.assigned bindings).1.Valid := by
  cases r with
  | constant c => trivial
  | form p => exact Form.valid_assigned hr bindings

theorem eval_assigned (hr : r.Valid) (bindings s : Assignment M) :
    (r.assigned bindings).1.eval s = r.eval (bindings.orElse s) := by
  cases r with
  | constant c => rfl
  | form p => exact Form.eval_assigned hr bindings s

theorem mentions_assigned_iff (r : Affine M) (bindings : Assignment M) (v : Var) :
    (r.assigned bindings).1.mentions v = true ↔ r.mentions v = true ∧ bindings v = none := by
  cases r with
  | constant c => simp [assigned, mentions, terms, VarMap.contains]
  | form p =>
      have hget := p.get?_terms_assigned bindings v
      rw [mentions, VarMap.contains, assigned, hget]
      cases hbound : bindings v with
      | none => simp [mentions, terms, VarMap.contains, Form.coefficient?]
      | some x => simp

theorem flag_assigned_iff (r : Affine M) (bindings : Assignment M) :
    (r.assigned bindings).2 = true ↔ ∃ v, r.mentions v = true ∧ (bindings v).isSome := by
  cases r with
  | constant c => simp [assigned, mentions, terms, VarMap.contains]
  | form p => exact p.flag_assigned_iff_exists bindings

theorem assigned_of_unbound (hr : r.Valid) {bindings : Assignment M}
    (h : ∀ v, r.mentions v = true → bindings v = none) : r.assigned bindings = (r, false) := by
  cases r with
  | constant c => rfl
  | form p => exact Form.assigned_of_unbound hr h

/-- A round finds nothing to do where the same values were assigned before. -/
theorem assigned_again (hr : r.Valid) (bindings : Assignment M) :
    (r.assigned bindings).1.assigned bindings = ((r.assigned bindings).1, false) :=
  assigned_of_unbound (valid_assigned hr bindings) fun v hv =>
    ((r.mentions_assigned_iff bindings v).1 hv).2

/-! ## Rounds one after the other -/

/-- A variable of the value is bound in one of two rounds exactly when it is bound in the first, or
else is still there in the second and bound then. -/
theorem flag_assigned_orElse (r : Affine M) (a b : Assignment M) :
    (r.assigned (a.orElse b)).2 = ((r.assigned a).2 || ((r.assigned a).1.assigned b).2) := by
  rw [Bool.eq_iff_iff, Bool.or_eq_true, flag_assigned_iff, flag_assigned_iff, flag_assigned_iff]
  simp only [mentions_assigned_iff, Assignment.orElse]
  constructor
  · rintro ⟨v, hv, hbound⟩
    cases ha : a v with
    | none => exact Or.inr ⟨v, ⟨hv, ha⟩, by simpa [ha] using hbound⟩
    | some x => exact Or.inl ⟨v, hv, by rw [ha, Option.isSome_some]⟩
  · rintro (⟨v, hv, hbound⟩ | ⟨v, ⟨hv, ha⟩, hbound⟩)
    · exact ⟨v, hv, by simp [hbound]⟩
    · exact ⟨v, hv, by simp [hbound]⟩

/-- Two rounds are one round, in which the values of the first come first. -/
theorem assigned_orElse (hr : r.Valid) (a b : Assignment M) :
    r.assigned (a.orElse b) =
      (((r.assigned a).1.assigned b).1, (r.assigned a).2 || ((r.assigned a).1.assigned b).2) := by
  have hfirst := valid_assigned hr a
  -- The two maps are built in different ways, so the values are compared by what they evaluate to.
  refine Prod.ext ?_ (r.flag_assigned_orElse a b)
  refine eq_of_forall_eval_eq (valid_assigned hr _) (valid_assigned hfirst b) fun s => ?_
  rw [eval_assigned hr, eval_assigned hfirst, eval_assigned hr, Assignment.orElse_assoc]

/-- Assigns values in rounds and tells whether any of the rounds raised its flag. -/
def assignRounds (r : Affine M) : List (Assignment M) → Except Fault (Affine M × Bool)
  | [] => .ok (r, false)
  | bindings :: later =>
      match r.assignRound bindings with
      | .error fault => .error fault
      | .ok (next, changed) =>
          (next.assignRounds later).map fun (last, flag) => (last, changed || flag)

theorem assignRounds_eq_ok (hr : r.Valid) (rounds : List (Assignment M)) :
    r.assignRounds rounds = .ok (r.assigned (.firstOf rounds)) := by
  induction rounds generalizing r with
  | nil => exact congrArg Except.ok (assigned_of_unbound hr fun _ _ => rfl).symm
  | cons bindings later ih =>
      have hfirst : Assignment.firstOf (bindings :: later) =
          bindings.orElse (Assignment.firstOf later) := rfl
      rw [hfirst, assigned_orElse hr, assignRounds, assignRound_eq_ok hr]
      simp only [ih (valid_assigned hr bindings), Except.map]

/-- The order of the rounds does not matter as long as no two of them give different values to one
variable. -/
theorem assignRounds_eq_of_perm (hr : r.Valid) {rounds others : List (Assignment M)}
    (hperm : rounds.Perm others) (h : rounds.Pairwise Assignment.Compatible) :
    r.assignRounds rounds = r.assignRounds others := by
  rw [assignRounds_eq_ok hr, assignRounds_eq_ok hr, Assignment.firstOf_eq_of_perm hperm h]

end Affine

/-- On a valid form two rounds of values answer what a single round answers with all the values,
where those of the first round come first, and the flag of the single round is up when one of the
two flags is; likewise for any number of rounds.  A second round with the same values changes
nothing and raises no flag.  If no variable gets two different values, the rounds may be swapped. -/
theorem rounds_eq_single_round {p : Form M} (hp : p.Valid) :
    (∀ a b, ∃ value first result second, p.assign a = .ok (value, first) ∧
        value.assignRound b = .ok (result, second) ∧
          p.assign (a.orElse b) = .ok (result, first || second)) ∧
      (∀ rounds, (Affine.form p).assignRounds rounds = p.assign (.firstOf rounds)) ∧
      (∀ a, ∃ value changed, p.assign a = .ok (value, changed) ∧
        value.assignRound a = .ok (value, false)) ∧
      ∀ a b, a.Compatible b →
        (Affine.form p).assignRounds [a, b] = (Affine.form p).assignRounds [b, a] := by
  have hvalid : (Affine.form p).Valid := hp
  refine ⟨fun a b => ?_, fun rounds => ?_, fun a => ?_, fun a b h => ?_⟩
  · refine ⟨_, _, _, _, Form.assign_eq_ok_assigned hp a,
      Affine.assignRound_eq_ok (Form.valid_assigned hp a) b, ?_⟩
    rw [Form.assign_eq_ok_assigned hp]
    exact congrArg Except.ok (Affine.assigned_orElse hvalid a b)
  · exact (Affine.assignRounds_eq_ok hvalid rounds).trans (Affine.assignRound_eq_ok hvalid _).symm
  · refine ⟨(p.assigned a).1, _, Form.assign_eq_ok_assigned hp a, ?_⟩
    rw [Affine.assignRound_eq_ok (Form.valid_assigned hp a)]
    exact congrArg Except.ok (Affine.assigned_again hvalid a)
  · exact Affine.assignRounds_eq_of_perm hvalid (.swap b a []) (by simpa using h)

/-- Over fifteen, five for `x0` in `3·x0 + x1`, and then one for `x0` and two for `x1`: the first
value counts, the second round collapses to two, and one round with both gives the same. -/
theorem rounds_eq_single_round_fifteen :
    let a : Assignment Modulus.fifteen := .ofList [⟨5, by decide⟩]
    let b : Assignment Modulus.fifteen := .ofList [1, ⟨2, by decide⟩]
    let c : Assignment Modulus.fifteen := .ofMap (VarMap.singleton (exampleVar 1) ⟨2, by decide⟩)
    threeAndOne.Valid ∧ a.Compatible c ∧
      ∃ value first result second, threeAndOne.assign a = .ok (value, first) ∧
        value.assignRound b = .ok (result, second) ∧
        threeAndOne.assign (a.orElse b) = .ok (result, first || second) ∧
        result = .constant ⟨2, by decide⟩ ∧
        (Affine.form threeAndOne).assignRounds [a, c] =
          (Affine.form threeAndOne).assignRounds [c, a] := by
  intro a b c
  have hp : threeAndOne.Valid := by decide
  have hcompatible : a.Compatible c := by
    intro v
    by_cases hv : v = exampleVar 1
    · rw [hv]
      exact Or.inl (by decide)
    · exact Or.inr (Or.inl (if_neg hv))
  obtain ⟨htwo, -, -, hswap⟩ := rounds_eq_single_round hp
  obtain ⟨value, first, result, second, hfirst, hsecond, hsingle⟩ := htwo a b
  have hanswer : threeAndOne.assign (a.orElse b) = .ok (.constant ⟨2, by decide⟩, true) := by decide
  have hresult : result = .constant ⟨2, by decide⟩ :=
    congrArg Prod.fst (Except.ok.inj (hsingle.symm.trans hanswer))
  exact ⟨hp, hcompatible, value, first, result, second, hfirst, hsecond, hsingle, hresult,
    hswap a c hcompatible⟩

end AffineForms
