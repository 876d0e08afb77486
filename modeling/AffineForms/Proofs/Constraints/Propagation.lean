import Mathlib.Data.Set.Card
import AffineForms.Proofs.Constraints.Simplification

/-!
# Propagation — rounds of known values stop raising flags

Known values are assigned to a system in rounds, until a round raises no flag.  Each round may bring
other values, and goes on with forms that remained in the round before.

The measure is the number of terms.  In a form it drops by the number of bound variables, and the
flag says whether there are any (`Form.size_assigned`, `Form.flag_assigned_iff`).  So a round that
raises a flag takes at least one term out of the system, and no round adds one (`Rounds.step`);
counted over a run, the rounds that raise a flag are at most as many as there were terms at the
start (`Rounds.flagged_add_termCount_le`, `Rounds.encard_flagged_le`).

`flagged_rounds_bounded` states this for finite and for infinite sequences of rounds.  From valid
forms there are infinite ones for any values (`rounds_propagate`).
-/

namespace AffineForms

variable {M : Modulus}

/-! ## The terms of one form -/

theorem Affine.size_eq_size_terms (r : Affine M) : r.size = r.terms.size := by
  cases r with
  | constant c => rfl
  | form p => rfl

theorem Affine.size_collapse (c : Residue M) (terms : Terms M) :
    (collapse c terms).size = terms.size := by
  rw [size_eq_size_terms, terms_collapse]

namespace Form

/-- The number of variables of a form that have a value. -/
def boundCount (p : Form M) (bindings : Assignment M) : ℕ :=
  p.vars.countP fun v => (bindings v).isSome

theorem boundCount_eq (p : Form M) (bindings : Assignment M) :
    p.boundCount bindings = p.terms.entries.countP fun e => (bindings e.1).isSome :=
  List.countP_map

/-- Assigning takes out the terms of the bound variables, and no others. -/
theorem size_assigned (p : Form M) (bindings : Assignment M) :
    (p.assigned bindings).1.size + p.boundCount bindings = p.size := by
  have hkept : (p.assigned bindings).1.size =
      p.terms.entries.countP fun e => (bindings e.1).isNone := by
    rw [assigned, Affine.size_collapse, remainder_eq, VarMap.size, VarMap.filter,
      List.countP_eq_length_filter]
  have hsplit : p.size = p.terms.entries.countP (fun e => (bindings e.1).isSome) +
      p.terms.entries.countP fun e => (bindings e.1).isNone := by
    rw [size, VarMap.size, List.length_eq_countP_add_countP fun e => (bindings e.1).isSome]
    exact congrArg _ (List.countP_congr fun e _ => by simp)
  rw [hkept, boundCount_eq, hsplit, Nat.add_comm]

theorem flag_assigned_iff (p : Form M) (bindings : Assignment M) :
    (p.assigned bindings).2 = true ↔ 0 < p.boundCount bindings := by
  rw [assigned, remainder_eq, boundCount_eq, List.any_eq_true, List.countP_pos_iff]

end Form

namespace Constraints

/-! ## The terms of a system -/

/-- The number of terms of a system. -/
def termCount (forms : List (Form M)) : ℕ := (forms.map Form.size).sum

/-- Whether one of the flags is up. -/
def raisesFlag (results : List (Affine M × Bool)) : Bool := results.any Prod.snd

/-- Constants have no terms, so the forms that remain have all of them. -/
theorem termCount_remaining (results : List (Affine M × Bool)) :
    termCount (remaining results) = (results.map fun e => e.1.size).sum := by
  induction results with
  | nil => rfl
  | cons e results ih =>
      obtain ⟨r, flag⟩ := e
      cases r with
      | constant c =>
          rw [List.map_cons, List.sum_cons, ← ih]
          exact (Nat.zero_add _).symm
      | form p =>
          rw [List.map_cons, List.sum_cons, ← ih]
          rfl

theorem termCount_le_of_subperm {kept forms : List (Form M)} (h : kept.Subperm forms) :
    termCount kept ≤ termCount forms := by
  obtain ⟨l, hperm, hsublist⟩ := h
  calc
    termCount kept = termCount l := (hperm.map Form.size).sum_eq.symm
    _ ≤ termCount forms := (hsublist.map Form.size).sum_le_sum fun _ _ => Nat.zero_le _

theorem termCount_remaining_assigned (forms : List (Form M)) (bindings : Assignment M) :
    termCount (remaining (forms.map fun p => p.assigned bindings)) +
        (forms.map fun p => p.boundCount bindings).sum = termCount forms := by
  rw [termCount_remaining, List.map_map, ← List.sum_map_add, termCount]
  exact congrArg List.sum (List.map_congr_left fun p _ => p.size_assigned bindings)

theorem sum_boundCount_pos {forms : List (Form M)} {bindings : Assignment M}
    (h : raisesFlag (forms.map fun p => p.assigned bindings) = true) :
    0 < (forms.map fun p => p.boundCount bindings).sum := by
  obtain ⟨e, he, hflag⟩ := List.any_eq_true.1 h
  obtain ⟨p, hp, rfl⟩ := List.mem_map.1 he
  have hbound : 0 < p.boundCount bindings := (p.flag_assigned_iff bindings).1 hflag
  exact Nat.lt_of_lt_of_le hbound (List.le_sum_of_mem (List.mem_map_of_mem hp))

/-! ## Rounds -/

/-- Rounds of known values, `length` of them or without an end.  Each assigns values of its own to
the system, and the next one takes some of the forms that remain, in any order. -/
structure Rounds (length : ℕ∞) (system : ℕ → List (Form M)) (bindings : ℕ → Assignment M)
    (results : ℕ → List (Affine M × Bool)) : Prop where
  valid : ∀ p ∈ system 0, p.Valid
  answers : ∀ n : ℕ, n < length → assign (system n) (bindings n) = .ok (results n)
  goesOn : ∀ n : ℕ, n < length → (system (n + 1)).Subperm (remaining (results n))

namespace Rounds

variable {length : ℕ∞} {system : ℕ → List (Form M)} {bindings : ℕ → Assignment M}
  {results : ℕ → List (Affine M × Bool)} {n : ℕ}

theorem lt_of_succ_le (h : ((n + 1 : ℕ) : ℕ∞) ≤ length) : (n : ℕ∞) < length :=
  lt_of_lt_of_le (Nat.cast_lt.2 n.lt_succ_self) h

theorem results_eq_of_valid (h : Rounds length system bindings results) (hn : n < length)
    (hvalid : ∀ p ∈ system n, p.Valid) :
    results n = (system n).map fun p => p.assigned (bindings n) :=
  Except.ok.inj ((h.answers n hn).symm.trans (assign_eq_ok hvalid (bindings n)))

theorem valid_system (h : Rounds length system bindings results) (hn : n ≤ length) :
    ∀ p ∈ system n, p.Valid := by
  induction n with
  | zero => exact h.valid
  | succ n ih =>
      have hlt := lt_of_succ_le hn
      have hvalid := ih hlt.le
      intro p hp
      have hremains := (h.goesOn n hlt).subset hp
      rw [h.results_eq_of_valid hlt hvalid] at hremains
      exact valid_of_mem_remaining hvalid (bindings n) hremains

theorem results_eq (h : Rounds length system bindings results) (hn : n < length) :
    results n = (system n).map fun p => p.assigned (bindings n) :=
  h.results_eq_of_valid hn (h.valid_system hn.le)

/-- One round: a flag takes at least one term with it. -/
theorem step (h : Rounds length system bindings results) (hn : n < length) :
    (raisesFlag (results n)).toNat + termCount (system (n + 1)) ≤ termCount (system n) := by
  have hkept := termCount_le_of_subperm (h.goesOn n hn)
  rw [h.results_eq hn] at hkept ⊢
  have htotal := termCount_remaining_assigned (system n) (bindings n)
  cases hflag : raisesFlag ((system n).map fun p => p.assigned (bindings n)) with
  | false =>
      rw [Bool.toNat_false]
      omega
  | true =>
      have hpos := sum_boundCount_pos hflag
      rw [Bool.toNat_true]
      omega

/-- After any number of rounds, the flags raised so far and the terms that are left together are at
most as many as the terms at the start. -/
theorem flagged_add_termCount_le (h : Rounds length system bindings results) (hn : n ≤ length) :
    ((Finset.range n).filter fun i => raisesFlag (results i) = true).card + termCount (system n) ≤
      termCount (system 0) := by
  induction n with
  | zero => simp
  | succ n ih =>
      have hlt := lt_of_succ_le hn
      have hstep := h.step hlt
      have hrest := ih hlt.le
      rw [Finset.range_add_one, Finset.filter_insert]
      cases hflag : raisesFlag (results n) with
      | false =>
          rw [hflag, Bool.toNat_false] at hstep
          rw [if_neg Bool.false_ne_true]
          omega
      | true =>
          rw [hflag, Bool.toNat_true] at hstep
          rw [if_pos rfl, Finset.card_insert_of_notMem (by simp)]
          omega

theorem exists_bound_of_forall_lt {length : ℕ∞} (rounds : Finset ℕ)
    (h : ∀ n ∈ rounds, (n : ℕ∞) < length) : ∃ n : ℕ, n ≤ length ∧ rounds ⊆ Finset.range n := by
  cases length with
  | top =>
      obtain ⟨n, hn⟩ := rounds.exists_nat_subset_range
      exact ⟨n, le_top, hn⟩
  | coe n => exact ⟨n, le_rfl, fun i hi => Finset.mem_range.2 (Nat.cast_lt.1 (h i hi))⟩

/-- More flagged rounds than terms would show after finitely many rounds. -/
theorem encard_flagged_le (h : Rounds length system bindings results) :
    {n : ℕ | n < length ∧ raisesFlag (results n) = true}.encard ≤ termCount (system 0) := by
  by_contra hmany
  have hmore : ((termCount (system 0) + 1 : ℕ) : ℕ∞) ≤
      {n : ℕ | n < length ∧ raisesFlag (results n) = true}.encard :=
    Order.add_one_le_of_lt (not_le.1 hmany)
  obtain ⟨flagged, hflagged, hcard⟩ := Set.exists_subset_encard_eq hmore
  have hfinite : flagged.Finite := Set.finite_of_encard_eq_coe hcard
  lift flagged to Finset ℕ using hfinite
  rw [Set.encard_coe_eq_coe_finsetCard, Nat.cast_inj] at hcard
  obtain ⟨n, hn, hrange⟩ := exists_bound_of_forall_lt flagged fun i hi => (hflagged hi).1
  have hsubset : flagged ⊆ (Finset.range n).filter fun i => raisesFlag (results i) = true :=
    fun i hi => Finset.mem_filter.2 ⟨hrange hi, (hflagged hi).2⟩
  have hle := Finset.card_le_card hsubset
  have hbound := h.flagged_add_termCount_le hn
  omega

end Rounds

/-! ### Rounds without an end -/

/-- The systems that come about when all the forms that remain go on. -/
def propagate (forms : List (Form M)) (values : ℕ → Assignment M) : ℕ → List (Form M)
  | 0 => forms
  | n + 1 => remaining ((propagate forms values n).map fun p => p.assigned (values n))

theorem valid_propagate {forms : List (Form M)} (hforms : ∀ p ∈ forms, p.Valid)
    (values : ℕ → Assignment M) (n : ℕ) : ∀ p ∈ propagate forms values n, p.Valid := by
  induction n with
  | zero => exact hforms
  | succ n ih => exact fun p hp => valid_of_mem_remaining ih (values n) hp

/-- From valid forms, rounds can go on without an end for any values. -/
theorem rounds_propagate {forms : List (Form M)} (hforms : ∀ p ∈ forms, p.Valid)
    (values : ℕ → Assignment M) :
    Rounds ⊤ (propagate forms values) values fun n =>
      (propagate forms values n).map fun p => p.assigned (values n) where
  valid := hforms
  answers n _ := assign_eq_ok (valid_propagate hforms values n) (values n)
  goesOn _ _ := List.Subperm.refl _

/-! ### The bound -/

/-- In rounds of known values on a system of valid forms, whether they come to an end or not, every
round answers, whatever the values.  An entry is flagged exactly when its number of terms drops, and
it drops by the number of its bound variables, where a constant has no terms.  So the terms of the
system never become more, and become fewer in each round that raises a flag; and the rounds that
raise a flag are at most as many as the terms of the first system. -/
theorem flagged_rounds_bounded {length : ℕ∞} {system : ℕ → List (Form M)}
    {bindings : ℕ → Assignment M} {results : ℕ → List (Affine M × Bool)}
    (h : Rounds length system bindings results) :
    (∀ n : ℕ, n ≤ length → ∀ values, ∃ answers, assign (system n) values = .ok answers) ∧
      (∀ n : ℕ, n < length →
        List.Forall₂ (fun p answer =>
            (answer.2 = true ↔ answer.1.size < p.size) ∧
              answer.1.size + p.boundCount (bindings n) = p.size)
          (system n) (results n) ∧
        termCount (system (n + 1)) ≤ termCount (system n) ∧
        (raisesFlag (results n) = true → termCount (system (n + 1)) < termCount (system n))) ∧
      {n : ℕ | n < length ∧ raisesFlag (results n) = true}.encard ≤ termCount (system 0) := by
  refine ⟨fun n hn values => ⟨_, assign_eq_ok (h.valid_system hn) values⟩, fun n hn => ⟨?_, ?_, ?_⟩,
    h.encard_flagged_le⟩
  · rw [h.results_eq hn, List.forall₂_map_right_iff, List.forall₂_same]
    intro p _
    have hsize := p.size_assigned (bindings n)
    refine ⟨?_, hsize⟩
    rw [p.flag_assigned_iff]
    omega
  · exact le_trans (Nat.le_add_left _ _) (h.step hn)
  · intro hflag
    have hstep := h.step hn
    rw [hflag, Bool.toNat_true] at hstep
    omega

/-- Over seven, with `x0` one in the first round and `x2` two in all others.  The first two rounds
raise a flag, and the first system has three terms. -/
theorem flagged_rounds_bounded_endless :
    let forms := [Form.sample, .pin Supply.initial.next 1]
    let values : ℕ → Assignment Modulus.seven := fun n =>
      if n = 0 then .ofList [1] else .ofList [0, 0, Residue.ofNat 2]
    let results := fun n => (propagate forms values n).map fun p => p.assigned (values n)
    Rounds ⊤ (propagate forms values) values results ∧ raisesFlag (results 0) = true ∧
      termCount (propagate forms values 1) < termCount forms ∧ raisesFlag (results 1) = true ∧
      {n : ℕ | (n : ℕ∞) < ⊤ ∧ raisesFlag (results n) = true}.encard ≤ 3 := by
  intro forms values results
  have hrounds : Rounds ⊤ (propagate forms values) values results :=
    rounds_propagate (by decide) values
  obtain ⟨-, hround, hbound⟩ := flagged_rounds_bounded hrounds
  have hflag : raisesFlag (results 0) = true := by decide
  exact ⟨hrounds, hflag, (hround 0 (ENat.natCast_lt_top 0)).2.2 hflag, by decide, hbound⟩

end Constraints
end AffineForms
