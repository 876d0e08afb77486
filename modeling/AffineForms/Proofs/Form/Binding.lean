import AffineForms.Proofs.Form.Replacement

/-!
# Binding — what is left of a form when some variables get values

`Form.assigned` is the answer of `Form.assign`, which never fails on a form that stores no zero.
Main statements:

* `Form.eval_congr`: the value of a form depends on the variables it mentions only;
* `Form.eval_assigned`: the answer evaluates as the form does with the bound values in front;
* `Form.eq_none_of_mentions_assigned` and `Form.assigned_of_unbound`: the answer mentions no bound
  variable, and a form that mentions none is answered as it is, with the flag down.

`Affine.assign` continues on a value that may have collapsed before.
-/

namespace AffineForms

/-! ## Assignments put together -/

namespace Assignment

variable {M : Modulus}

theorem orElse_assoc (a b c : Assignment M) : (a.orElse b).orElse c = a.orElse (b.orElse c) := by
  funext v
  exact Option.or_assoc

/-- All that `bindings` binds has the same value in `s`. -/
def Extends (s bindings : Assignment M) : Prop := ∀ v x, bindings v = some x → s v = some x

theorem orElse_eq_of_extends {s bindings : Assignment M} (h : s.Extends bindings) :
    bindings.orElse s = s := by
  funext v
  cases hv : bindings v with
  | none => rw [orElse, hv, Option.none_or]
  | some x => rw [orElse, hv, Option.some_or, h v x hv]

theorem read_orElse_of_isSome {bindings : Assignment M} {v : Var} (h : (bindings v).isSome)
    (s : Assignment M) : (bindings.orElse s).read v = bindings.read v := by
  obtain ⟨x, hx⟩ := Option.isSome_iff_exists.1 h
  rw [read, read, orElse, hx, Option.some_or]

theorem weigh_congr {s t : Assignment M} {terms : List (Var × Residue M)}
    (h : ∀ e ∈ terms, s.read e.1 = t.read e.1) : s.weigh terms = t.weigh terms := by
  have hmap : (terms.map fun e => e.2 * s.read e.1) = terms.map fun e => e.2 * t.read e.1 :=
    List.map_congr_left fun e he => by rw [h e he]
  rw [weigh, weigh, hmap]

theorem weigh_of_unbound {s : Assignment M} {terms : List (Var × Residue M)}
    (h : ∀ e ∈ terms, s e.1 = none) : s.weigh terms = 0 := by
  have hread : ∀ e ∈ terms, s.read e.1 = Probe.ofMaps.origin.read e.1 := by
    intro e he
    rw [Probe.read_origin, read, h e he, Option.getD_none]
  rw [weigh_congr hread, weigh_of_read_eq_zero Probe.ofMaps.read_origin]

end Assignment

namespace Form

variable {M : Modulus} {p q : Form M} {v : Var} {bindings : Assignment M}

/-! ## Values depend on the variables that occur -/

theorem mentions_iff : p.mentions v = true ↔ ∃ c, (v, c) ∈ p.terms.entries := by
  simp only [mentions, VarMap.contains_iff, VarMap.get?_eq_some_iff]

theorem mentions_of_mem {e : Var × Residue M} (h : e ∈ p.terms.entries) : p.mentions e.1 = true :=
  mentions_iff.2 ⟨e.2, h⟩

theorem eval_congr {s t : Assignment M} (h : ∀ u, p.mentions u = true → s.read u = t.read u) :
    p.eval s = p.eval t := by
  have hweigh : s.weigh p.terms.entries = t.weigh p.terms.entries :=
    Assignment.weigh_congr fun e he => h e.1 (mentions_of_mem he)
  rw [eval_eq, eval_eq, hweigh]

/-- A form whose variables are all bound evaluates the same whatever else has a value. -/
theorem eval_orElse_of_bound (h : ∀ u, p.mentions u = true → (bindings u).isSome)
    (s : Assignment M) : p.eval (bindings.orElse s) = p.eval bindings :=
  eval_congr fun u hu => Assignment.read_orElse_of_isSome (h u hu) s

/-! ## The answer of an assignment -/

/-- What is left when the bound variables get their values, and whether there were any. -/
def assigned (p : Form M) (bindings : Assignment M) : Affine M × Bool :=
  (Affine.collapse (p.remainder bindings).constant (p.remainder bindings).terms,
    (p.remainder bindings).changed)

theorem assign_eq_ok_assigned (hp : p.Valid) (bindings : Assignment M) :
    p.assign bindings = .ok (p.assigned bindings) :=
  assign_eq_ok hp.2 bindings

theorem valid_assigned (hp : p.Valid) (bindings : Assignment M) :
    (p.assigned bindings).1.Valid :=
  Affine.valid_collapse (zeroFree_remainder hp.2 bindings)

theorem eval_assigned (hp : p.Valid) (bindings s : Assignment M) :
    (p.assigned bindings).1.eval s = p.eval (bindings.orElse s) := by
  obtain ⟨result, hresult, -, heval⟩ := exists_assign hp bindings
  have hvalue : (p.assigned bindings).1 = result := by
    rw [assign_eq_ok_assigned hp] at hresult
    exact congrArg Prod.fst (Except.ok.inj hresult)
  rw [hvalue, heval]

theorem eq_none_of_mentions_assigned (hq : (p.assigned bindings).1 = .form q)
    (hv : q.mentions v = true) : bindings v = none := by
  have hterms : q.terms = (p.remainder bindings).terms := by
    have hcollapse := Affine.terms_collapse (p.remainder bindings).constant
      (p.remainder bindings).terms
    rw [← hcollapse]
    exact (congrArg Affine.terms hq).symm
  obtain ⟨c, hc⟩ := mentions_iff.1 hv
  rw [hterms, remainder_eq] at hc
  -- The terms that are left are those whose variable has no value.
  simpa using (List.mem_filter.1 hc).2

/-- A pass that meets no bound variable changes nothing. -/
theorem assigned_of_unbound (hp : p.Valid) (h : ∀ v, p.mentions v = true → bindings v = none) :
    p.assigned bindings = (.form p, false) := by
  have hnone : ∀ e ∈ p.terms.entries, bindings e.1 = none := fun e he => h e.1 (mentions_of_mem he)
  have hterms : (p.terms.filter fun v _ => (bindings v).isNone) = p.terms :=
    VarMap.ext_entries (List.filter_eq_self.2 fun e he => by simp [hnone e he])
  have hchanged : (p.terms.entries.any fun e => (bindings e.1).isSome) = false :=
    List.any_eq_false.2 fun e he => by simp [hnone e he]
  have hrest : p.remainder bindings = ⟨p.constant, p.terms, false⟩ := by
    rw [remainder_eq, Assignment.weigh_of_unbound hnone, hterms, hchanged, add_zero]
  rw [assigned, hrest, Affine.collapse_of_ne_nil hp.1]

end Form

/-! ## Assigning to a value -/

namespace Affine

variable {M : Modulus}

/-- Replaces the bound variables of a value; a constant has none. -/
def assign (r : Affine M) (bindings : Assignment M) : Except Fault (Affine M) :=
  r.andThen fun p => (p.assign bindings).map Prod.fst

theorem exists_assign {r : Affine M} (hr : r.Valid) (bindings : Assignment M) :
    ∃ result, r.assign bindings = .ok result ∧ result.Valid ∧
      ∀ s, result.eval s = r.eval (bindings.orElse s) := by
  cases r with
  | constant c => exact ⟨.constant c, rfl, trivial, fun _ => rfl⟩
  | form p =>
      obtain ⟨result, hresult, hvalid, heval⟩ := Form.exists_assign hr bindings
      exact ⟨result, by rw [assign, andThen, hresult]; rfl, hvalid, heval⟩

end Affine

end AffineForms
