import AffineForms.VarMap.Basic

/-!
# VarMap lemmas — maps through their lookups

The view of a map is `get?`.  Main statements:

* `get?_alter` says what the one update does, and `get?_insert`, `get?_erase` follow;
* `get?_mapValues`, `get?_filter` for the bulk operations;
* `get?_eq_some_iff` ties lookups to the list of entries;
* `entries_insert_of_forall_lt`: entries inserted in ascending order are appended;
* `ext_get?`: maps with the same lookups are equal.
-/

namespace AffineForms
namespace VarMap

variable {α β : Type}

/-! ## Lookups in ascending lists -/

theorem lookup_eq_none_of_forall {v : Var} {l : List (Var × α)} (h : ∀ e ∈ l, v ≠ e.1) :
    lookup v l = none := by
  induction l with
  | nil => rfl
  | cons head rest ih =>
      obtain ⟨w, a⟩ := head
      have hne : v ≠ w := h (w, a) List.mem_cons_self
      rw [lookup, if_neg hne]
      exact ih fun e he => h e (List.mem_cons_of_mem _ he)

theorem ne_of_lt {v w : Var} (h : v < w) : v ≠ w := by
  rintro rfl
  exact Var.lt_irrefl v h

theorem lookup_eq_some_iff {v : Var} {a : α} {l : List (Var × α)}
    (hl : l.Pairwise fun x y => x.1 < y.1) : lookup v l = some a ↔ (v, a) ∈ l := by
  induction l with
  | nil => simp [lookup]
  | cons head rest ih =>
      obtain ⟨w, b⟩ := head
      have hhead := (List.pairwise_cons.1 hl).1
      have hrest := (List.pairwise_cons.1 hl).2
      by_cases hvw : v = w
      · subst hvw
        have hnot : (v, a) ∉ rest := fun hmem => Var.lt_irrefl v (hhead _ hmem)
        simp [lookup, hnot, eq_comm]
      · simp [lookup, hvw, ih hrest]

theorem lookup_consOption {v w : Var} (o : Option α) {rest : List (Var × α)}
    (hv : ∀ e ∈ rest, v < e.1) :
    lookup w (consOption v o rest) = if w = v then o else lookup w rest := by
  by_cases hwv : w = v
  · subst hwv
    cases o with
    | none =>
        simp only [consOption, if_pos]
        exact lookup_eq_none_of_forall fun e he => ne_of_lt (hv e he)
    | some a => simp [consOption, lookup]
  · cases o with
    | none => simp [consOption, hwv]
    | some a => simp [consOption, lookup, hwv]

theorem lookup_alterEntries {v w : Var} (f : Option α → Option α) {l : List (Var × α)}
    (hl : l.Pairwise fun x y => x.1 < y.1) :
    lookup w (alterEntries v f l) = if w = v then f (lookup v l) else lookup w l := by
  induction l with
  | nil =>
      rw [alterEntries, lookup_consOption _ (by simp)]
      rfl
  | cons head rest ih =>
      obtain ⟨u, a⟩ := head
      have hhead := (List.pairwise_cons.1 hl).1
      have hrest := (List.pairwise_cons.1 hl).2
      unfold alterEntries
      split
      · rename_i hlt
        have hall : ∀ e ∈ (u, a) :: rest, v < e.1 := by
          intro e he
          rcases List.mem_cons.1 he with rfl | he
          · exact hlt
          · exact Var.lt_trans hlt (hhead e he)
        rw [lookup_consOption _ hall,
          lookup_eq_none_of_forall fun e he => ne_of_lt (hall e he)]
      · split
        · rename_i heq
          subst heq
          rw [lookup_consOption _ hhead]
          by_cases hwv : w = v
          · simp [hwv, lookup]
          · simp [hwv, lookup]
        · rename_i hne
          by_cases hwu : w = u
          · subst hwu
            have hwv : w ≠ v := fun h => hne h.symm
            simp [lookup, hwv]
          · simp [lookup, hwu, hne, ih hrest]

/-! ## Lookups in maps -/

variable {m n : VarMap α} {v w : Var}

@[simp] theorem get?_empty : (empty : VarMap α).get? v = none := rfl

theorem get?_singleton (a : α) : (singleton v a).get? w = if w = v then some a else none := rfl

theorem get?_eq_some_iff {a : α} : m.get? v = some a ↔ (v, a) ∈ m.entries :=
  lookup_eq_some_iff m.ascending

theorem get?_alter (f : Option α → Option α) :
    (m.alter v f).get? w = if w = v then f (m.get? v) else m.get? w :=
  lookup_alterEntries f m.ascending

theorem get?_insert (a : α) : (m.insert v a).get? w = if w = v then some a else m.get? w :=
  get?_alter _

theorem get?_erase : (m.erase v).get? w = if w = v then none else m.get? w :=
  get?_alter _

theorem get?_mapValues (f : α → β) : (m.mapValues f).get? v = (m.get? v).map f := by
  obtain ⟨l, hl⟩ := m
  show lookup v (l.map fun e => (e.1, f e.2)) = (lookup v l).map f
  clear hl
  induction l with
  | nil => rfl
  | cons head rest ih =>
      obtain ⟨w, a⟩ := head
      by_cases hvw : v = w
      · simp [lookup, hvw]
      · simp [lookup, hvw, ih]

theorem get?_filter (keep : Var → α → Bool) :
    (m.filter keep).get? v = (m.get? v).filter (keep v) := by
  apply Option.ext
  intro a
  rw [get?_eq_some_iff, Option.filter_eq_some_iff, get?_eq_some_iff]
  simp [filter, List.mem_filter]

theorem contains_iff : m.contains v = true ↔ ∃ a, m.get? v = some a := by
  rw [contains, Option.isSome_iff_exists]

theorem mem_keys_iff : v ∈ m.keys ↔ m.contains v = true := by
  rw [contains_iff]
  constructor
  · intro h
    obtain ⟨⟨w, a⟩, he, rfl⟩ := List.mem_map.1 h
    exact ⟨a, get?_eq_some_iff.2 he⟩
  · rintro ⟨a, ha⟩
    exact List.mem_map.2 ⟨(v, a), get?_eq_some_iff.1 ha, rfl⟩

/-! ## Extensionality -/

theorem entries_eq_of_mem_iff {k l : List (Var × α)}
    (hk : k.Pairwise fun x y => x.1 < y.1) (hl : l.Pairwise fun x y => x.1 < y.1)
    (h : ∀ e, e ∈ k ↔ e ∈ l) : k = l := by
  induction k generalizing l with
  | nil =>
      cases l with
      | nil => rfl
      | cons e l => exact absurd ((h e).2 List.mem_cons_self) (by simp)
  | cons d k ih =>
      cases l with
      | nil => exact absurd ((h d).1 List.mem_cons_self) (by simp)
      | cons e l =>
          have hkd := (List.pairwise_cons.1 hk).1
          have hle := (List.pairwise_cons.1 hl).1
          have hde : d = e := by
            rcases List.mem_cons.1 ((h d).1 List.mem_cons_self) with hd | hd
            · exact hd
            · rcases List.mem_cons.1 ((h e).2 List.mem_cons_self) with he | he
              · exact he.symm
              · exact absurd (Var.lt_trans (hkd e he) (hle d hd)) (Var.lt_irrefl _)
          subst hde
          have hrest : k = l := by
            refine ih (List.pairwise_cons.1 hk).2 (List.pairwise_cons.1 hl).2 fun x => ?_
            constructor
            · intro hx
              rcases List.mem_cons.1 ((h x).1 (List.mem_cons_of_mem _ hx)) with rfl | hx'
              · exact absurd (hkd _ hx) (Var.lt_irrefl _)
              · exact hx'
            · intro hx
              rcases List.mem_cons.1 ((h x).2 (List.mem_cons_of_mem _ hx)) with rfl | hx'
              · exact absurd (hle _ hx) (Var.lt_irrefl _)
              · exact hx'
          rw [hrest]

theorem ext_entries (h : m.entries = n.entries) : m = n := by
  cases m
  cases n
  cases h
  rfl

theorem ext_get? (h : ∀ v, m.get? v = n.get? v) : m = n := by
  have hentries : m.entries = n.entries := by
    refine entries_eq_of_mem_iff m.ascending n.ascending fun e => ?_
    obtain ⟨v, a⟩ := e
    rw [← get?_eq_some_iff, ← get?_eq_some_iff, h v]
  exact ext_entries hentries

/-! ## Growing at the end -/

theorem alterEntries_of_forall_lt {v : Var} {f : Option α → Option α} {l : List (Var × α)}
    (h : ∀ e ∈ l, e.1 < v) : alterEntries v f l = l ++ consOption v (f none) [] := by
  induction l with
  | nil => rfl
  | cons head rest ih =>
      obtain ⟨w, a⟩ := head
      have hw : w < v := h (w, a) List.mem_cons_self
      have hnot : ¬ v < w := fun hv => Var.lt_irrefl v (Var.lt_trans hv hw)
      have hne : v ≠ w := fun he => ne_of_lt hw he.symm
      have hrest := ih fun e he => h e (List.mem_cons_of_mem _ he)
      simp [alterEntries, hnot, hne, hrest]

/-- A variable beyond all others is inserted at the end. -/
theorem entries_insert_of_forall_lt {v : Var} (a : α) (h : ∀ e ∈ m.entries, e.1 < v) :
    (m.insert v a).entries = m.entries ++ [(v, a)] :=
  alterEntries_of_forall_lt h

/-! ## Sizes -/

@[simp] theorem size_mapValues (f : α → β) : (m.mapValues f).size = m.size :=
  List.length_map _

theorem nodup_keys (m : VarMap α) : m.keys.Nodup :=
  List.pairwise_map.2 (m.ascending.imp fun h => ne_of_lt h)

end VarMap
end AffineForms
