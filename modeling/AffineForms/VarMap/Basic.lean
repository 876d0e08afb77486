import AffineForms.Variable

/-!
# VarMap — finite maps from variables

A `VarMap α` lists its entries in strictly ascending order of the variables, so two maps with the
same entries are the same value.  Every update goes through one function, `alter`, which replaces
what a single variable is mapped to; `insert` and `erase` are two of its uses.
-/

namespace AffineForms

structure VarMap (α : Type) where
  entries : List (Var × α)
  ascending : entries.Pairwise fun a b => a.1 < b.1
  deriving DecidableEq, Repr

namespace VarMap

variable {α β : Type}

/-! ## Ascending lists of entries -/

def lookup (v : Var) : List (Var × α) → Option α
  | [] => none
  | (w, a) :: rest => if v = w then some a else lookup v rest

/-- An optional entry in front of a list. -/
def consOption (v : Var) : Option α → List (Var × α) → List (Var × α)
  | none, rest => rest
  | some a, rest => (v, a) :: rest

/-- Replaces what `v` is mapped to in an ascending list, keeping it ascending. -/
def alterEntries (v : Var) (f : Option α → Option α) : List (Var × α) → List (Var × α)
  | [] => consOption v (f none) []
  | (w, a) :: rest =>
      if v < w then
        consOption v (f none) ((w, a) :: rest)
      else if v = w then
        consOption v (f (some a)) rest
      else
        (w, a) :: alterEntries v f rest

theorem mem_consOption {v : Var} {o : Option α} {rest : List (Var × α)} {e : Var × α}
    (h : e ∈ consOption v o rest) : e.1 = v ∨ e ∈ rest := by
  cases o with
  | none => exact Or.inr h
  | some a =>
      rcases List.mem_cons.1 h with rfl | h
      · exact Or.inl rfl
      · exact Or.inr h

theorem mem_alterEntries {v : Var} {f : Option α → Option α} {l : List (Var × α)}
    {e : Var × α} (h : e ∈ alterEntries v f l) : e.1 = v ∨ e ∈ l := by
  induction l with
  | nil => exact mem_consOption h
  | cons head rest ih =>
      obtain ⟨w, a⟩ := head
      unfold alterEntries at h
      split at h
      · exact mem_consOption h
      · split at h
        · rcases mem_consOption h with h | h
          · exact Or.inl h
          · exact Or.inr (List.mem_cons_of_mem _ h)
        · rcases List.mem_cons.1 h with rfl | h
          · exact Or.inr List.mem_cons_self
          · rcases ih h with h | h
            · exact Or.inl h
            · exact Or.inr (List.mem_cons_of_mem _ h)

theorem ascending_consOption {v : Var} (o : Option α) {rest : List (Var × α)}
    (hv : ∀ e ∈ rest, v < e.1) (h : rest.Pairwise fun a b => a.1 < b.1) :
    (consOption v o rest).Pairwise fun a b => a.1 < b.1 := by
  cases o with
  | none => exact h
  | some a => exact List.pairwise_cons.2 ⟨hv, h⟩

theorem ascending_alterEntries (v : Var) (f : Option α → Option α) {l : List (Var × α)}
    (h : l.Pairwise fun a b => a.1 < b.1) :
    (alterEntries v f l).Pairwise fun a b => a.1 < b.1 := by
  induction l with
  | nil => exact ascending_consOption _ (by simp) List.Pairwise.nil
  | cons head rest ih =>
      obtain ⟨w, a⟩ := head
      have hhead := (List.pairwise_cons.1 h).1
      have hrest := (List.pairwise_cons.1 h).2
      unfold alterEntries
      split
      · rename_i hlt
        refine ascending_consOption _ ?_ h
        intro e he
        rcases List.mem_cons.1 he with rfl | he
        · exact hlt
        · exact Var.lt_trans hlt (hhead e he)
      · rename_i hlt
        split
        · rename_i heq
          subst heq
          exact ascending_consOption _ hhead hrest
        · rename_i hne
          refine List.pairwise_cons.2 ⟨?_, ih hrest⟩
          intro e he
          rcases mem_alterEntries he with he | he
          · rw [he]
            exact Var.lt_of_not_lt hlt hne
          · exact hhead e he

/-! ## Maps -/

def empty : VarMap α := ⟨[], List.Pairwise.nil⟩

instance : Inhabited (VarMap α) := ⟨empty⟩

def singleton (v : Var) (a : α) : VarMap α := ⟨[(v, a)], List.pairwise_singleton _ _⟩

def get? (m : VarMap α) (v : Var) : Option α := lookup v m.entries

def contains (m : VarMap α) (v : Var) : Bool := (m.get? v).isSome

def size (m : VarMap α) : Nat := m.entries.length

def isEmpty (m : VarMap α) : Bool := m.entries.isEmpty

/-- The variables of a map, ascending. -/
def keys (m : VarMap α) : List Var := m.entries.map Prod.fst

def alter (m : VarMap α) (v : Var) (f : Option α → Option α) : VarMap α :=
  ⟨alterEntries v f m.entries, ascending_alterEntries v f m.ascending⟩

def insert (m : VarMap α) (v : Var) (a : α) : VarMap α := m.alter v fun _ => some a

def erase (m : VarMap α) (v : Var) : VarMap α := m.alter v fun _ => none

/-- The map of a list of entries, where a later entry replaces an earlier one. -/
def ofList (entries : List (Var × α)) : VarMap α :=
  entries.foldl (fun m e => m.insert e.1 e.2) empty

def mapValues (m : VarMap α) (f : α → β) : VarMap β :=
  ⟨m.entries.map fun e => (e.1, f e.2), m.ascending.map _ fun _ _ h => h⟩

def filter (m : VarMap α) (keep : Var → α → Bool) : VarMap α :=
  ⟨m.entries.filter fun e => keep e.1 e.2, m.ascending.filter _⟩

end VarMap

end AffineForms
