import AffineForms.Proofs.Form.SignClass

/-!
# Sort keys — the order of forms is lexicographic

The sort key of a form lists its number of terms, its terms as pairs of an index and a
representative, and the representative of its constant.  `compareKeys` compares two keys
lexicographically.  It is put together from comparisons of numbers and inherits their laws: it is a
total order on keys.

`Form.compare` never builds a normal form.  It compares nonetheless the sort keys of the normal
forms (`compare_eq_compareKeys`), so the order of forms is the order of keys pulled back along
`p ↦ p.normalize.sortKey`, and `Std.TransCmp` carries over.
-/

namespace AffineForms

/-! ## Keys -/

/-- The number of terms, the terms, and the constant. -/
abbrev SortKey := Nat × List (Nat × Nat) × Nat

/-- First the indices, then the representatives of the coefficients. -/
def comparePairs : Nat × Nat → Nat × Nat → Ordering :=
  compareLex (compareOn Prod.fst) (compareOn Prod.snd)

def compareKeys (k l : SortKey) : Ordering :=
  ((Ord.compare k.1 l.1).then (List.compareLex comparePairs k.2.1 l.2.1)).then
    (Ord.compare k.2.2 l.2.2)

instance : Std.TransCmp comparePairs :=
  inferInstanceAs (Std.TransCmp (compareLex (compareOn Prod.fst) (compareOn Prod.snd)))

instance : Std.LawfulEqCmp comparePairs where
  eq_of_compare {a b} h := by
    have hparts : a.1 = b.1 ∧ a.2 = b.2 := by
      simpa [comparePairs, compareLex, compareOn, Ordering.then_eq_eq] using h
    exact Prod.ext hparts.1 hparts.2

/-- An order pulled back along a function is transitive when the order is. -/
theorem transCmp_comap {α β : Type} (cmp : β → β → Ordering) [Std.TransCmp cmp] (f : α → β) :
    Std.TransCmp fun a b => cmp (f a) (f b) where
  eq_swap {a b} := @Std.OrientedCmp.eq_swap β cmp _ (f a) (f b)
  isLE_trans {a b c} := @Std.TransCmp.isLE_trans β cmp _ (f a) (f b) (f c)

instance : Std.TransCmp compareKeys :=
  -- As a lexicographic composition of three comparisons, each of them transitive.
  have := transCmp_comap (List.compareLex comparePairs) fun k : SortKey => k.2.1
  inferInstanceAs (Std.TransCmp (compareLex
    (compareLex (compareOn fun k : SortKey => k.1)
      fun k l => List.compareLex comparePairs k.2.1 l.2.1)
    (compareOn fun k => k.2.2)))

theorem compareKeys_eq_iff {k l : SortKey} : compareKeys k l = .eq ↔ k = l := by
  simp only [compareKeys, Ordering.then_eq_eq, Std.LawfulEqCmp.compare_eq_iff_eq, Prod.ext_iff,
    and_assoc]

namespace Form

variable {M : Modulus} {p q : Form M}

/-- A term as a pair of numbers. -/
def termKey (e : Var × Residue M) : Nat × Nat := (e.1.index, e.2.val)

def sortKey (p : Form M) : SortKey := (p.size, p.terms.entries.map termKey, p.constant.val)

theorem termKey_injective : Function.Injective (termKey : Var × Residue M → Nat × Nat) := by
  intro d e h
  have hparts := Prod.ext_iff.1 h
  exact Prod.ext (Var.ext hparts.1) (Residue.ext hparts.2)

theorem sortKey_injective : Function.Injective (sortKey : Form M → SortKey) := by
  intro p q h
  have hparts := Prod.ext_iff.1 (Prod.ext_iff.1 h).2
  exact ext (Residue.ext hparts.2) (List.map_injective_iff.2 termKey_injective hparts.1)

/-! ## Comparing under signs -/

theorem compareTerms_eq (flipA flipB : Bool) {k l : List (Var × Residue M)}
    (hlen : k.length = l.length) :
    compareTerms flipA flipB k l =
      List.compareLex comparePairs (k.map fun e => termKey (e.1, signed flipA e.2))
        (l.map fun e => termKey (e.1, signed flipB e.2)) := by
  induction k generalizing l with
  | nil =>
      cases l with
      | nil => rfl
      | cons b l => cases hlen
  | cons a k ih =>
      cases l with
      | nil => cases hlen
      | cons b l =>
          have hrest : k.length = l.length := by simpa using hlen
          -- The variables, then the coefficients, then the remaining terms.
          rw [compareTerms, ih hrest, Residue.compare_eq, List.map_cons, List.map_cons,
            List.compareLex_cons_cons]
          rfl

theorem sortKey_normalize (p : Form M) :
    p.normalize.sortKey =
      (p.size, p.terms.entries.map fun e => termKey (e.1, signed p.isFlipped e.2),
        (signed p.isFlipped p.constant).val) := by
  rw [sortKey, size_normalize, normalize_eq]
  simp [VarMap.mapValues, Function.comp_def]

/-- The normal forms are compared without being built.  Zipping the terms loses nothing: lists of
different lengths are told apart by the first key. -/
theorem compare_eq_compareKeys (p q : Form M) :
    p.compare q = compareKeys p.normalize.sortKey q.normalize.sortKey := by
  rw [compare, compareKeys, sortKey_normalize, sortKey_normalize, Residue.compare_eq]
  -- Only forms with equally many terms get to the comparison of their terms.
  change ((Ord.compare p.size q.size).then _).then _ = ((Ord.compare p.size q.size).then _).then _
  cases hsize : Ord.compare p.size q.size with
  | lt => rfl
  | gt => rfl
  | eq => rw [compareTerms_eq _ _ (Nat.compare_eq_eq.1 hsize)]

instance : Std.TransCmp (compare : Form M → Form M → Ordering) := by
  have hkeys := transCmp_comap compareKeys fun p : Form M => p.normalize.sortKey
  have hcompare : (compare : Form M → Form M → Ordering) =
      fun p q => compareKeys p.normalize.sortKey q.normalize.sortKey := by
    funext p q
    exact compare_eq_compareKeys p q
  rwa [hcompare]

theorem compare_eq_eq_iff : p.compare q = .eq ↔ p.normalize = q.normalize := by
  rw [compare_eq_compareKeys, compareKeys_eq_iff, sortKey_injective.eq_iff]

theorem compare_eq_lt_of_size_lt (h : p.size < q.size) : p.compare q = .lt := by
  have hsize : Ord.compare p.terms.size q.terms.size = .lt := Nat.compare_eq_lt.2 h
  rw [compare, hsize]
  rfl

/-! ## Signs -/

theorem compare_neg_left (hM : M.OddOrTwo) (hp : p.Valid) (q : Form M) :
    p.neg.compare q = p.compare q := by
  calc
    p.neg.compare q
        = compareKeys p.neg.normalize.sortKey q.normalize.sortKey := compare_eq_compareKeys p.neg q
    _ = compareKeys p.normalize.sortKey q.normalize.sortKey := by
        rw [normalize_neg hM hp]
    _ = p.compare q := (compare_eq_compareKeys p q).symm

theorem compare_neg_right (hM : M.OddOrTwo) (p : Form M) (hq : q.Valid) :
    p.compare q.neg = p.compare q := by
  calc
    p.compare q.neg
        = (q.neg.compare p).swap := Std.OrientedCmp.eq_swap
    _ = (q.compare p).swap := by
        rw [compare_neg_left hM hq p]
    _ = p.compare q := Std.OrientedCmp.eq_swap.symm

/-- The order of forms is the lexicographic one of the sort keys of the normal forms.  It is a total
order on sign classes, in which fewer terms come first. -/
theorem compare_total_order (hM : M.OddOrTwo) {a b c : Form M} (ha : a.Valid) (hb : b.Valid) :
    a.compare b = compareKeys a.normalize.sortKey b.normalize.sortKey ∧
      a.compare b = (b.compare a).swap ∧
      ((a.compare b).isLE → (b.compare c).isLE →
        (a.compare c).isLE ∧ (a.compare b = .lt ∨ b.compare c = .lt → a.compare c = .lt)) ∧
      (a.compare b = a.neg.compare b ∧ a.compare b = a.compare b.neg) ∧
      (a.size < b.size → a.compare b = .lt) := by
  refine ⟨compare_eq_compareKeys a b, Std.OrientedCmp.eq_swap, ?_, ?_, compare_eq_lt_of_size_lt⟩
  · intro hab hbc
    refine ⟨Std.TransCmp.isLE_trans hab hbc, ?_⟩
    intro hstrict
    rcases hstrict with hlt | hlt
    · exact Std.TransCmp.lt_of_lt_of_isLE hlt hbc
    · exact Std.TransCmp.lt_of_isLE_of_lt hab hlt
  · exact ⟨(compare_neg_left hM ha b).symm, (compare_neg_right hM a hb).symm⟩

theorem compare_total_order_sample :
    let low := ofVar (M := Modulus.seven) ⟨5, by decide⟩
    let high := sample.shift 1
    (low.compare sample = .lt ∧ low.size < sample.size) ∧ sample.compare high = .lt ∧
      low.compare high = .lt ∧ sample.neg.compare sample = .eq := by
  intro low high
  have hM : Modulus.seven.OddOrTwo := by decide
  have hlow : low.Valid := by decide
  have hsample : sample.Valid := by decide
  have hab := compare_total_order (c := high) hM hlow hsample
  have hlt : low.compare sample = .lt := hab.2.2.2.2 (by decide)
  have hnext : sample.compare high = .lt := by decide
  have hle := hab.2.2.1 (by rw [hlt]; rfl) (by rw [hnext]; rfl)
  have hself := compare_total_order (c := high) hM hsample hsample
  have hneg : sample.neg.compare sample = .eq := by
    rw [← hself.2.2.2.1.1]
    decide
  exact ⟨⟨hlt, by decide⟩, hnext, hle.2 (Or.inl hlt), hneg⟩

end Form

end AffineForms
