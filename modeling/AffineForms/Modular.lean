import AffineForms.Checked

/-!
# Modular — arithmetic of residues on machine words

The operations of `Z/p` on representatives below `p`, carried out with checked arithmetic on words
of a given size, and on double words for a product.  Every intermediate result is checked, so a
result is evidence that nothing overflowed on the way.

For `2 * p < size` and operands below `p` each operation succeeds, and its result is the
remainder of the exact integer result:

* `add_eq`, `sub_eq`, `neg_eq`, `mul_eq` for the four operations;
* `sum_eq`, `product_eq` for lists of any length;
* `reduce_eq`, `ofInt_eq` for the entry of an arbitrary number.
-/

namespace AffineForms
namespace Modular

def add (size p a b : Nat) : Except Overflow Nat := do
  let sum ← Checked.add size a b
  -- Two residues exceed the modulus at most once.
  if p ≤ sum then Checked.sub sum p else .ok sum

def sub (size p a b : Nat) : Except Overflow Nat :=
  if b ≤ a then
    Checked.sub a b
  else do
    -- The difference would be negative, so the opposite is added instead.
    let opposite ← Checked.sub p b
    Checked.add size a opposite

def neg (p a : Nat) : Except Overflow Nat :=
  if a = 0 then .ok a else Checked.sub p a

/-- The product is formed in a double word, and its remainder narrowed to a single one. -/
def mul (size p a b : Nat) : Except Overflow Nat := do
  let product ← Checked.mul (size * size) a b
  let remainder ← Checked.rem product p
  .ok (remainder % size)

def reduce (p n : Nat) : Except Overflow Nat :=
  Checked.rem n p

/-- The residue of a signed number: reduce its magnitude, then negate if it is negative. -/
def ofInt (p : Nat) (z : Int) : Except Overflow Nat := do
  let r ← reduce p z.natAbs
  if z < 0 then neg p r else .ok r

def sum (size p : Nat) (xs : List Nat) : Except Overflow Nat :=
  xs.foldlM (add size p) 0

def product (size p : Nat) (xs : List Nat) : Except Overflow Nat :=
  xs.foldlM (mul size p) 1

/-! ## Exactness -/

section Exact

variable {size p a b : Nat}

theorem add_eq (hp : 2 * p < size) (ha : a < p) (hb : b < p) :
    add size p a b = .ok ((a + b) % p) := by
  simp only [add, Checked.add_eq_ok (show a + b < size by omega), bind, Except.bind]
  by_cases h : p ≤ a + b
  · rw [if_pos h, Checked.sub_eq_ok h, Nat.mod_eq_sub_mod h, Nat.mod_eq_of_lt (by omega)]
  · rw [if_neg h, Nat.mod_eq_of_lt (Nat.lt_of_not_le h)]

theorem sub_eq (hp : 2 * p < size) (ha : a < p) (hb : b < p) :
    sub size p a b = .ok ((a + (p - b)) % p) := by
  unfold sub
  by_cases h : b ≤ a
  · have hge : p ≤ a + (p - b) := by omega
    rw [if_pos h, Checked.sub_eq_ok h, Nat.mod_eq_sub_mod hge, Nat.mod_eq_of_lt (by omega)]
    congr 1
    omega
  · have hlt : a + (p - b) < p := by omega
    have hword : a + (p - b) < size := by omega
    simp only [if_neg h, Checked.sub_eq_ok (Nat.le_of_lt hb), bind, Except.bind,
      Checked.add_eq_ok hword, Nat.mod_eq_of_lt hlt]

theorem neg_eq (ha : a < p) : neg p a = .ok ((p - a) % p) := by
  unfold neg
  by_cases h : a = 0
  · simp [h]
  · rw [if_neg h, Checked.sub_eq_ok (Nat.le_of_lt ha), Nat.mod_eq_of_lt (by omega)]

theorem mul_eq (hp : 2 * p < size) (ha : a < p) (hb : b < p) :
    mul size p a b = .ok (a * b % p) := by
  have hword : p < size := by omega
  have hprod : a * b < size * size :=
    Nat.mul_lt_mul'' (Nat.lt_trans ha hword) (Nat.lt_trans hb hword)
  have hpos : p ≠ 0 := by omega
  have hrem : a * b % p < size :=
    Nat.lt_trans (Nat.mod_lt _ (Nat.pos_of_ne_zero hpos)) hword
  simp only [mul, Checked.mul_eq_ok hprod, Checked.rem_eq_ok hpos, bind, Except.bind,
    Nat.mod_eq_of_lt hrem]

theorem reduce_eq (hp : 0 < p) (n : Nat) : reduce p n = .ok (n % p) :=
  Checked.rem_eq_ok (Nat.ne_of_gt hp)

theorem ofInt_eq (hp : 0 < p) (z : Int) : ofInt p z = .ok (z % p).toNat := by
  simp only [ofInt, reduce_eq hp, bind, Except.bind]
  by_cases h : z < 0
  · have hlt : z.natAbs % p < p := Nat.mod_lt _ hp
    rw [if_pos h, neg_eq hlt]
    congr 1
    have hz : z = -(z.natAbs : Int) := by omega
    have hcast : ((p - z.natAbs % p : Nat) : Int) = (p : Int) - (z.natAbs % p : Nat) := by omega
    have hmod : z % (p : Int) = (((p - z.natAbs % p : Nat) : Int)) % p := by
      have hdiv := Int.emod_add_mul_ediv (z.natAbs : Int) p
      have hsplit : z = (p : Int) - ((z.natAbs : Int) % p) + p * (-((z.natAbs : Int) / p) - 1) := by
        rw [Int.mul_sub, Int.mul_neg]
        omega
      rw [hcast, Int.natCast_emod]
      conv => lhs; rw [hsplit]
      rw [Int.add_mul_emod_self_left]
    rw [hmod]
    omega
  · rw [if_neg h]
    congr 1
    have hz : z = (z.natAbs : Int) := by omega
    conv => rhs; rw [hz]
    omega

theorem toNat_emod_lt (hp : 0 < p) (z : Int) : (z % (p : Int)).toNat < p := by
  have h := Int.emod_lt_of_pos z (Int.natCast_pos.2 hp)
  omega

theorem foldl_add_mod (xs : List Nat) (n : Nat) :
    xs.foldl (· + ·) (n % p) % p = xs.foldl (· + ·) n % p := by
  induction xs generalizing n with
  | nil => simp
  | cons x xs ih =>
      rw [List.foldl_cons, List.foldl_cons, ← ih (n % p + x), Nat.mod_add_mod, ih]

theorem foldlM_add_eq (hp : 2 * p < size) (xs : List Nat) (hxs : ∀ x ∈ xs, x < p)
    (ha : a < p) : xs.foldlM (add size p) a = .ok (xs.foldl (· + ·) a % p) := by
  induction xs generalizing a with
  | nil => simp [Nat.mod_eq_of_lt ha, pure, Except.pure]
  | cons x xs ih =>
      have hx : x < p := hxs x List.mem_cons_self
      have hpos : 0 < p := Nat.zero_lt_of_lt ha
      simp only [List.foldlM_cons, add_eq hp ha hx, bind, Except.bind, List.foldl_cons]
      rw [ih (fun y hy => hxs y (List.mem_cons_of_mem x hy)) (Nat.mod_lt _ hpos)]
      congr 1
      exact foldl_add_mod xs _

theorem sum_eq (hp : 2 * p < size) (hpos : 0 < p) (xs : List Nat)
    (hxs : ∀ x ∈ xs, x < p) : sum size p xs = .ok (xs.foldl (· + ·) 0 % p) :=
  foldlM_add_eq hp xs hxs hpos

theorem foldl_mul_mod (xs : List Nat) (n : Nat) :
    xs.foldl (· * ·) (n % p) % p = xs.foldl (· * ·) n % p := by
  induction xs generalizing n with
  | nil => simp
  | cons x xs ih =>
      rw [List.foldl_cons, List.foldl_cons, ← ih (n % p * x), Nat.mod_mul_mod, ih]

theorem foldlM_mul_eq (hp : 2 * p < size) (xs : List Nat) (hxs : ∀ x ∈ xs, x < p)
    (ha : a < p) : xs.foldlM (mul size p) a = .ok (xs.foldl (· * ·) a % p) := by
  induction xs generalizing a with
  | nil => simp [Nat.mod_eq_of_lt ha, pure, Except.pure]
  | cons x xs ih =>
      have hx : x < p := hxs x List.mem_cons_self
      have hpos : 0 < p := Nat.zero_lt_of_lt ha
      simp only [List.foldlM_cons, mul_eq hp ha hx, bind, Except.bind, List.foldl_cons]
      rw [ih (fun y hy => hxs y (List.mem_cons_of_mem x hy)) (Nat.mod_lt _ hpos)]
      congr 1
      exact foldl_mul_mod xs _

theorem product_eq (hp : 2 * p < size) (hone : 1 < p) (xs : List Nat)
    (hxs : ∀ x ∈ xs, x < p) : product size p xs = .ok (xs.foldl (· * ·) 1 % p) :=
  foldlM_mul_eq hp xs hxs hone

end Exact

end Modular
end AffineForms
