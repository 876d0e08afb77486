import AffineForms.Modular
import AffineForms.Modulus

/-!
# Residue — the coefficients

`Residue M` is a number below `M.value`, the canonical representative of a residue class.  The
operations run the checked word arithmetic of `Modular`, which cannot fail on representatives;
`Residue.ofChecked` turns that fact into a residue.

The view of a residue is its representative `val`, with one equation per operation:
`val_add`, `val_sub`, `val_neg`, `val_mul`, `val_ofNat`, `val_ofInt`.
-/

namespace AffineForms

structure Residue (M : Modulus) where
  val : Nat
  isLt : val < M.value
  deriving DecidableEq, Repr

namespace Residue

variable {M : Modulus}

theorem ext {a b : Residue M} (h : a.val = b.val) : a = b := by
  cases a
  cases b
  cases h
  rfl

theorem ext_iff {a b : Residue M} : a = b ↔ a.val = b.val :=
  ⟨fun h => h ▸ rfl, ext⟩

/-- The residue computed by word arithmetic that is known to succeed below the modulus. -/
def ofChecked (x : Except Overflow Nat) (h : ∃ r, r < M.value ∧ x = .ok r) : Residue M :=
  match x, h with
  | .ok r, h => ⟨r, by obtain ⟨s, hs, he⟩ := h; cases he; exact hs⟩
  | .error _, h => absurd h (by rintro ⟨_, _, he⟩; cases he)

theorem val_ofChecked {x : Except Overflow Nat} {r : Nat} (hr : r < M.value) (hx : x = .ok r) :
    (ofChecked (M := M) x ⟨r, hr, hx⟩).val = r := by
  subst hx
  rfl

theorem checked {x : Except Overflow Nat} {n : Nat} (hx : x = .ok (n % M.value)) :
    ∃ r, r < M.value ∧ x = .ok r :=
  ⟨n % M.value, Nat.mod_lt _ M.pos, hx⟩

theorem mem_map_val_lt (xs : List (Residue M)) : ∀ n ∈ xs.map val, n < M.value := by
  intro n hn
  obtain ⟨x, _, rfl⟩ := List.mem_map.1 hn
  exact x.isLt

/-! ## Operations -/

def ofNat (n : Nat) : Residue M :=
  ofChecked (Modular.reduce M.value n) (checked (Modular.reduce_eq M.pos n))

def ofInt (z : Int) : Residue M :=
  ofChecked (Modular.ofInt M.value z)
    ⟨_, Modular.toNat_emod_lt M.pos z, Modular.ofInt_eq M.pos z⟩

def add (a b : Residue M) : Residue M :=
  ofChecked (Modular.add M.width.size M.value a.val b.val)
    (checked (Modular.add_eq M.twice_lt a.isLt b.isLt))

def sub (a b : Residue M) : Residue M :=
  ofChecked (Modular.sub M.width.size M.value a.val b.val)
    (checked (Modular.sub_eq M.twice_lt a.isLt b.isLt))

def neg (a : Residue M) : Residue M :=
  ofChecked (Modular.neg M.value a.val) (checked (Modular.neg_eq a.isLt))

def mul (a b : Residue M) : Residue M :=
  ofChecked (Modular.mul M.width.size M.value a.val b.val)
    (checked (Modular.mul_eq M.twice_lt a.isLt b.isLt))

instance : Zero (Residue M) := ⟨⟨0, M.pos⟩⟩

instance : One (Residue M) := ⟨⟨1, M.two_le⟩⟩

instance : Add (Residue M) := ⟨add⟩

instance : Sub (Residue M) := ⟨sub⟩

instance : Neg (Residue M) := ⟨neg⟩

instance : Mul (Residue M) := ⟨mul⟩

instance : Inhabited (Residue M) := ⟨0⟩

def square (a : Residue M) : Residue M := a * a

def double (a : Residue M) : Residue M := a + a

def sum (xs : List (Residue M)) : Residue M :=
  ofChecked (Modular.sum M.width.size M.value (xs.map val))
    (checked (Modular.sum_eq M.twice_lt M.pos _ (mem_map_val_lt xs)))

def product (xs : List (Residue M)) : Residue M :=
  ofChecked (Modular.product M.width.size M.value (xs.map val))
    (checked (Modular.product_eq M.twice_lt M.two_le _ (mem_map_val_lt xs)))

/-- Picks the first of two residues, or the second when the flag is set. -/
def select (a b : Residue M) (second : Bool) : Residue M :=
  bif second then b else a

/-! ## Representatives -/

@[simp] theorem val_zero : (0 : Residue M).val = 0 := rfl

@[simp] theorem val_one : (1 : Residue M).val = 1 := rfl

theorem val_ofNat (n : Nat) : (ofNat n : Residue M).val = n % M.value :=
  val_ofChecked (Nat.mod_lt _ M.pos) (Modular.reduce_eq M.pos n)

theorem val_ofInt (z : Int) : (ofInt z : Residue M).val = (z % M.value).toNat :=
  val_ofChecked (Modular.toNat_emod_lt M.pos z) (Modular.ofInt_eq M.pos z)

theorem val_add (a b : Residue M) : (a + b).val = (a.val + b.val) % M.value :=
  val_ofChecked (Nat.mod_lt _ M.pos) (Modular.add_eq M.twice_lt a.isLt b.isLt)

theorem val_sub (a b : Residue M) : (a - b).val = (a.val + (M.value - b.val)) % M.value :=
  val_ofChecked (Nat.mod_lt _ M.pos) (Modular.sub_eq M.twice_lt a.isLt b.isLt)

theorem val_neg (a : Residue M) : (-a).val = (M.value - a.val) % M.value :=
  val_ofChecked (Nat.mod_lt _ M.pos) (Modular.neg_eq a.isLt)

theorem val_mul (a b : Residue M) : (a * b).val = a.val * b.val % M.value :=
  val_ofChecked (Nat.mod_lt _ M.pos) (Modular.mul_eq M.twice_lt a.isLt b.isLt)

theorem val_sum (xs : List (Residue M)) :
    (sum xs).val = (xs.map val).foldl (· + ·) 0 % M.value :=
  val_ofChecked (Nat.mod_lt _ M.pos) (Modular.sum_eq M.twice_lt M.pos _ (mem_map_val_lt xs))

theorem val_product (xs : List (Residue M)) :
    (product xs).val = (xs.map val).foldl (· * ·) 1 % M.value :=
  val_ofChecked (Nat.mod_lt _ M.pos)
    (Modular.product_eq M.twice_lt M.two_le _ (mem_map_val_lt xs))

end Residue

end AffineForms
