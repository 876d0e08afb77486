import Mathlib.Algebra.BigOperators.Group.List.Basic
import Mathlib.Data.ZMod.Basic
import AffineForms.Proofs.Residue.Ring

/-!
# Word arithmetic — residues are computed exactly, and nothing overflows

Every operation on residues runs checked arithmetic on machine words.  `Residue.Computes` says of
such a computation that it succeeds, so no check on the way fires, and that the result is the
representative of a residue congruent to the exact integer result:

* `computes_add`, `computes_sub`, `computes_neg`, `computes_mul` for the four operations;
* `computes_sum`, `computes_product` for lists, by way of `sum_eq` and `product_eq`, which identify
  them with the sum and the product in the ring;
* `computes_ofNat`, `computes_ofInt` for the entry of an arbitrary number.

These hold in any width that leaves half of the words free.  `word_arithmetic_exact` states them for
the moduli of a single word, from two up to the largest below `2 ^ 63`.
-/

namespace AffineForms

/-- Every number from two up to below `2 ^ 63` is a modulus of one word. -/
theorem Modulus.exists_word? {p : Nat} (hlow : 2 ≤ p) (hhigh : p < 2 ^ 63) :
    ∃ M, Modulus.word? p = some M ∧ M.value = p ∧ M.width = .word := by
  have hword : 2 * p < wordSize := by
    unfold wordSize
    omega
  exact ⟨⟨p, .word, hlow, hword⟩, dif_pos ⟨hlow, hword⟩, rfl, rfl⟩

namespace Residue

variable {M : Modulus}

/-- The computation succeeds, and answers the representative of `r`, which is congruent to the
exact result. -/
structure Computes (computation : Except Overflow Nat) (r : Residue M) (exact : Int) : Prop where
  succeeds : computation = .ok r.val
  canonical : r.val < M.value
  congruent : r.val ≡ exact [ZMOD M.value]

theorem cast_val (x : Residue M) : (x.val : ZMod M.value) = x.toZMod := rfl

theorem computes_of_toZMod {computation : Except Overflow Nat} {r : Residue M} {exact : Int}
    (hok : computation = .ok r.val) (hexact : r.toZMod = exact) : Computes computation r exact where
  succeeds := hok
  canonical := r.isLt
  congruent := by
    rw [← ZMod.intCast_eq_intCast_iff]
    simpa [cast_val] using hexact

/-! ## Single operations -/

theorem computes_add (a b : Residue M) :
    Computes (Modular.add M.width.size M.value a.val b.val) (a + b) (a.val + b.val) := by
  refine computes_of_toZMod ?_ (by simp [cast_val])
  rw [Modular.add_eq M.twice_lt a.isLt b.isLt, val_add]

theorem computes_sub (a b : Residue M) :
    Computes (Modular.sub M.width.size M.value a.val b.val) (a - b) (a.val - b.val) := by
  refine computes_of_toZMod ?_ (by simp [cast_val])
  rw [Modular.sub_eq M.twice_lt a.isLt b.isLt, val_sub]

theorem computes_neg (a : Residue M) : Computes (Modular.neg M.value a.val) (-a) (-a.val) := by
  refine computes_of_toZMod ?_ (by simp [cast_val])
  rw [Modular.neg_eq a.isLt, val_neg]

theorem computes_mul (a b : Residue M) :
    Computes (Modular.mul M.width.size M.value a.val b.val) (a * b) (a.val * b.val) := by
  refine computes_of_toZMod ?_ (by simp [cast_val])
  rw [Modular.mul_eq M.twice_lt a.isLt b.isLt, val_mul]

theorem computes_ofNat (n : Nat) : Computes (Modular.reduce M.value n) (ofNat n : Residue M) n := by
  refine computes_of_toZMod ?_ (by simp)
  rw [Modular.reduce_eq M.pos, val_ofNat]

theorem toZMod_ofInt (z : Int) : (ofInt z : Residue M).toZMod = z := by
  have hnonneg : 0 ≤ z % M.value := Int.emod_nonneg z (Int.natCast_ne_zero.2 M.pos.ne')
  have hcast : (((z % M.value).toNat : Int) : ZMod M.value) = z := by
    rw [Int.toNat_of_nonneg hnonneg, ZMod.intCast_mod]
  rw [toZMod, val_ofInt]
  exact_mod_cast hcast

theorem computes_ofInt (z : Int) : Computes (Modular.ofInt M.value z) (ofInt z : Residue M) z := by
  refine computes_of_toZMod ?_ (toZMod_ofInt z)
  rw [Modular.ofInt_eq M.pos, val_ofInt]

/-! ## Lists -/

theorem cast_foldl_add (xs : List (Residue M)) (n : Nat) :
    (((xs.map val).foldl (· + ·) n : Nat) : ZMod M.value) = n + xs.sum.toZMod := by
  induction xs generalizing n with
  | nil => simp
  | cons x xs ih => simp [ih, cast_val, add_assoc]

theorem cast_foldl_mul (xs : List (Residue M)) (n : Nat) :
    (((xs.map val).foldl (· * ·) n : Nat) : ZMod M.value) = n * xs.prod.toZMod := by
  induction xs generalizing n with
  | nil => simp
  | cons x xs ih => simp [ih, cast_val, mul_assoc]

theorem sum_eq (xs : List (Residue M)) : sum xs = xs.sum := by
  apply toZMod_injective
  rw [toZMod, val_sum, ZMod.natCast_mod, cast_foldl_add]
  simp

theorem product_eq (xs : List (Residue M)) : product xs = xs.prod := by
  apply toZMod_injective
  rw [toZMod, val_product, ZMod.natCast_mod, cast_foldl_mul]
  simp

theorem toZMod_list_sum (xs : List (Residue M)) :
    xs.sum.toZMod = ((xs.map fun x => (x.val : Int)).sum : Int) := by
  induction xs with
  | nil => simp
  | cons x xs ih => simp [ih, cast_val]

theorem toZMod_list_prod (xs : List (Residue M)) :
    xs.prod.toZMod = ((xs.map fun x => (x.val : Int)).prod : Int) := by
  induction xs with
  | nil => simp
  | cons x xs ih => simp [ih, cast_val]

theorem computes_sum (xs : List (Residue M)) :
    Computes (Modular.sum M.width.size M.value (xs.map val)) (sum xs)
      (xs.map fun x => (x.val : Int)).sum := by
  refine computes_of_toZMod ?_ (by rw [sum_eq, toZMod_list_sum])
  rw [Modular.sum_eq M.twice_lt M.pos _ (mem_map_val_lt xs), val_sum]

theorem computes_product (xs : List (Residue M)) :
    Computes (Modular.product M.width.size M.value (xs.map val)) (product xs)
      (xs.map fun x => (x.val : Int)).prod := by
  refine computes_of_toZMod ?_ (by rw [product_eq, toZMod_list_prod])
  rw [Modular.product_eq M.twice_lt M.two_le _ (mem_map_val_lt xs), val_product]

theorem sum_eq_of_perm {xs ys : List (Residue M)} (h : xs.Perm ys) : sum xs = sum ys := by
  rw [sum_eq, sum_eq, h.sum_eq]

theorem product_eq_of_perm {xs ys : List (Residue M)} (h : xs.Perm ys) :
    product xs = product ys := by
  rw [product_eq, product_eq, h.prod_eq]

/-! ## The moduli of one word -/

/-- For every modulus from two up to below `2 ^ 63`, prime or not, the arithmetic on 64-bit words
succeeds on all residues, and each result is the canonical representative of the exact result.  So
the operations obey the laws of a commutative ring, and the order of the operands of a long sum or
product is of no account.  The magnitude of a signed word is always a word. -/
theorem word_arithmetic_exact {p : Nat} (hlow : 2 ≤ p) (hhigh : p < 2 ^ 63) :
    ∃ M : Modulus, Modulus.word? p = some M ∧ M.value = p ∧
      (∀ a b : Residue M,
        Computes (Modular.add wordSize p a.val b.val) (a + b) (a.val + b.val) ∧
          Computes (Modular.sub wordSize p a.val b.val) (a - b) (a.val - b.val) ∧
          Computes (Modular.mul wordSize p a.val b.val) (a * b) (a.val * b.val)) ∧
      (∀ a : Residue M,
        Computes (Modular.neg p a.val) (-a) (-a.val) ∧
          Computes (Modular.mul wordSize p a.val a.val) a.square (a.val ^ 2) ∧
          Computes (Modular.add wordSize p a.val a.val) a.double (2 * a.val)) ∧
      (∀ xs : List (Residue M),
        Computes (Modular.sum wordSize p (xs.map val)) (sum xs)
            (xs.map fun x => (x.val : Int)).sum ∧
          Computes (Modular.product wordSize p (xs.map val)) (product xs)
            (xs.map fun x => (x.val : Int)).prod) ∧
      (∀ n, n < wordSize → Computes (Modular.reduce p n) (ofNat n : Residue M) n) ∧
      (∀ z : Int, -2 ^ 63 ≤ z → z < 2 ^ 63 →
        z.natAbs < wordSize ∧ Computes (Modular.ofInt p z) (ofInt z : Residue M) z) ∧
      (∀ a b c : Residue M,
        a + b = b + a ∧ a + b + c = a + (b + c) ∧ a + 0 = a ∧ a + -a = 0 ∧ a - b = a + -b ∧
          a * b = b * a ∧ a * b * c = a * (b * c) ∧ a * 1 = a ∧ a * (b + c) = a * b + a * c) ∧
      ∀ xs ys : List (Residue M), xs.Perm ys → sum xs = sum ys ∧ product xs = product ys := by
  obtain ⟨M, hM, rfl, hwidth⟩ := Modulus.exists_word? hlow hhigh
  have hsize : M.width.size = wordSize := by rw [hwidth]; rfl
  rw [← hsize]
  refine ⟨M, hM, rfl, fun a b => ⟨computes_add a b, computes_sub a b, computes_mul a b⟩,
    fun a => ⟨computes_neg a, ?_, ?_⟩, fun xs => ⟨computes_sum xs, computes_product xs⟩,
    fun n _ => computes_ofNat n, fun z hmin hmax => ⟨?_, computes_ofInt z⟩, ?_,
    fun xs ys h => ⟨sum_eq_of_perm h, product_eq_of_perm h⟩⟩
  · rw [sq]
    exact computes_mul a a
  · rw [two_mul]
    exact computes_add a a
  · rw [hsize, wordSize]
    omega
  · intro a b c
    exact ⟨add_comm a b, add_assoc a b c, add_zero a, add_neg_cancel a, sub_eq_add_neg a b,
      mul_comm a b, mul_assoc a b c, mul_one a, mul_add a b c⟩

/-- Twenty-five below `2 ^ 63`, for the largest residue: its square needs a double word and is one,
its double is just below the size of a word, and the least signed word has the residue `-25`. -/
theorem word_arithmetic_exact_largest :
    let p := 2 ^ 63 - 25
    2 ≤ p ∧ p < 2 ^ 63 ∧
      ∃ (M : Modulus) (a : Residue M), Modulus.word? p = some M ∧ a.val = p - 1 ∧
        Computes (Modular.mul wordSize p a.val a.val) a.square (a.val ^ 2) ∧
        Modular.mul wordSize p (p - 1) (p - 1) = .ok 1 ∧
        Computes (Modular.add wordSize p a.val a.val) a.double (2 * a.val) ∧
        Modular.add wordSize p (p - 1) (p - 1) = .ok (p - 2) ∧
        Computes (Modular.ofInt p (-2 ^ 63)) (ofInt (-2 ^ 63) : Residue M) (-2 ^ 63) ∧
        Modular.ofInt p (-2 ^ 63) = .ok (p - 25) := by
  intro p
  have hlow : 2 ≤ p := by decide
  have hhigh : p < 2 ^ 63 := by decide
  obtain ⟨M, hM, hvalue, -, hsingle, -, -, hsigned, -, -⟩ := word_arithmetic_exact hlow hhigh
  have hlt : p - 1 < M.value := by
    rw [hvalue]
    decide
  have hunary := hsingle ⟨p - 1, hlt⟩
  have hleast := hsigned (-2 ^ 63) le_rfl (by decide)
  exact ⟨hlow, hhigh, M, ⟨p - 1, hlt⟩, hM, rfl, hunary.2.1, by decide, hunary.2.2, by decide,
    hleast.2, by decide⟩

end Residue
end AffineForms
