/-!
# Bytes — fixed-width little-endian integers

`Bytes.ofNat width n` lists the `width` low bytes of `n`, least significant first, and
`Bytes.toNat` reads such a list back:

* `toNat_ofNat`: a number that fits comes back;
* `ofNat_toNat`: a list of bytes is the encoding of its value;
* `toNat_lt`: a list of `width` bytes stands for a number below `capacity width`.

`Bytes.compare` orders two lists of one length from the most significant byte downwards, which is
the order of the numbers they stand for (`compare_eq`).
-/

namespace AffineForms
namespace Bytes

/-- The `width` low bytes of a number, least significant first. -/
def ofNat : Nat → Nat → List UInt8
  | 0, _ => []
  | width + 1, n => UInt8.ofNat n :: ofNat width (n / 256)

/-- How many numbers fit into a list of `width` bytes. -/
def capacity : Nat → Nat
  | 0 => 1
  | width + 1 => 256 * capacity width

def toNat : List UInt8 → Nat
  | [] => 0
  | b :: bs => b.toNat + 256 * toNat bs

/-- Orders two encodings of one width by their most significant differing byte. -/
def compare (a b : List UInt8) : Ordering :=
  List.compareLex (fun x y : UInt8 => Ord.compare x.toNat y.toNat) a.reverse b.reverse

/-! ## Reading back -/

@[simp] theorem length_ofNat (width n : Nat) : (ofNat width n).length = width := by
  induction width generalizing n with
  | zero => rfl
  | succ width ih => simp [ofNat, ih]

theorem toNat_lt (bs : List UInt8) : toNat bs < capacity bs.length := by
  induction bs with
  | nil => decide
  | cons b bs ih =>
      have hb : b.toNat < 256 := b.toNat_lt
      simp only [toNat, List.length_cons, capacity]
      omega

theorem toNat_ofNat_mod (width n : Nat) : toNat (ofNat width n) = n % capacity width := by
  induction width generalizing n with
  | zero => simp [ofNat, toNat, capacity, Nat.mod_one]
  | succ width ih =>
      have hlow : (UInt8.ofNat n).toNat = n % 256 := by simp
      simp only [ofNat, toNat, hlow, ih, capacity]
      rw [Nat.mod_mul]

theorem toNat_ofNat {width n : Nat} (h : n < capacity width) : toNat (ofNat width n) = n := by
  rw [toNat_ofNat_mod, Nat.mod_eq_of_lt h]

theorem ofNat_toNat (bs : List UInt8) : ofNat bs.length (toNat bs) = bs := by
  induction bs with
  | nil => rfl
  | cons b bs ih =>
      have hb : b.toNat < 256 := b.toNat_lt
      have hlow : UInt8.ofNat (b.toNat + 256 * toNat bs) = b := by
        apply UInt8.toNat.inj
        simp
      have hhigh : (b.toNat + 256 * toNat bs) / 256 = toNat bs := by omega
      simp only [List.length_cons, toNat, ofNat, hlow, hhigh, ih]

/-! ## Order -/

theorem compareLex_append {α : Type} {cmp : α → α → Ordering} {a b c d : List α}
    (h : a.length = b.length) :
    List.compareLex cmp (a ++ c) (b ++ d) =
      (List.compareLex cmp a b).then (List.compareLex cmp c d) := by
  induction a generalizing b with
  | nil =>
      cases b with
      | nil => rfl
      | cons y b => cases h
  | cons x a ih =>
      cases b with
      | nil => cases h
      | cons y b =>
          have hlen : a.length = b.length := by simpa using h
          simp only [List.cons_append, List.compareLex_cons_cons, ih hlen, Ordering.then_assoc]

/-- A number is ordered by what is above its lowest digit, and then by that digit. -/
theorem compare_digit {x y m n : Nat} (hx : x < 256) (hy : y < 256) :
    Ord.compare (x + 256 * m) (y + 256 * n) = (Ord.compare m n).then (Ord.compare x y) := by
  rcases Nat.lt_trichotomy m n with h | h | h
  · have hlt : x + 256 * m < y + 256 * n := by omega
    rw [Nat.compare_eq_lt.2 h, Nat.compare_eq_lt.2 hlt]
    rfl
  · subst h
    rw [Nat.compare_eq_eq.2 rfl, Ordering.eq_then]
    rcases Nat.lt_trichotomy x y with h | h | h
    · rw [Nat.compare_eq_lt.2 h, Nat.compare_eq_lt.2 (by omega)]
    · rw [Nat.compare_eq_eq.2 h, Nat.compare_eq_eq.2 (by omega)]
    · rw [Nat.compare_eq_gt.2 h, Nat.compare_eq_gt.2 (by omega)]
  · have hlt : y + 256 * n < x + 256 * m := by omega
    rw [Nat.compare_eq_gt.2 h, Nat.compare_eq_gt.2 hlt]
    rfl

/-- Encodings of one length are ordered as the numbers they stand for. -/
theorem compare_eq {a b : List UInt8} (h : a.length = b.length) :
    compare a b = Ord.compare (toNat a) (toNat b) := by
  induction a generalizing b with
  | nil =>
      cases b with
      | nil => rfl
      | cons y b => cases h
  | cons x a ih =>
      cases b with
      | nil => cases h
      | cons y b =>
          have hlen : a.length = b.length := by simpa using h
          rw [toNat, toNat, compare_digit x.toNat_lt y.toNat_lt, ← ih hlen]
          -- The least significant byte is compared last.
          simp only [compare, List.reverse_cons]
          rw [compareLex_append (by simpa using hlen)]
          rw [List.compareLex_cons_cons, List.compareLex_nil_nil, Ordering.then_eq]

end Bytes
end AffineForms
