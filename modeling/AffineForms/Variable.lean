import AffineForms.Bytes
import AffineForms.Checked

/-!
# Variable — names of unknowns, and a supply of fresh ones

A variable is an index that fits into a machine word.  Variables are ordered by index, and that
order decides how the terms of a form are listed, written, encoded and compared.

A `Supply` hands out consecutive variables.  The last index is never handed out: taking a variable
moves the supply to the next one, and that step fails when there is none.
-/

namespace AffineForms

structure Var where
  index : Nat
  index_lt : index < wordSize
  deriving DecidableEq, Repr

namespace Var

theorem ext {v w : Var} (h : v.index = w.index) : v = w := by
  cases v
  cases w
  cases h
  rfl

theorem ext_iff {v w : Var} : v = w ↔ v.index = w.index :=
  ⟨fun h => h ▸ rfl, ext⟩

def ofIndex? (n : Nat) : Option Var :=
  if h : n < wordSize then some ⟨n, h⟩ else none

/-! ## Order -/

instance : LT Var := ⟨fun v w => v.index < w.index⟩

instance : LE Var := ⟨fun v w => v.index ≤ w.index⟩

instance (v w : Var) : Decidable (v < w) := inferInstanceAs (Decidable (v.index < w.index))

instance (v w : Var) : Decidable (v ≤ w) := inferInstanceAs (Decidable (v.index ≤ w.index))

def compare (v w : Var) : Ordering := Ord.compare v.index w.index

theorem lt_def {v w : Var} : v < w ↔ v.index < w.index := Iff.rfl

theorem le_def {v w : Var} : v ≤ w ↔ v.index ≤ w.index := Iff.rfl

theorem lt_irrefl (v : Var) : ¬ v < v := Nat.lt_irrefl v.index

theorem lt_trans {u v w : Var} (h₁ : u < v) (h₂ : v < w) : u < w :=
  Nat.lt_trans (lt_def.1 h₁) (lt_def.1 h₂)

theorem lt_of_not_lt {v w : Var} (h : ¬ v < w) (hne : v ≠ w) : w < v := by
  have hidx : v.index ≠ w.index := fun he => hne (ext he)
  have hle : ¬ v.index < w.index := h
  exact lt_def.2 (by omega)

/-! ## Written and encoded forms -/

def render (v : Var) : List Char := 'x' :: Nat.toDigits 10 v.index

def inspect (v : Var) : List Char :=
  "Var(".toList ++ Nat.toDigits 10 v.index ++ [')']

def encode (v : Var) : List UInt8 := Bytes.ofNat 8 v.index

theorem toNat_encode (v : Var) : Bytes.toNat v.encode = v.index :=
  Bytes.toNat_ofNat v.index_lt

theorem encode_inj {v w : Var} (h : v.encode = w.encode) : v = w := by
  apply ext
  rw [← toNat_encode v, h, toNat_encode]

end Var

/-! ## Fresh variables -/

/-- Consecutive variables from `first` on, of which `next` is the next to be handed out. -/
structure Supply where
  first : Var
  next : Var
  first_le : first ≤ next
  deriving DecidableEq, Repr

namespace Supply

def startingAt (first : Var) : Supply := ⟨first, first, Nat.le_refl _⟩

def initial : Supply := startingAt ⟨0, by decide⟩

/-- Takes the next variable; fails when the supply has no index to move on to. -/
def fresh (s : Supply) : Except Overflow (Var × Supply) :=
  match h : Checked.add wordSize s.next.index 1 with
  | .error overflow => .error overflow
  | .ok n =>
      have hn : n = s.next.index + 1 ∧ n < wordSize := by
        unfold Checked.add at h
        split at h
        · cases h
          exact ⟨rfl, by assumption⟩
        · cases h
      .ok (s.next, ⟨s.first, ⟨n, hn.2⟩, by
        have hle := Var.le_def.1 s.first_le
        exact Var.le_def.2 (by simp only [hn.1]; omega)⟩)

/-- How many variables have been handed out. -/
def count (s : Supply) : Nat := s.next.index - s.first.index

end Supply

end AffineForms
