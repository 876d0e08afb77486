import AffineForms.Bytes
import AffineForms.Checked

/-!
# Modulus — the rings the coefficients come from

A modulus is a number together with the width in which residues are stored.  A stored residue
leaves the top bit of its words free, which is what keeps the sum of two residues inside a word
(`Modulus.twice_lt`).

* `Modulus.word? n` is the modulus `n` stored in one machine word, where it takes half of the values
  at most;
* `Modulus.pallasBase` and `Modulus.vestaBase` are the base-field primes of the two Pasta curves,
  stored in four words;
* `Modulus.seven`, a field, and `Modulus.fifteen`, with zero divisors, are the small rings in which
  examples are worked out.

Primality is not asked for: a composite modulus gives a ring with zero divisors.

## What is taken for granted of wide residues

The arithmetic of one word is carried out here in every step.  The fields of the Pasta curves come
with an arithmetic of their own, in four words and in another representation, which is not opened.
Of it the following is assumed:

* a residue is determined by its canonical representative, and sums, differences, opposites,
  products and powers are those of the residue classes;
* its representation in bytes is the representative, little-endian in 32 bytes, and bytes are read
  back if they stand for a number below the modulus and refused otherwise;
* a machine word, which is below these moduli, enters as the residue that it represents;
* it is inspected as its representative in hexadecimal, with all 64 digits;
* the inverse of a residue other than zero is its inverse in the field, and zero has none
  (`Residue.Inverts`).

Nothing is assumed about how roots are taken or residues are sampled there: what is stated of the
descent and of the sampler is stated of those defined here.
-/

namespace AffineForms

/-- How a residue is stored: in one machine word, or in four. -/
inductive Width where
  | word
  | wide
  deriving DecidableEq, Repr

namespace Width

def bytes : Width → Nat
  | word => 8
  | wide => 32

def bits (w : Width) : Nat := 8 * w.bytes

/-- The number of values that can be stored. -/
def size : Width → Nat
  | word => wordSize
  | wide => wordSize * wordSize * wordSize * wordSize

end Width

structure Modulus where
  value : Nat
  width : Width
  two_le : 2 ≤ value
  twice_lt : 2 * value < width.size
  deriving DecidableEq, Repr

namespace Modulus

/-- The modulus `n` in a single word; the top bit of the word has to stay free. -/
def word? (n : Nat) : Option Modulus :=
  if h : 2 ≤ n ∧ 2 * n < wordSize then some ⟨n, .word, h.1, h.2⟩ else none

/-- The prime of the base field of Pallas; the module comment says what its residues are assumed to
do. -/
def pallasBase : Modulus where
  value := 0x40000000000000000000000000000000224698fc094cf91b992d30ed00000001
  width := .wide
  two_le := by decide
  twice_lt := by decide

/-- The prime of the base field of Vesta, with the same assumptions. -/
def vestaBase : Modulus where
  value := 0x40000000000000000000000000000000224698fc0994a8dd8c46eb2100000001
  width := .wide
  two_le := by decide
  twice_lt := by decide

def seven : Modulus := ⟨7, .word, by decide, by decide⟩

def fifteen : Modulus := ⟨15, .word, by decide, by decide⟩

theorem pos (M : Modulus) : 0 < M.value :=
  Nat.lt_of_lt_of_le (by decide) M.two_le

theorem value_lt_size (M : Modulus) : M.value < M.width.size := by
  have h := M.twice_lt
  omega

end Modulus

namespace Width

theorem size_eq_capacity (w : Width) : w.size = Bytes.capacity w.bytes := by
  cases w with
  | word => decide
  | wide => decide

end Width

end AffineForms
