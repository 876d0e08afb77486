import AffineForms.Residue.Basic

/-!
# Residue sampling — rejection from the top bits of random words

The candidate of a 64-bit word is its top bits, as many as `M.value - 1` needs.  `Residue.sample?`
takes the first candidate below the modulus from a list of words, and also answers how many words
it consumed.  Every residue is the candidate of equally many words, so the choice is unbiased.
-/

namespace AffineForms

namespace Modulus

/-- The number of bits of the largest representative. -/
def bitLength (M : Modulus) : Nat := (M.value - 1).log2 + 1

/-- How far a word is shifted down to leave the bits of a candidate. -/
def sampleShift (M : Modulus) : Nat := 64 - M.bitLength

def candidate (M : Modulus) (word : UInt64) : Nat := word.toNat >>> M.sampleShift

end Modulus

namespace Residue

variable {M : Modulus}

def sample? : List UInt64 → Option (Residue M × Nat)
  | [] => none
  | word :: words =>
      if h : M.candidate word < M.value then
        some (⟨M.candidate word, h⟩, 1)
      else
        (sample? words).map fun (x, used) => (x, used + 1)

end Residue

end AffineForms
