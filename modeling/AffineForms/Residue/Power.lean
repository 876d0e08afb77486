import AffineForms.Residue.Basic

/-!
# Residue powers — square and multiply

`Residue.pow x e` walks the binary digits of `e` from the most significant one, squaring at each
digit and multiplying by `x` at each digit that is set.  `Residue.invert?` is the power
`M.value - 2`, the inverse of a non-zero residue when the modulus is prime.

The walk is one way to compute powers.  Inverses and square roots rely on the power itself, so any
other way may take its place; what is then assumed of it is `Residue.RaisesToPowers`.
-/

namespace AffineForms

/-- The binary digits of an exponent, most significant first. -/
def binaryDigits (e : Nat) : List Bool :=
  (List.range (e.log2 + 1)).reverse.map e.testBit

/-- The exponent whose 64-bit limbs are given, least significant first. -/
def exponentOfLimbs : List UInt64 → Nat
  | [] => 0
  | limb :: limbs => limb.toNat + wordSize * exponentOfLimbs limbs

namespace Residue

variable {M : Modulus}

def powStep (x acc : Residue M) (digit : Bool) : Residue M :=
  bif digit then acc.square * x else acc.square

/-- The power `x ^ e`.  Nothing about the walk is relied on beyond this (`pow_eq`). -/
def pow (x : Residue M) (e : Nat) : Residue M :=
  (binaryDigits e).foldl x.powStep 1

/-- The power `M.value - 2` of a non-zero residue; zero has no inverse. -/
def invert? (x : Residue M) : Option (Residue M) :=
  if x = 0 then none else some (x.pow (M.value - 2))

end Residue

end AffineForms
