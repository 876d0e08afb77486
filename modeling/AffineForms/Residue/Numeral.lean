import AffineForms.Residue.Sign

/-!
# Numerals — the written form of a coefficient

A number that fits into a machine word is written in decimal, any other in hexadecimal after `0x`,
without leading zeros.  `Numeral.ofBytes` writes a little-endian integer of eight bytes or more by
this rule; a residue of one word is written in decimal outright.

`Residue.signedNumeral` reads a negative residue as minus its magnitude.  `Residue.inspect` shows
the stored representative instead, with the modulus on one word, and in full width on four.
-/

namespace AffineForms

namespace Numeral

def decimal (n : Nat) : List Char := Nat.toDigits 10 n

/-- The two hexadecimal digits of a byte. -/
def bytePair (b : UInt8) : List Char :=
  [Nat.digitChar (b.toNat / 16), Nat.digitChar (b.toNat % 16)]

/-- The digits of a big-endian integer whose first byte is not zero. -/
def significant : List UInt8 → List Char
  | [] => []
  | b :: bs => Nat.toDigits 16 b.toNat ++ bs.flatMap bytePair

def ofBytes (bytes : List UInt8) : List Char :=
  if (bytes.drop 8).all (· == 0) then
    decimal (Bytes.toNat (bytes.take 8))
  else
    '0' :: 'x' :: significant (bytes.reverse.dropWhile (· == 0))

end Numeral

namespace Residue

variable {M : Modulus}

def numeral (x : Residue M) : List Char :=
  match M.width with
  | .word => Numeral.decimal x.val
  | .wide => Numeral.ofBytes x.encode

def signedNumeral (x : Residue M) : List Char :=
  (bif x.isNegative then ['-'] else []) ++ x.magnitude.numeral

def inspect (x : Residue M) : List Char :=
  match M.width with
  | .word =>
      Numeral.decimal x.val ++ " (mod ".toList ++ Numeral.decimal M.value ++ [')']
  | .wide =>
      '0' :: 'x' :: x.encode.reverse.flatMap Numeral.bytePair

end Residue

end AffineForms
