import AffineForms.Form.Basic
import AffineForms.Residue.Numeral

/-!
# Form rendering — the written form of affine values

A form is written as its constant followed by its terms in ascending order of the variables, as in
`3 + 2·x0 - x1`.  Coefficients above the midpoint are written as negative numbers.  A zero constant
is left out, and so is the magnitude one of a coefficient.  A constant alone is always written.

`Affine.inspect` shows the stored constant and coefficients instead.
-/

namespace AffineForms

namespace Form

variable {M : Modulus}

/-- What is written before a term: whether it comes first, and whether it is negative, decide. -/
def separator : Bool → Bool → List Char
  | true, false => []
  | true, true => ['-']
  | false, false => [' ', '+', ' ']
  | false, true => [' ', '-', ' ']

def renderMagnitude (c : Residue M) : List Char :=
  if c.magnitude = 1 then [] else c.magnitude.numeral ++ ['·']

def renderTerms : Bool → List (Var × Residue M) → List Char
  | _, [] => []
  | leading, (v, c) :: rest =>
      separator leading c.isNegative ++ renderMagnitude c ++ v.render ++ renderTerms false rest

def render (p : Form M) : List Char :=
  (if p.constant = 0 then [] else p.constant.signedNumeral)
    ++ renderTerms (p.constant == 0) p.terms.entries

def inspect (p : Form M) : List Char :=
  let term (e : Var × Residue M) : List Char := e.1.inspect ++ [':', ' '] ++ e.2.inspect
  "Polynomial \x7b constant: ".toList ++ p.constant.inspect
    ++ ", terms: \x7b".toList
    ++ [',', ' '].intercalate (p.terms.entries.map term)
    ++ "\x7d \x7d".toList

end Form

namespace Affine

variable {M : Modulus}

def render : Affine M → List Char
  | constant c => c.signedNumeral
  | form p => p.render

def inspect : Affine M → List Char
  | constant c => "Constant(".toList ++ c.inspect ++ [')']
  | form p => "Polynomial(".toList ++ p.inspect ++ [')']

end Affine

end AffineForms
