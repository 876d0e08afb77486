import AffineForms.Residue.Power

/-!
# Residue square roots — descent through the 2-part of the unit group

For an odd prime `p = q * 2 ^ s + 1` with `q` odd, a root of the square `x` is found by descent.
A state of the descent (`Descent`) holds a candidate `root` together with its `defect`, where
`root ^ 2 = x * defect`, and a `generator` of order `2 ^ exponent`.  Each step multiplies the
candidate by a power of the generator that lowers the order of the defect; the descent ends when
the defect is one.

* `Residue.isSquare` is the test by the power `(p - 1) / 2`;
* `Residue.leastNonResidue?` searches the non-squares from two upwards, which settles which of the
  two roots is found;
* `Residue.squareRoot` is a root of a square, `none` for a non-square;
* `Residue.squareRootRatio` is the root of a quotient, or of the quotient times the least
  non-square.

For a composite modulus the searches can fail, and `RootFailure` says how.
-/

namespace AffineForms

inductive RootFailure where
  | noNonResidue
  | underflow
  | unfinished
  | productNotSquare
  deriving DecidableEq, Repr

namespace RootFailure

def message : RootFailure → String
  | noNonResidue => "an odd prime field always has a quadratic non-residue"
  | underflow => Overflow.sub.message
  | unfinished => "the descent does not end"
  | productNotSquare => "product of two non-residues is a residue"

end RootFailure

/-- The exponent of two in `n`, and the cofactor left after dividing it out. -/
def splitTwos : Nat → Nat → Nat × Nat
  | 0, n => (0, n)
  | fuel + 1, n =>
      if n % 2 = 0 then
        let (s, q) := splitTwos fuel (n / 2)
        (s + 1, q)
      else
        (0, n)

structure Descent (M : Modulus) where
  exponent : Nat
  generator : Residue M
  defect : Residue M
  root : Residue M
  deriving DecidableEq, Repr

namespace Residue

variable {M : Modulus}

/-! ## Squares and non-squares -/

def isSquare (x : Residue M) : Bool :=
  M.value == 2 || x == 0 || x.pow ((M.value - 1) / 2) == 1

/-- The first non-square among the `fuel` numbers from `n` upwards. -/
def nonResidueFrom? : Nat → Nat → Option (Residue M)
  | 0, _ => none
  | fuel + 1, n =>
      let candidate : Residue M := ofNat n
      if candidate.isSquare then nonResidueFrom? fuel (n + 1) else some candidate

def leastNonResidue? : Option (Residue M) :=
  nonResidueFrom? (M.value - 2) 2

/-! ## Repeated squaring -/

def squareTimes : Nat → Residue M → Residue M
  | 0, x => x
  | n + 1, x => squareTimes n x.square

/-- The least number of squarings that take `x` to one, when fewer than `fuel` suffice. -/
def squaringsToOne? : Nat → Residue M → Option Nat
  | 0, _ => none
  | fuel + 1, x =>
      if x = 1 then some 0 else (squaringsToOne? fuel x.square).map (· + 1)

end Residue

/-! ## Descent -/

namespace Descent

variable {M : Modulus}

/-- The state the descent to a root of `x` starts from, for `M.value - 1 = q * 2 ^ s` and a
non-square `z`. -/
def start (x z : Residue M) (s q : Nat) : Descent M where
  exponent := s
  generator := z.pow q
  defect := x.pow q
  root := x.pow ((q + 1) / 2)

/-- The number `m - i - 1` of squarings of the generator, refused when it would be negative. -/
def gap (m i : Nat) : Except RootFailure Nat :=
  match Checked.sub m i with
  | .error _ => .error .underflow
  | .ok d =>
      match Checked.sub d 1 with
      | .error _ => .error .underflow
      | .ok g => .ok g

/-- Lowers the order of a defect other than one. -/
def step (d : Descent M) : Except RootFailure (Descent M) :=
  match Residue.squaringsToOne? M.width.bits d.defect with
  | none => .error .unfinished
  | some i =>
      match gap d.exponent i with
      | .error failure => .error failure
      | .ok g =>
          -- The factor's square has the order of the defect, so their product has a smaller one.
          let factor := Residue.squareTimes g d.generator
          .ok
            { exponent := i
              generator := factor.square
              defect := d.defect * factor.square
              root := d.root * factor }

/-- Descends until the defect is one, for at most `fuel` rounds. -/
def run : Nat → Descent M → Except RootFailure (Residue M)
  | 0, d => if d.defect = 1 then .ok d.root else .error .unfinished
  | fuel + 1, d =>
      if d.defect = 1 then
        .ok d.root
      else
        match d.step with
        | .error failure => .error failure
        | .ok next => run fuel next

end Descent

/-! ## Roots -/

namespace Residue

variable {M : Modulus}

def squareRoot (x : Residue M) : Except RootFailure (Option (Residue M)) :=
  if M.value = 2 ∨ x = 0 then
    .ok (some x)
  else if x.isSquare then
    match (leastNonResidue? : Option (Residue M)) with
    | none => .error .noNonResidue
    | some z =>
        let (s, q) := splitTwos M.width.bits (M.value - 1)
        ((Descent.start x z s q).run M.width.bits).map some
  else
    .ok none

/-- A root of `num / div` and `true`, or else a root of the quotient times the least non-square
and `false`; zero has the root zero, and a quotient by zero counts as no square. -/
def squareRootRatio (num div : Residue M) : Except RootFailure (Bool × Residue M) :=
  if num = 0 then
    .ok (true, 0)
  else if div = 0 then
    .ok (false, 0)
  else do
    -- The power is the inverse of the divisor when the modulus is prime.
    let ratio := num * div.pow (M.value - 2)
    match ← squareRoot ratio with
    | some root => .ok (true, root)
    | none =>
        match (leastNonResidue? : Option (Residue M)) with
        | none => .error .noNonResidue
        | some z =>
            match ← squareRoot (ratio * z) with
            | some root => .ok (false, root)
            | none => .error .productNotSquare

/-- The root of a square, `none` for a non-square: the ratio to one, kept when it is a square. -/
def sqrt? (x : Residue M) : Except RootFailure (Option (Residue M)) := do
  let (square, root) ← squareRootRatio x 1
  .ok (bif square then some root else none)

end Residue

end AffineForms
