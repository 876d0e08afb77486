import AffineForms.Codec.Error
import AffineForms.Codec.Writer

/-!
# Codec reader — decoding untrusted bytes

The readers take the bytes that are left and answer what they read together with the rest.
`Form.decode` and `Affine.decode` accept exactly the encodings of valid values; everything else is
refused with the first `CodecError` that reading from the left comes upon.

The terms are read one at a time by `readTerm`, whose state (`TermProgress`) holds the terms read so
far, the last variable and the rest of the input.
-/

namespace AffineForms

namespace Codec

variable {M : Modulus}

/-! ## Parts of fixed width -/

def takeBytes (needed : Nat) (input : List UInt8) :
    Except CodecError (List UInt8 × List UInt8) :=
  if input.length < needed then
    .error (.unexpectedEnd needed input.length)
  else
    .ok (input.take needed, input.drop needed)

def readByte : List UInt8 → Except CodecError (UInt8 × List UInt8)
  | [] => .error (.unexpectedEnd 1 0)
  | b :: rest => .ok (b, rest)

/-- Reads a word that has to be an index: a variable, or a number of terms. -/
def readIndex (input : List UInt8) : Except CodecError (Var × List UInt8) :=
  match takeBytes 8 input with
  | .error e => .error e
  | .ok (bytes, rest) =>
      match Var.ofIndex? (Bytes.toNat bytes) with
      | none => .error (.outOfRange (Bytes.toNat bytes))
      | some v => .ok (v, rest)

def readElement (input : List UInt8) : Except CodecError (Residue M × List UInt8) :=
  match takeBytes M.width.bytes input with
  | .error e => .error e
  | .ok (bytes, rest) =>
      match Residue.ofBytes? bytes with
      | none => .error .nonCanonical
      | some x => .ok (x, rest)

def finish : List UInt8 → Except CodecError Unit
  | [] => .ok ()
  | rest => .error (.trailing rest.length)

/-! ## Terms -/

structure TermProgress (M : Modulus) where
  terms : Terms M
  previous : Option Var
  rest : List UInt8
  deriving DecidableEq, Repr

/-- The last variable read, when the next one does not come after it. -/
def unorderedAfter (previous : Option Var) (next : Var) : Option Var :=
  previous.filter fun p => next ≤ p

/-- Reads a variable, which has to come after the last one, and its coefficient, which must not be
zero. -/
def readTerm (progress : TermProgress M) : Except CodecError (TermProgress M) :=
  match readIndex progress.rest with
  | .error e => .error e
  | .ok (v, rest) =>
      match unorderedAfter progress.previous v with
      -- The order is checked before the coefficient is read.
      | some previous => .error (.unordered previous v)
      | none =>
          match (readElement rest : Except CodecError (Residue M × List UInt8)) with
          | .error e => .error e
          | .ok (c, rest) =>
              if c = 0 then
                .error (.zeroCoefficient v)
              else
                .ok ⟨progress.terms.insert v c, some v, rest⟩

def readTerms : Nat → TermProgress M → Except CodecError (TermProgress M)
  | 0, progress => .ok progress
  | n + 1, progress =>
      match readTerm progress with
      | .error e => .error e
      | .ok next => readTerms n next

/-! ## Forms -/

def readForm (input : List UInt8) : Except CodecFailure (Form M × List UInt8) :=
  match (readElement input : Except CodecError (Residue M × List UInt8)) with
  | .error e => .error (.refused e)
  | .ok (constant, rest) =>
      match readIndex rest with
      | .error e => .error (.refused e)
      | .ok (count, rest) =>
          -- A form without terms is refused before anything else is read.
          if count.index = 0 then
            .error (.refused .emptyTerms)
          else
            match readTerms count.index ⟨VarMap.empty, none, rest⟩ with
            | .error e => .error (.refused e)
            | .ok progress =>
                match Affine.assemble constant progress.terms with
                | .error fault => .error (.violated fault)
                | .ok (.form p) => .ok (p, progress.rest)
                | .ok (.constant _) => .error (.refused .emptyTerms)

/-- Reads a value behind its tag. -/
def readAffine (input : List UInt8) : Except CodecFailure (Affine M × List UInt8) :=
  match readByte input with
  | .error e => .error (.refused e)
  | .ok (tag, rest) =>
      if tag = Affine.constantTag then
        match (readElement rest : Except CodecError (Residue M × List UInt8)) with
        | .error e => .error (.refused e)
        | .ok (c, rest) => .ok (.constant c, rest)
      else if tag = Affine.formTag then
        match (readForm rest : Except CodecFailure (Form M × List UInt8)) with
        | .error failure => .error failure
        | .ok (p, rest) => .ok (.form p, rest)
      else
        .error (.refused (.invalidTag tag))

/-! ## Whole inputs -/

/-- Keeps what was read when nothing is left over. -/
def complete {α : Type} : Except CodecFailure (α × List UInt8) → Except CodecFailure α
  | .error failure => .error failure
  | .ok (value, rest) =>
      match finish rest with
      | .error e => .error (.refused e)
      | .ok () => .ok value

end Codec

namespace Form

variable {M : Modulus}

def decode (bytes : List UInt8) : Except CodecFailure (Form M) :=
  Codec.complete (Codec.readForm bytes)

end Form

namespace Affine

variable {M : Modulus}

def decode (bytes : List UInt8) : Except CodecFailure (Affine M) :=
  Codec.complete (Codec.readAffine bytes)

end Affine

end AffineForms
