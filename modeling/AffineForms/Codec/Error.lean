import AffineForms.Form.Basic
import AffineForms.Residue.Numeral

/-!
# Codec errors — why bytes are refused

`CodecError` lists the ways in which bytes can fail to describe a value, each with what its message
needs.  `CodecFailure` adds the fault of a precondition that a decoder would have violated itself.
-/

namespace AffineForms

inductive CodecError where
  | unexpectedEnd (needed remaining : Nat)
  | trailing (count : Nat)
  | nonCanonical
  | zeroCoefficient (v : Var)
  | unordered (previous next : Var)
  | emptyTerms
  | invalidTag (tag : UInt8)
  | outOfRange (value : Nat)
  deriving DecidableEq, Repr

namespace CodecError

def message : CodecError → String
  | unexpectedEnd needed remaining =>
      "unexpected end of input: needed " ++ toString needed ++ " bytes, "
        ++ toString remaining ++ " remaining"
  | trailing count => toString count ++ " trailing bytes after encoded value"
  | nonCanonical => "field element encoding is not canonical"
  | zeroCoefficient v => "zero coefficient for variable " ++ String.ofList v.render
  | unordered previous next =>
      "variable " ++ String.ofList next.render ++ " does not follow "
        ++ String.ofList previous.render ++ " in ascending order"
  | emptyTerms => "polynomial encoding has no variable terms"
  | invalidTag tag => "invalid tag byte 0x" ++ String.ofList (Numeral.bytePair tag)
  | outOfRange value => "value " ++ toString value ++ " exceeds the addressable range"

end CodecError

inductive CodecFailure where
  | refused (error : CodecError)
  | violated (fault : Fault)
  deriving DecidableEq, Repr

end AffineForms
