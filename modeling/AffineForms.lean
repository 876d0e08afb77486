import AffineForms.Checked
import AffineForms.Bytes
import AffineForms.Modulus
import AffineForms.Modular
import AffineForms.Residue.Basic
import AffineForms.Residue.Power
import AffineForms.Residue.SquareRoot
import AffineForms.Residue.Sampling
import AffineForms.Residue.Encoding
import AffineForms.Residue.Sign
import AffineForms.Residue.Numeral
import AffineForms.Variable
import AffineForms.VarMap.Basic
import AffineForms.VarMap.Lemmas
import AffineForms.Assignment
import AffineForms.Form.Basic
import AffineForms.Form.Algebra
import AffineForms.Form.Substitution
import AffineForms.Form.Order
import AffineForms.Form.Hashing
import AffineForms.Form.Rendering
import AffineForms.Codec.Error
import AffineForms.Codec.Writer
import AffineForms.Codec.Reader
import AffineForms.Constraints
import AffineForms.Proofs.Residue.Ring
import AffineForms.Proofs.Residue.Power
import AffineForms.Proofs.Residue.Signs
import AffineForms.Proofs.Residue.Squares
import AffineForms.Proofs.Residue.Descent
import AffineForms.Proofs.Residue.Arithmetic
import AffineForms.Proofs.Residue.Numerals
import AffineForms.Proofs.Codec.Layout
import AffineForms.Proofs.Codec.Exact
import AffineForms.Proofs.Codec.Continuation
import AffineForms.Proofs.Codec.Streaming
import AffineForms.Proofs.Codec.Safety
import AffineForms.Proofs.Form.ZeroFree
import AffineForms.Proofs.Constraints.Dedup
import AffineForms.Proofs.Form.Runs
import AffineForms.Proofs.Form.SignClass
import AffineForms.Proofs.Form.SortKey
import AffineForms.Proofs.Form.Streams
import AffineForms.Proofs.Form.Evaluation
import AffineForms.Proofs.Form.Meaning
import AffineForms.Proofs.Form.Replacement
import AffineForms.Proofs.Form.Substitution
import AffineForms.Proofs.Form.Elimination
import AffineForms.Proofs.Form.Composition
import AffineForms.Proofs.Form.Binding
import AffineForms.Proofs.Form.BackSubstitution
import AffineForms.Proofs.Constraints.Representatives
import AffineForms.Proofs.Constraints.Simplification
import AffineForms.Proofs.Constraints.Propagation
import AffineForms.Proofs.Form.Negation
import AffineForms.Proofs.Form.Reading
import AffineForms.Proofs.Residue.Termination
import AffineForms.Proofs.Form.Assigning
import AffineForms.Proofs.Form.Rounds
import AffineForms.Proofs.Form.Denotation
import AffineForms.Proofs.Form.ModuleLaws
import AffineForms.Proofs.Form.Relabelling
import AffineForms.Proofs.Form.Naturality
import AffineForms.Proofs.Codec.Elements
import AffineForms.Proofs.Constraints.Batches
import AffineForms.Proofs.Form.Collecting
import AffineForms.Proofs.Form.Merging
import AffineForms.Proofs.Form.SingleTerms
import AffineForms.Proofs.Residue.Sampling
import AffineForms.Proofs.Form.Inversion
import AffineForms.Proofs.Codec.Writing
import AffineForms.Proofs.Residue.Magnitudes
import AffineForms.Proofs.Residue.Spelling
import AffineForms.Proofs.Form.Accumulating
