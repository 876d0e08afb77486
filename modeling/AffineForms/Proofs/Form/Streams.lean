import Mathlib.Data.List.TFAE
import AffineForms.Form.Hashing
import AffineForms.Proofs.Codec.Layout
import AffineForms.Proofs.Form.SortKey

/-!
# Streams — equality, order, hashing and encoding of normal forms agree

Equality up to sign, the order and the hash stream of forms are computed without building a normal
form, each in its own way.  All three depend on the normal form alone, and determine it:

* `hashStream_eq_iff` for the hash stream, whose pieces have fixed widths and can be told apart;
* `encode_normalize_eq_iff` for the encoding of the normal form;
* `sameConstraint_agrees` puts these together with equality and order.

For values the leading byte of the stream keeps constants and forms apart
(`Affine.sameConstraint_iff_hashStream`).
-/

namespace AffineForms

section Slices

variable {M : Modulus}

@[simp] theorem length_hashSlice (bytes : List UInt8) :
    (hashSlice bytes).length = 8 + bytes.length := by
  simp [hashSlice]

theorem hashSlice_encode_inj {x y : Residue M} (h : hashSlice x.encode = hashSlice y.encode) :
    x = y := by
  rcases List.append_inj h (by simp) with ⟨_, hencode⟩
  exact Residue.encode_inj.1 hencode

end Slices

namespace Form

variable {M : Modulus} {p q : Form M}

/-! ## Hash streams -/

/-- What a term of a normal form feeds to a hash function. -/
def hashTerm (e : Var × Residue M) : List UInt8 := e.1.encode ++ hashSlice e.2.encode

theorem length_hashTerm (e : Var × Residue M) : (hashTerm e).length = 16 + M.width.bytes := by
  simp [hashTerm, Var.encode]
  omega

theorem hashTerm_inj {d e : Var × Residue M} (h : hashTerm d = hashTerm e) : d = e := by
  rcases List.append_inj h (by simp [Var.encode]) with ⟨hvar, hcoefficient⟩
  exact Prod.ext (Var.encode_inj hvar) (hashSlice_encode_inj hcoefficient)

theorem hashStream_eq (p : Form M) :
    p.hashStream =
      hashSlice p.normalize.constant.encode ++ Bytes.ofNat 8 p.normalize.size
        ++ p.normalize.terms.entries.flatMap hashTerm := by
  rw [size_normalize, normalize_eq]
  simp [hashStream, VarMap.mapValues, hashTerm, List.flatMap_map, size]

theorem hashStream_eq_iff : p.hashStream = q.hashStream ↔ p.normalize = q.normalize := by
  constructor
  · intro h
    rw [hashStream_eq, hashStream_eq] at h
    -- Constant, count and terms stand at fixed places of the stream.
    rcases List.append_inj h (by simp) with ⟨hhead, hterms⟩
    rcases List.append_inj hhead (by simp) with ⟨hconstant, _⟩
    have hentries := flatMap_inj_of_length (by omega) length_hashTerm
      (fun _ _ _ _ => hashTerm_inj) hterms
    exact ext (hashSlice_encode_inj hconstant) hentries
  · intro h
    rw [hashStream_eq, hashStream_eq, h]

theorem encode_normalize_eq_iff :
    p.normalize.encode = q.normalize.encode ↔ p.normalize = q.normalize :=
  ⟨encode_inj, congrArg encode⟩

end Form

/-! ## Values -/

namespace Affine

variable {M : Modulus}

theorem hashStream_constant_ne_form (c : Residue M) (p : Form M) :
    (constant c).hashStream ≠ (form p).hashStream := by
  intro h
  have htag : (0 : UInt8) = 1 := (List.cons.inj h).1
  exact absurd htag (by decide)

theorem sameConstraint_iff_hashStream (hM : M.OddOrTwo) {r s : Affine M} (hr : r.Valid)
    (hs : s.Valid) : r.sameConstraint s = true ↔ r.hashStream = s.hashStream := by
  cases r with
  | constant c =>
      cases s with
      | constant d =>
          have hstream : (constant c).hashStream = (constant d).hashStream ↔ c = d := by
            constructor
            · intro h
              exact hashSlice_encode_inj (List.cons.inj h).2
            · rintro rfl
              rfl
          rw [hstream]
          simp [sameConstraint]
      | form q => simp [sameConstraint, hashStream_constant_ne_form]
  | form p =>
      cases s with
      | constant d => simp [sameConstraint, (hashStream_constant_ne_form d p).symm]
      | form q =>
          -- Behind equal leading bytes stand the streams of the forms.
          have hstream : (form p).hashStream = (form q).hashStream ↔ p.normalize = q.normalize := by
            rw [← Form.hashStream_eq_iff]
            exact List.cons_inj_right 1
          rw [hstream]
          exact Form.sameConstraint_iff_normalize hM hr hs

end Affine

/-! ## Agreement -/

/-- Whether two valid forms state the same constraint is decided alike by the equality, the order,
the hash streams, the normal forms and their encodings; and two values are equal as constraints
exactly when their hash streams are. -/
theorem sameConstraint_agrees {M : Modulus} (hM : M.OddOrTwo) :
    (∀ p q : Form M, p.Valid → q.Valid →
      [p.sameConstraint q = true, p = q ∨ p = q.neg, p.compare q = .eq,
        p.hashStream = q.hashStream, p.normalize = q.normalize,
        p.normalize.encode = q.normalize.encode].TFAE) ∧
      (∀ r s : Affine M, r.Valid → s.Valid →
        (r.sameConstraint s = true ↔ r.hashStream = s.hashStream)) ∧
      ∀ (c : Residue M) (p : Form M),
        (Affine.constant c).hashStream ≠ (Affine.form p).hashStream := by
  refine ⟨?_, ?_, Affine.hashStream_constant_ne_form⟩
  · intro p q hp hq
    have hsame := Form.sameConstraint_iff_normalize hM hp hq
    -- Each of the statements is equivalent to the equality of the normal forms.
    apply List.tfae_of_forall (p.normalize = q.normalize)
    intro statement hmem
    simp only [List.mem_cons, List.not_mem_nil, or_false] at hmem
    rcases hmem with rfl | rfl | rfl | rfl | rfl | rfl
    · exact hsame
    · rw [← Form.sameConstraint_iff]
      exact hsame
    · exact Form.compare_eq_eq_iff
    · exact Form.hashStream_eq_iff
    · exact Iff.rfl
    · exact Form.encode_normalize_eq_iff
  · intro r s hr hs
    exact Affine.sameConstraint_iff_hashStream hM hr hs

theorem sameConstraint_agrees_sample :
    Modulus.seven.OddOrTwo ∧ Form.sample.Valid ∧ Form.sample.neg.Valid ∧
      Form.sample ≠ Form.sample.neg ∧ Form.sample.hashStream = Form.sample.neg.hashStream ∧
      Form.sample.compare Form.sample.neg = .eq ∧
      (Affine.form Form.sample).hashStream = (Affine.form Form.sample.neg).hashStream := by
  have hM : Modulus.seven.OddOrTwo := by decide
  have hp : Form.sample.Valid := by decide
  have hq : Form.sample.neg.Valid := by decide
  have hsame : Form.sample.sameConstraint Form.sample.neg = true := by decide
  have htfae := (sameConstraint_agrees hM).1 Form.sample Form.sample.neg hp hq
  have hvalues := (sameConstraint_agrees hM).2.1 (.form Form.sample) (.form Form.sample.neg) hp hq
  exact ⟨hM, hp, hq, by decide, (htfae.out 0 3).1 hsame, (htfae.out 0 2).1 hsame, hvalues.1 hsame⟩

end AffineForms
