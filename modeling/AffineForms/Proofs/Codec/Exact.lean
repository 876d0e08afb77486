import AffineForms.Codec.Reader
import AffineForms.Proofs.Codec.Layout
import AffineForms.VarMap.Lemmas

/-!
# Codec exactness — decoding accepts the encodings and nothing else

Each reader is characterised by the inputs on which it succeeds: the encoding of what it answers,
followed by the rest that it leaves.

* `readIndex_eq_ok_iff`, `readElement_eq_ok_iff` for the parts of fixed width;
* `readTerm_eq_ok_iff` for one term, and `readTerms_eq_ok_iff` for a run of them, both in terms of
  `Reads`: which terms lead from one state of the loop to another;
* `readForm_eq_ok_iff`, `readAffine_eq_ok_iff` for values, and `Form.decode_eq_ok_iff`,
  `Affine.decode_eq_ok_iff` for whole inputs.

The loop over the terms carries the invariant `TermProgress.Consistent`: the last variable read is
the last variable of the map.  With it the order check says that a new term goes to the end of the
map, so the entries of the map are the terms in the order in which they were read.
-/

namespace AffineForms

namespace Codec

variable {M : Modulus}

/-! ## Parts of fixed width -/

theorem takeBytes_eq_ok_iff {needed : Nat} {input bytes rest : List UInt8} :
    takeBytes needed input = .ok (bytes, rest) ↔ input = bytes ++ rest ∧ bytes.length = needed := by
  unfold takeBytes
  constructor
  · intro h
    split at h
    · cases h
    · rename_i hlen
      cases h
      exact ⟨(List.take_append_drop needed input).symm, List.length_take_of_le (by omega)⟩
  · rintro ⟨rfl, rfl⟩
    simp

theorem ofIndex?_toNat {bytes : List UInt8} (h : bytes.length = 8) :
    ∃ v, Var.ofIndex? (Bytes.toNat bytes) = some v ∧ v.encode = bytes := by
  have hlt : Bytes.toNat bytes < wordSize := by
    have hcapacity : wordSize = Bytes.capacity bytes.length := by rw [h]; rfl
    exact hcapacity ▸ Bytes.toNat_lt bytes
  refine ⟨⟨Bytes.toNat bytes, hlt⟩, dif_pos hlt, ?_⟩
  simpa [Var.encode, h] using Bytes.ofNat_toNat bytes

theorem readIndex_eq_ok_iff {input rest : List UInt8} {v : Var} :
    readIndex input = .ok (v, rest) ↔ input = v.encode ++ rest := by
  unfold readIndex
  constructor
  · intro h
    split at h
    · cases h
    · rename_i bytes left htake
      rcases takeBytes_eq_ok_iff.1 htake with ⟨rfl, hlen⟩
      rcases ofIndex?_toNat hlen with ⟨w, hw, rfl⟩
      rw [hw] at h
      cases h
      rfl
  · rintro rfl
    have hlen : v.encode.length = 8 := Bytes.length_ofNat 8 v.index
    rw [takeBytes_eq_ok_iff.2 ⟨rfl, hlen⟩]
    simp [Var.toNat_encode, Var.ofIndex?, v.index_lt]

theorem readElement_eq_ok_iff {input rest : List UInt8} {x : Residue M} :
    readElement input = .ok (x, rest) ↔ input = x.encode ++ rest := by
  unfold readElement
  constructor
  · intro h
    split at h
    · cases h
    · rename_i bytes left htake
      rcases takeBytes_eq_ok_iff.1 htake with ⟨rfl, hlen⟩
      split at h
      · cases h
      · rename_i hx
        cases h
        rw [Residue.encode_of_ofBytes? hlen hx]
  · rintro rfl
    rw [takeBytes_eq_ok_iff.2 ⟨rfl, Residue.length_encode x⟩]
    simp [Residue.ofBytes?_encode]

/-! ## Terms -/

/-- The last variable read is the last one of the map. -/
def TermProgress.Consistent (progress : TermProgress M) : Prop :=
  progress.previous = progress.terms.entries.getLast?.map Prod.fst

theorem unorderedAfter_eq_none_iff {progress : TermProgress M} (h : progress.Consistent) {v : Var} :
    unorderedAfter progress.previous v = none ↔ ∀ e ∈ progress.terms.entries, e.1 < v := by
  rw [unorderedAfter, h]
  rcases List.eq_nil_or_concat progress.terms.entries with hnil | ⟨init, last, hlast⟩
  · simp [hnil]
  · -- In an ascending map, to come after the last variable is to come after all of them.
    have hbefore : ∀ e ∈ init, e.1 < last.1 := by
      have hasc := progress.terms.ascending
      rw [hlast, List.concat_eq_append] at hasc
      intro e he
      exact (List.pairwise_append.1 hasc).2.2 e he last (by simp)
    have hiff : ¬ v ≤ last.1 ↔ last.1 < v := Nat.not_le
    constructor
    · intro hnone e he
      have hlt : last.1 < v := by simpa [hlast, hiff] using hnone
      rcases (by simpa [hlast] using he) with hinit | rfl
      · exact Var.lt_trans (hbefore e hinit) hlt
      · exact hlt
    · intro hall
      have hlt : last.1 < v := hall last (by simp [hlast])
      simpa [hlast, hiff] using hlt

/-- The given terms lead from one state to the other: they are what the input loses and what the map
gains, and none of them is zero. -/
structure Reads (terms : List (Var × Residue M)) (progress final : TermProgress M) : Prop where
  consistent : final.Consistent
  nonzero : ∀ e ∈ terms, e.2 ≠ 0
  input : progress.rest = terms.flatMap termBytes ++ final.rest
  entries : final.terms.entries = progress.terms.entries ++ terms

theorem reads_nil_iff {progress final : TermProgress M} (h : progress.Consistent) :
    Reads [] progress final ↔ final = progress := by
  constructor
  · rintro ⟨hfinal, _, hinput, hentries⟩
    have hterms : final.terms = progress.terms := VarMap.ext_entries (by simpa using hentries)
    have hprevious : final.previous = progress.previous := by
      rw [hfinal, h, hterms]
    have hrest : final.rest = progress.rest := by simpa using hinput.symm
    cases final
    cases progress
    simp_all
  · rintro rfl
    exact ⟨h, by simp, by simp, by simp⟩

theorem reads_cons_iff {e : Var × Residue M} {terms : List (Var × Residue M)}
    {progress final : TermProgress M} :
    Reads (e :: terms) progress final ↔
      ∃ next, Reads [e] progress next ∧ Reads terms next final := by
  constructor
  · rintro ⟨hfinal, hnonzero, hinput, hentries⟩
    have hascending := final.terms.ascending
    rw [hentries, List.append_cons] at hascending
    -- The entries after the first term are an initial part of the final ones, hence ascending.
    refine ⟨⟨⟨progress.terms.entries ++ [e], (List.pairwise_append.1 hascending).1⟩, some e.1,
      terms.flatMap termBytes ++ final.rest⟩, ?_, ?_⟩
    · refine ⟨by simp [TermProgress.Consistent], ?_, by simpa using hinput, rfl⟩
      intro d hd
      rcases List.mem_singleton.1 hd with rfl
      exact hnonzero d List.mem_cons_self
    · exact ⟨hfinal, fun d hd => hnonzero d (List.mem_cons_of_mem e hd), rfl, by simp [hentries]⟩
  · rintro ⟨next, hfirst, hrest⟩
    refine ⟨hrest.consistent, ?_, ?_, ?_⟩
    · intro d hd
      rcases List.mem_cons.1 hd with rfl | hd
      · exact hfirst.nonzero d List.mem_cons_self
      · exact hrest.nonzero d hd
    · simp [hfirst.input, hrest.input]
    · simp [hfirst.entries, hrest.entries]

theorem readTerm_eq_ok_iff {progress next : TermProgress M} (h : progress.Consistent) :
    readTerm progress = .ok next ↔ ∃ e, Reads [e] progress next := by
  unfold readTerm
  constructor
  · intro hread
    split at hread
    · cases hread
    rename_i v afterVar hvar
    split at hread
    · cases hread
    rename_i hordered
    split at hread
    · cases hread
    rename_i c afterElement helement
    split at hread
    · cases hread
    rename_i hc
    cases hread
    -- All four checks have passed, so the term read is stored behind the others.
    have hentries : (progress.terms.insert v c).entries = progress.terms.entries ++ [(v, c)] :=
      VarMap.entries_insert_of_forall_lt c ((unorderedAfter_eq_none_iff h).1 hordered)
    refine ⟨(v, c), by simp [TermProgress.Consistent, hentries], by simpa using hc, ?_, hentries⟩
    simp [readIndex_eq_ok_iff.1 hvar, readElement_eq_ok_iff.1 helement, termBytes]
  · rintro ⟨⟨v, c⟩, hnext, hnonzero, hinput, hentries⟩
    have hlt : ∀ e ∈ progress.terms.entries, e.1 < v := by
      have hascending := next.terms.ascending
      rw [hentries] at hascending
      intro e he
      exact (List.pairwise_append.1 hascending).2.2 e he (v, c) (by simp)
    -- Inserting the term gives the map of the next state, which has the same entries.
    have hterms : progress.terms.insert v c = next.terms := by
      apply VarMap.ext_entries
      rw [VarMap.entries_insert_of_forall_lt c hlt, hentries]
    have hc : c ≠ 0 := hnonzero (v, c) List.mem_cons_self
    have hprevious : next.previous = some v := by
      simpa [TermProgress.Consistent, hentries] using hnext
    have hvar : readIndex progress.rest = .ok (v, c.encode ++ next.rest) := by
      apply readIndex_eq_ok_iff.2
      simpa [termBytes] using hinput
    have helement : readElement (c.encode ++ next.rest) = .ok (c, next.rest) :=
      readElement_eq_ok_iff.2 rfl
    simp [hvar, helement, (unorderedAfter_eq_none_iff h).2 hlt, hc, hterms, ← hprevious]

theorem readTerms_eq_ok_iff {n : Nat} {progress final : TermProgress M} (h : progress.Consistent) :
    readTerms n progress = .ok final ↔ ∃ terms, terms.length = n ∧ Reads terms progress final := by
  induction n generalizing progress with
  | zero =>
      simp only [List.length_eq_zero_iff, exists_eq_left, reads_nil_iff h, readTerms,
        Except.ok.injEq]
      exact eq_comm
  | succ n ih =>
      rw [readTerms]
      constructor
      · intro hread
        split at hread
        · cases hread
        rename_i next hnext
        rcases (readTerm_eq_ok_iff h).1 hnext with ⟨e, hfirst⟩
        rcases (ih hfirst.consistent).1 hread with ⟨terms, hlength, hrest⟩
        exact ⟨e :: terms, by simp [hlength], reads_cons_iff.2 ⟨next, hfirst, hrest⟩⟩
      · rintro ⟨terms, hlength, hterms⟩
        cases terms with
        | nil => cases hlength
        | cons e terms =>
            rcases reads_cons_iff.1 hterms with ⟨next, hfirst, hrest⟩
            have hnext : readTerm progress = .ok next :=
              (readTerm_eq_ok_iff h).2 ⟨e, hfirst⟩
            have hlast : readTerms n next = .ok final :=
              (ih hfirst.consistent).2 ⟨terms, by simpa using hlength, hrest⟩
            simp [hnext, hlast]

/-- From the start, what is read is a whole map: its size and its terms are those of the input. -/
theorem readTerms_start_eq_ok_iff {n : Nat} {input : List UInt8} {final : TermProgress M} :
    readTerms n ⟨VarMap.empty, none, input⟩ = .ok final ↔
      final.Consistent ∧ final.terms.size = n ∧ final.terms.ZeroFree ∧
        input = final.terms.entries.flatMap termBytes ++ final.rest := by
  have hstart : TermProgress.Consistent ⟨(VarMap.empty : Terms M), none, input⟩ := rfl
  rw [readTerms_eq_ok_iff hstart]
  constructor
  · rintro ⟨terms, hlength, hfinal, hnonzero, hinput, hentries⟩
    -- The map was empty at the start, so it holds the terms read and no others.
    cases (show final.terms.entries = terms from hentries)
    exact ⟨hfinal, hlength, hnonzero, hinput⟩
  · rintro ⟨hfinal, hsize, hzero, hinput⟩
    exact ⟨final.terms.entries, hsize, hfinal, hzero, hinput, rfl⟩

/-! ## Values -/

/-- With at least one term to read, the terms read make a valid form. -/
theorem valid_of_readTerms {n : Nat} {input : List UInt8} {final : TermProgress M} (hn : n ≠ 0)
    (h : readTerms n ⟨VarMap.empty, none, input⟩ = .ok final) (c : Residue M) :
    Form.Valid ⟨c, final.terms⟩ := by
  obtain ⟨_, hsize, hzero, _⟩ := readTerms_start_eq_ok_iff.1 h
  refine ⟨?_, hzero⟩
  intro hnil
  exact hn (by rw [← hsize, VarMap.size, hnil]; rfl)

theorem assemble_of_valid {c : Residue M} {terms : Terms M} (h : Form.Valid ⟨c, terms⟩) :
    Affine.assemble c terms = .ok (.form ⟨c, terms⟩) := by
  rw [Affine.assemble_eq_ok h.2, Affine.collapse_of_ne_nil h.1]

theorem readForm_eq_ok_iff {input rest : List UInt8} {p : Form M} :
    readForm input = .ok (p, rest) ↔
      p.Valid ∧ p.size < wordSize ∧ input = p.encode ++ rest := by
  unfold readForm
  constructor
  · intro h
    split at h
    · cases h
    rename_i constant afterConstant hconstant
    split at h
    · cases h
    rename_i count afterCount hcount
    split at h
    · cases h
    rename_i hne
    split at h
    · cases h
    rename_i final hread
    -- The number of terms that was announced is the number that was read, and it is not zero.
    rcases readTerms_start_eq_ok_iff.1 hread with ⟨_, hsize, _, hbytes⟩
    have hvalid := valid_of_readTerms hne hread constant
    rw [assemble_of_valid hvalid] at h
    cases h
    refine ⟨hvalid, ?_, ?_⟩
    · rw [Form.size, hsize]
      exact count.index_lt
    · rw [readElement_eq_ok_iff.1 hconstant, readIndex_eq_ok_iff.1 hcount, hbytes, Form.encode_eq]
      simp [Var.encode, Form.size, hsize]
  · rintro ⟨hvalid, hsize, rfl⟩
    -- The same bytes in the order in which they are read.
    have hbytes : p.encode ++ rest =
        p.constant.encode ++ (Var.encode ⟨p.size, hsize⟩
          ++ (p.terms.entries.flatMap termBytes ++ rest)) := by
      simp [Form.encode_eq, Var.encode]
    have hne : p.size ≠ 0 := by
      intro hz
      exact hvalid.1 (List.length_eq_zero_iff.1 hz)
    have hread : readTerms p.size
        ⟨VarMap.empty, none, p.terms.entries.flatMap termBytes ++ rest⟩ =
          .ok ⟨p.terms, p.terms.entries.getLast?.map Prod.fst, rest⟩ :=
      readTerms_start_eq_ok_iff.2 ⟨rfl, rfl, hvalid.2, rfl⟩
    rw [hbytes, readElement_eq_ok_iff.2 rfl]
    simp only [readIndex_eq_ok_iff.2 rfl, if_neg hne, hread, assemble_of_valid hvalid]

/-- The terms read are zero-free, so the precondition on zeros is met whatever the input. -/
theorem readForm_ne_violated (input : List UInt8) (fault : Fault) :
    (readForm input : Except CodecFailure (Form M × List UInt8)) ≠ .error (.violated fault) := by
  intro h
  unfold readForm at h
  split at h
  · cases h
  split at h
  · cases h
  split at h
  · cases h
  split at h
  · cases h
  rename_i final hread
  -- Up to here no reader fails with a violation; the construction could, but for the zero check.
  have hzero : final.terms.ZeroFree := (readTerms_start_eq_ok_iff.1 hread).2.2.1
  split at h
  · rename_i hassemble
    rw [Affine.assemble_eq_ok hzero] at hassemble
    cases hassemble
  · cases h
  · cases h

theorem readAffine_eq_ok_iff {input rest : List UInt8} {r : Affine M} :
    readAffine input = .ok (r, rest) ↔
      r.Valid ∧ r.size < wordSize ∧ input = r.encode ++ rest := by
  constructor
  · intro h
    cases input with
    | nil => cases h
    | cons tag body =>
        simp only [readAffine, readByte] at h
        split at h
        · rename_i htag
          split at h
          · cases h
          · rename_i hc
            cases h
            refine ⟨trivial, (by decide : 0 < wordSize), ?_⟩
            rw [readElement_eq_ok_iff.1 hc, htag]
            rfl
        · split at h
          · rename_i htag
            split at h
            · cases h
            · rename_i hp
              cases h
              rcases readForm_eq_ok_iff.1 hp with ⟨hvalid, hsize, hbody⟩
              refine ⟨hvalid, hsize, ?_⟩
              rw [hbody, htag]
              rfl
          · cases h
  · rintro ⟨hvalid, hsize, rfl⟩
    cases r with
    | constant c =>
        have hc : readElement (c.encode ++ rest) = .ok (c, rest) := readElement_eq_ok_iff.2 rfl
        simp [readAffine, readByte, Affine.encode, hc]
    | form p =>
        have hp : readForm (p.encode ++ rest) = .ok (p, rest) :=
          readForm_eq_ok_iff.2 ⟨hvalid, hsize, rfl⟩
        -- The tag of constants is tried first.
        have htag : Affine.formTag ≠ Affine.constantTag := by decide
        simp [readAffine, readByte, Affine.encode, hp, htag]

theorem readAffine_ne_violated (input : List UInt8) (fault : Fault) :
    (readAffine input : Except CodecFailure (Affine M × List UInt8)) ≠
      .error (.violated fault) := by
  intro h
  unfold readAffine at h
  split at h
  · cases h
  split at h
  · split at h <;> cases h
  split at h
  · split at h
    · rename_i failure hform
      cases h
      exact readForm_ne_violated _ fault hform
    · cases h
  · cases h

theorem complete_eq_violated_iff {α : Type} {result : Except CodecFailure (α × List UInt8)}
    {fault : Fault} :
    complete result = .error (.violated fault) ↔ result = .error (.violated fault) := by
  rcases result with failure | ⟨read, rest⟩
  · simp [complete]
  · cases rest with
    | nil => simp [complete, finish]
    | cons b rest => simp [complete, finish]

theorem complete_eq_ok_iff {α : Type} {result : Except CodecFailure (α × List UInt8)} {value : α} :
    complete result = .ok value ↔ result = .ok (value, []) := by
  rcases result with failure | ⟨read, rest⟩
  · simp [complete]
  · cases rest with
    | nil => simp [complete, finish]
    | cons b rest => simp [complete, finish]

end Codec

/-! ## Whole inputs -/

theorem Form.decode_eq_ok_iff {M : Modulus} {bytes : List UInt8} {p : Form M} :
    Form.decode bytes = .ok p ↔ p.Valid ∧ p.size < wordSize ∧ p.encode = bytes := by
  rw [Form.decode, Codec.complete_eq_ok_iff, Codec.readForm_eq_ok_iff, List.append_nil,
    eq_comm (a := bytes)]

theorem Affine.decode_eq_ok_iff {M : Modulus} {bytes : List UInt8} {r : Affine M} :
    Affine.decode bytes = .ok r ↔ r.Valid ∧ r.size < wordSize ∧ r.encode = bytes := by
  rw [Affine.decode, Codec.complete_eq_ok_iff, Codec.readAffine_eq_ok_iff, List.append_nil,
    eq_comm (a := bytes)]

theorem Form.decode_ne_violated {M : Modulus} (bytes : List UInt8) (fault : Fault) :
    (Form.decode bytes : Except CodecFailure (Form M)) ≠ .error (.violated fault) := by
  rw [Form.decode, Ne, Codec.complete_eq_violated_iff]
  exact Codec.readForm_ne_violated bytes fault

theorem Affine.decode_ne_violated {M : Modulus} (bytes : List UInt8) (fault : Fault) :
    (Affine.decode bytes : Except CodecFailure (Affine M)) ≠ .error (.violated fault) := by
  rw [Affine.decode, Ne, Codec.complete_eq_violated_iff]
  exact Codec.readAffine_ne_violated bytes fault

/-- Every valid value whose number of terms fits into a word comes back from its encoding, and
whatever is accepted is the encoding of the valid value that is answered. -/
theorem codec_exact (M : Modulus) :
    (∀ p : Form M, p.Valid → p.size < wordSize → Form.decode p.encode = .ok p) ∧
      (∀ r : Affine M, r.Valid → r.size < wordSize → Affine.decode r.encode = .ok r) ∧
      (∀ (bytes : List UInt8) (p : Form M), Form.decode bytes = .ok p →
        p.Valid ∧ p.size < wordSize ∧ p.encode = bytes) ∧
      (∀ (bytes : List UInt8) (r : Affine M), Affine.decode bytes = .ok r →
        r.Valid ∧ r.size < wordSize ∧ r.encode = bytes) := by
  refine ⟨?_, ?_, ?_, ?_⟩
  · intro p hvalid hsize
    exact Form.decode_eq_ok_iff.2 ⟨hvalid, hsize, rfl⟩
  · intro r hvalid hsize
    exact Affine.decode_eq_ok_iff.2 ⟨hvalid, hsize, rfl⟩
  · intro bytes p hp
    exact Form.decode_eq_ok_iff.1 hp
  · intro bytes r hr
    exact Affine.decode_eq_ok_iff.1 hr

theorem codec_exact_sample :
    Form.sample.Valid ∧ Form.sample.size < wordSize ∧
      Form.decode Form.sample.encode = .ok Form.sample ∧
      Affine.decode (Affine.form Form.sample).encode = .ok (Affine.form Form.sample) ∧
      Form.sample.encode.length = 48 := by
  have hvalid : Form.sample.Valid := by decide
  have hsize : Form.sample.size < wordSize := by decide
  have hform := (codec_exact Modulus.seven).1 Form.sample hvalid hsize
  have hvalue := (codec_exact Modulus.seven).2.1 (.form Form.sample) hvalid hsize
  -- The converse at the same bytes: what is accepted there is encoded by them.
  have hback := (codec_exact Modulus.seven).2.2.1 Form.sample.encode Form.sample hform
  exact ⟨hback.1, hback.2.1, hform, hvalue, by decide⟩

end AffineForms
