import AffineForms.Proofs.Codec.Streaming

/-!
# Safety — decoding untrusted bytes answers, and does no more work than the input pays for

The number of terms that a header announces is up to whoever wrote the bytes, and the loop over the
terms runs that often unless a term is refused.  `Codec.insertions` follows the loop and counts the
terms that are put into the map before it answers (`stops_insertions`).  `Codec.Course` says what
reading a form comes to with a number of insertions on the way, and `course_readForm` that the count
is the right one for every input, refused ones included.  Each insertion takes its bytes from the
input, so their number is bounded by the length of the input whatever the header says
(`readTerms_mul_le`), and a header that announces more terms than there are is refused.

* `Codec.Safe` collects what a decoder guarantees for all bytes;
* `decode_safe` states it for forms and for values, along with what no reader relies on unchecked:
  the widths of the parts, and the shape of the terms when the value is put together.
-/

namespace AffineForms

namespace Codec

variable {M : Modulus}

/-! ## Parts of fixed width -/

theorem readByte_eq_ok_iff {input rest : List UInt8} {b : UInt8} :
    readByte input = .ok (b, rest) ↔ takeBytes 1 input = .ok ([b], rest) := by
  rw [takeBytes_eq_ok_iff]
  cases input with
  | nil => simp [readByte]
  | cons c tail => simp [readByte]

/-! ## The loop over the terms -/

/-- How the loop ends when it is to read up to `announced` terms: `inserted` of them are put into
the map, which leads to the state `last`; then either all have been read, or the next one is refused
and its error is the answer. -/
structure Stops (announced : Nat) (start : TermProgress M) (inserted : Nat)
    (last : TermProgress M) : Prop where
  le_announced : inserted ≤ announced
  reached : readTerms inserted start = .ok last
  ended : inserted = announced ∨
    ∃ e, readTerm last = .error e ∧ readTerms announced start = .error e

/-- The number of terms that the loop inserts before it answers. -/
def insertions : Nat → TermProgress M → Nat
  | 0, _ => 0
  | n + 1, progress =>
      match readTerm progress with
      | .error _ => 0
      | .ok next => insertions n next + 1

theorem stops_insertions (n : Nat) (start : TermProgress M) :
    ∃ last, Stops n start (insertions n start) last := by
  -- The loop goes on from the state that the first term leads to, so `start` varies.
  induction n generalizing start with
  | zero => exact ⟨start, Nat.le_refl 0, rfl, .inl rfl⟩
  | succ n ih =>
      cases hread : readTerm start with
      | error e =>
          have hzero : insertions (n + 1) start = 0 := by rw [insertions, hread]
          rw [hzero]
          refine ⟨start, Nat.zero_le _, rfl, .inr ⟨e, hread, ?_⟩⟩
          rw [readTerms, hread]
      | ok next =>
          have hone : insertions (n + 1) start = insertions n next + 1 := by rw [insertions, hread]
          have hterms : ∀ k, readTerms (k + 1) start = readTerms k next := by
            intro k
            rw [readTerms, hread]
          obtain ⟨last, hle, hreached, hended⟩ := ih next
          rw [hone]
          refine ⟨last, Nat.succ_le_succ hle, (hterms _).trans hreached, ?_⟩
          rw [hterms]
          exact hended.imp_left (congrArg Nat.succ)

theorem length_flatMap_termBytes (entries : List (Var × Residue M)) :
    (entries.flatMap termBytes).length = entries.length * (8 + M.width.bytes) := by
  induction entries with
  | nil => simp
  | cons e entries ih =>
      rw [List.flatMap_cons, List.length_append, ih, length_termBytes, List.length_cons,
        Nat.succ_mul, Nat.add_comm]

/-- The terms in the map were read from the input. -/
theorem readTerms_mul_le {n : Nat} {input : List UInt8} {last : TermProgress M}
    (h : readTerms n ⟨VarMap.empty, none, input⟩ = .ok last) :
    n * (8 + M.width.bytes) ≤ input.length := by
  obtain ⟨-, hsize, -, hinput⟩ := readTerms_start_eq_ok_iff.1 h
  rw [hinput, List.length_append, length_flatMap_termBytes, ← hsize, VarMap.size]
  exact Nat.le_add_right _ _

end Codec

/-! ## Forms and values -/

namespace Form

variable (M : Modulus)

/-- The number of terms inserted before bytes are accepted as a form or refused. -/
def insertions (bytes : List UInt8) : Nat :=
  match (Codec.readElement bytes : Except CodecError (Residue M × List UInt8)) with
  | .error _ => 0
  | .ok (_, rest) =>
      match Codec.readIndex rest with
      | .error _ => 0
      | .ok (count, rest) => Codec.insertions count.index ⟨(VarMap.empty : Terms M), none, rest⟩

end Form

namespace Codec

/-- The course that reading a form takes: the number of terms that are inserted on the way, and the
outcome.  The input has no header that announces terms; or the term behind those that are inserted
is refused, with its error as the answer; or all terms are inserted, and the form is put together
from them. -/
inductive Course (M : Modulus) (input : List UInt8) :
    Nat → Except CodecFailure (Form M × List UInt8) → Prop where
  | header {e : CodecError}
      (hheader : ∀ (c : Residue M) (count : Var) (rest : List UInt8),
        input = c.encode ++ (count.encode ++ rest) → count.index = 0) :
      Course M input 0 (.error (.refused e))
  | term {c : Residue M} {count : Var} {rest : List UInt8} {inserted : Nat}
      {last : TermProgress M} {e : CodecError}
      (hinput : input = c.encode ++ (count.encode ++ rest)) (hlt : inserted < count.index)
      (hreached : readTerms inserted ⟨VarMap.empty, none, rest⟩ = .ok last)
      (hrefused : readTerm last = .error e) :
      Course M input inserted (.error (.refused e))
  | whole {c : Residue M} {count : Var} {rest : List UInt8} {last : TermProgress M}
      (hinput : input = c.encode ++ (count.encode ++ rest)) (hcount : count.index ≠ 0)
      (hreached : readTerms count.index ⟨VarMap.empty, none, rest⟩ = .ok last) :
      Course M input count.index (.ok (⟨c, last.terms⟩, last.rest))

/-- Behind a header that announces terms, reading a form goes as the loop over the terms does. -/
theorem course_of_stops {c : Residue M} {count : Var} {rest : List UInt8} {inserted : Nat}
    {last : TermProgress M} (hcount : count.index ≠ 0)
    (h : Stops count.index ⟨VarMap.empty, none, rest⟩ inserted last) :
    Course M (c.encode ++ (count.encode ++ rest)) inserted
      (readForm (c.encode ++ (count.encode ++ rest))) := by
  rw [readForm, readElement_eq_ok_iff.2 rfl]
  simp only [readIndex_eq_ok_iff.2 rfl, if_neg hcount]
  obtain ⟨hle, hreached, hall | ⟨e, hrefused, hanswer⟩⟩ := h
  · subst hall
    simp only [hreached, assemble_of_valid (valid_of_readTerms hcount hreached c)]
    exact .whole rfl hcount hreached
  · simp only [hanswer]
    refine .term rfl (Nat.lt_of_le_of_ne hle ?_) hreached hrefused
    -- The loop cannot both have read all terms and be refused.
    rintro rfl
    cases hreached.symm.trans hanswer

/-- Without a header that announces terms, none is inserted and the input is refused. -/
theorem exists_refused_of_header {input : List UInt8}
    (hheader : ∀ (c : Residue M) (count : Var) (rest : List UInt8),
      input = c.encode ++ (count.encode ++ rest) → count.index = 0) :
    ∃ e, Form.insertions M input = 0 ∧
      (readForm input : Except CodecFailure (Form M × List UInt8)) = .error (.refused e) := by
  rw [Form.insertions, readForm]
  cases hconstant : (readElement input : Except CodecError (Residue M × List UInt8)) with
  | error e => exact ⟨e, rfl, rfl⟩
  | ok constant =>
      obtain ⟨c, afterConstant⟩ := constant
      cases hindex : readIndex afterConstant with
      | error e => exact ⟨e, by simp only [hindex], by simp only [hindex]⟩
      | ok index =>
          obtain ⟨count, rest⟩ := index
          have hcount : count.index = 0 := hheader c count rest (by
            rw [readElement_eq_ok_iff.1 hconstant, readIndex_eq_ok_iff.1 hindex])
          refine ⟨.emptyTerms, ?_, ?_⟩
          · simp only [hindex, hcount, insertions]
          · simp only [hindex, if_pos hcount]

/-- On every input, reading a form inserts the terms that `Form.insertions` counts. -/
theorem course_readForm (M : Modulus) (input : List UInt8) :
    Course M input (Form.insertions M input) (readForm input) := by
  -- Beyond the header, the count and the reader follow the same loop.
  by_cases hheader : ∀ (c : Residue M) (count : Var) (rest : List UInt8),
      input = c.encode ++ (count.encode ++ rest) → count.index = 0
  · obtain ⟨e, hzero, hrefused⟩ := exists_refused_of_header hheader
    rw [hzero, hrefused]
    exact .header hheader
  · simp only [Classical.not_forall] at hheader
    obtain ⟨c, count, rest, rfl, hcount⟩ := hheader
    have hinsertions : Form.insertions M (c.encode ++ (count.encode ++ rest)) =
        insertions count.index ⟨(VarMap.empty : Terms M), none, rest⟩ := by
      rw [Form.insertions, readElement_eq_ok_iff.2 rfl]
      simp only [readIndex_eq_ok_iff.2 rfl]
    obtain ⟨last, hstops⟩ := stops_insertions count.index ⟨(VarMap.empty : Terms M), none, rest⟩
    rw [hinsertions]
    exact course_of_stops hcount hstops

namespace Course

variable {input : List UInt8} {inserted : Nat}
  {outcome : Except CodecFailure (Form M × List UInt8)}

/-- Whatever the outcome, the input has paid for the terms that are inserted. -/
theorem mul_le (h : Course M input inserted outcome) :
    inserted * (8 + M.width.bytes) ≤ input.length := by
  -- The terms stand behind the header, so the bytes they take are bytes of the input.
  have hbehind : ∀ {c : Residue M} {count : Var} {rest : List UInt8},
      input = c.encode ++ (count.encode ++ rest) → rest.length ≤ input.length := by
    rintro c count rest rfl
    rw [List.length_append, List.length_append]
    omega
  cases h with
  | header _ => simp
  | term hinput _ hreached _ => exact Nat.le_trans (readTerms_mul_le hreached) (hbehind hinput)
  | whole hinput _ hreached => exact Nat.le_trans (readTerms_mul_le hreached) (hbehind hinput)

theorem eq_size {p : Form M} {rest : List UInt8} (h : Course M input inserted (.ok (p, rest))) :
    inserted = p.size := by
  cases h with
  | whole _ _ hreached => exact (readTerms_start_eq_ok_iff.1 hreached).2.1.symm

end Course

end Codec

namespace Form

variable (M : Modulus)

theorem insertions_le (bytes : List UInt8) :
    insertions M bytes ≤ bytes.length / (8 + M.width.bytes) :=
  (Nat.le_div_iff_mul_le (by omega)).2 (Codec.course_readForm M bytes).mul_le

/-- An accepted input has been read to its last term. -/
theorem insertions_of_decode {bytes : List UInt8} {p : Form M} (h : decode bytes = .ok p) :
    insertions M bytes = p.size := by
  have hcourse := Codec.course_readForm M bytes
  rw [Codec.complete_eq_ok_iff.1 h] at hcourse
  exact hcourse.eq_size

/-- A header that announces more terms than can follow is no beginning of a form. -/
theorem decode_ne_ok_of_overrun {head rest : List UInt8} {count : Var}
    (hhead : head.length = M.width.bytes)
    (hcount : rest.length / (8 + M.width.bytes) < count.index) (p : Form M) :
    decode (head ++ count.encode ++ rest) ≠ .ok p := by
  intro h
  obtain ⟨-, hsize, hbytes⟩ := decode_eq_ok_iff.1 h
  -- The parts of the layout have the same widths, so the count is the one announced.
  rw [encode_eq] at hbytes
  obtain ⟨hheader, hterms⟩ := List.append_inj hbytes (by simp [hhead, Var.encode])
  obtain ⟨-, hindex⟩ := List.append_inj hheader (by simp [hhead])
  have hannounced : p.size = count.index :=
    congrArg Var.index (Var.encode_inj (v := ⟨p.size, hsize⟩) hindex)
  have hlength : rest.length = p.size * (8 + M.width.bytes) := by
    rw [← hterms, Codec.length_flatMap_termBytes, size, VarMap.size]
  rw [hlength, Nat.mul_div_cancel _ (by omega), hannounced] at hcount
  exact Nat.lt_irrefl _ hcount

end Form

namespace Affine

variable (M : Modulus)

/-- The number of terms inserted before bytes are accepted as a value or refused. -/
def insertions (bytes : List UInt8) : Nat :=
  match Codec.readByte bytes with
  | .error _ => 0
  | .ok (tag, body) => if tag = formTag then Form.insertions M body else 0

theorem insertions_formTag (body : List UInt8) :
    insertions M (formTag :: body) = Form.insertions M body := rfl

/-- Terms are inserted behind the tag of forms only. -/
theorem insertions_of_head?_ne {bytes : List UInt8} (h : bytes.head? ≠ some formTag) :
    insertions M bytes = 0 := by
  cases bytes with
  | nil => rfl
  | cons tag body => exact if_neg fun htag => h (congrArg some htag)

theorem insertions_le (bytes : List UInt8) :
    insertions M bytes ≤ bytes.length / (8 + M.width.bytes) := by
  by_cases h : bytes.head? = some formTag
  · obtain ⟨body, rfl⟩ := List.head?_eq_some_iff.1 h
    rw [insertions_formTag]
    exact Nat.le_trans (Form.insertions_le M body) (Nat.div_le_div_right (Nat.le_succ _))
  · rw [insertions_of_head?_ne M h]
    exact Nat.zero_le _

/-- Behind the tag of forms a value is read as a form is. -/
theorem readAffine_formTag (body : List UInt8) :
    (Codec.readAffine (formTag :: body) : Except CodecFailure (Affine M × List UInt8)) =
      (Codec.readForm body).map fun read => (.form read.1, read.2) := by
  -- The tag of constants is tried first.
  have htag : formTag ≠ constantTag := by decide
  simp only [Codec.readAffine, Codec.readByte, if_neg htag, if_true]
  cases (Codec.readForm body : Except CodecFailure (Form M × List UInt8)) with
  | error failure => rfl
  | ok read => rfl

theorem decode_formTag (body : List UInt8) :
    (decode (formTag :: body) : Except CodecFailure (Affine M)) = (Form.decode body).map form := by
  rw [decode, readAffine_formTag, Form.decode]
  cases (Codec.readForm body : Except CodecFailure (Form M × List UInt8)) with
  | error failure => rfl
  | ok read =>
      obtain ⟨p, rest⟩ := read
      cases rest with
      | nil => rfl
      | cons b rest => rfl

theorem insertions_of_decode {bytes : List UInt8} {r : Affine M} (h : decode bytes = .ok r) :
    insertions M bytes = r.size := by
  obtain ⟨hvalid, hsize, rfl⟩ := decode_eq_ok_iff.1 h
  cases r with
  | constant c => rfl
  | form p =>
      exact Form.insertions_of_decode M (Form.decode_eq_ok_iff.2 ⟨hvalid, hsize, rfl⟩)

end Affine

/-! ## All bytes -/

namespace Codec

variable {α : Type}

/-- The answer for any bytes is a value or a refusal, and no refusal blames a word for being too
large to be an index. -/
theorem Steady.answers {read : List UInt8 → Except CodecFailure (α × List UInt8)} (h : Steady read)
    (bytes : List UInt8) :
    (∃ x, complete (read bytes) = .ok x) ∨
      ∃ e, complete (read bytes) = .error (.refused e) ∧ ∀ n, e ≠ .outOfRange n := by
  cases hread : read bytes with
  | ok read =>
      obtain ⟨x, rest⟩ := read
      by_cases hrest : rest = []
      · exact .inl ⟨x, by rw [hrest]; rfl⟩
      · exact .inr ⟨_, complete_of_ne_nil hrest, by simp⟩
  | error failure =>
      obtain ⟨e, rfl, hdefect | ⟨needed, remaining, rfl⟩⟩ := h.failure_eq hread
      · refine .inr ⟨e, rfl, ?_⟩
        rintro n rfl
        exact hdefect
      · exact .inr ⟨_, rfl, by simp⟩

/-- What a decoder guarantees for all bytes.  `opening` is what it reads before a form, `size`
counts the terms of a value, and `inserted` those that are inserted before the answer. -/
structure Safe (M : Modulus) (decode : List UInt8 → Except CodecFailure α) (size : α → Nat)
    (inserted : List UInt8 → Nat) (opening : List UInt8) : Prop where
  answers : ∀ bytes, (∃ x, decode bytes = .ok x) ∨
    ∃ e, decode bytes = .error (.refused e) ∧ ∀ n, e ≠ .outOfRange n
  bounded : ∀ bytes, inserted bytes ≤ bytes.length / (8 + M.width.bytes)
  complete : ∀ bytes x, decode bytes = .ok x → inserted bytes = size x
  overrun : ∀ (head rest : List UInt8) (count : Var), head.length = M.width.bytes →
    rest.length / (8 + M.width.bytes) < count.index →
      ∃ e, decode (opening ++ (head ++ count.encode ++ rest)) = .error (.refused e)

theorem safe_form (M : Modulus) :
    Safe M (Form.decode (M := M)) Form.size (Form.insertions M) [] where
  answers := steady_readForm.answers
  bounded := Form.insertions_le M
  complete _ _ := Form.insertions_of_decode M
  overrun head rest count hhead hcount := by
    rcases steady_readForm.answers (head ++ count.encode ++ rest) with ⟨p, hp⟩ | ⟨e, he, -⟩
    · exact absurd hp (Form.decode_ne_ok_of_overrun M hhead hcount p)
    · exact ⟨e, he⟩

theorem safe_affine (M : Modulus) :
    Safe M (Affine.decode (M := M)) Affine.size (Affine.insertions M) [Affine.formTag] where
  answers := steady_readAffine.answers
  bounded := Affine.insertions_le M
  complete _ _ := Affine.insertions_of_decode M
  overrun head rest count hhead hcount := by
    obtain ⟨e, he⟩ := (safe_form M).overrun head rest count hhead hcount
    refine ⟨e, ?_⟩
    rw [List.singleton_append, Affine.decode_formTag]
    exact congrArg (Except.map Affine.form) he

end Codec

/-- Decoding any bytes answers with a value or a refusal, after at most as many insertions as whole
terms fit into the input; a header that announces more terms than can follow is refused.  Every part
that is read has the width that was asked for, and the terms read for a form are free of zeros and
not empty, so putting the form together neither fails nor collapses.  The loop over the terms makes
as many rounds as it inserts terms, unless it ends with a round that is refused.  On every input,
refused ones included, the insertions that are counted are those that reading the form makes; a
value is read as a form behind the tag of forms, and inserts no terms behind any other. -/
theorem decode_safe (M : Modulus) :
    Codec.Safe M (Form.decode (M := M)) Form.size (Form.insertions M) [] ∧
      Codec.Safe M (Affine.decode (M := M)) Affine.size (Affine.insertions M) [Affine.formTag] ∧
      (∀ needed input part rest, Codec.takeBytes needed input = .ok (part, rest) →
        part.length = needed ∧ input = part ++ rest) ∧
      (∀ input b rest, Codec.readByte input = .ok (b, rest) ↔
        Codec.takeBytes 1 input = .ok ([b], rest)) ∧
      (∀ (c : Residue M) n input final, n ≠ 0 →
        Codec.readTerms n ⟨VarMap.empty, none, input⟩ = .ok final →
          final.terms.ZeroFree ∧ Affine.assemble c final.terms = .ok (.form ⟨c, final.terms⟩)) ∧
      (∀ n input, ∃ last : Codec.TermProgress M,
        Codec.Stops n ⟨VarMap.empty, none, input⟩
            (Codec.insertions n ⟨(VarMap.empty : Terms M), none, input⟩) last ∧
          last.terms.size = Codec.insertions n ⟨(VarMap.empty : Terms M), none, input⟩) ∧
      (∀ input, Codec.Course M input (Form.insertions M input) (Codec.readForm input)) ∧
      (∀ body, Affine.insertions M (Affine.formTag :: body) = Form.insertions M body ∧
        (Codec.readAffine (Affine.formTag :: body) : Except CodecFailure (Affine M × List UInt8)) =
          (Codec.readForm body).map fun read => (.form read.1, read.2)) ∧
      ∀ bytes, bytes.head? ≠ some Affine.formTag → Affine.insertions M bytes = 0 ∧
        ∀ (p : Form M) rest, Codec.readAffine bytes ≠ .ok (.form p, rest) := by
  refine ⟨Codec.safe_form M, Codec.safe_affine M, ?_, ?_, ?_, ?_, Codec.course_readForm M,
    fun body => ⟨Affine.insertions_formTag M body, Affine.readAffine_formTag M body⟩,
    fun bytes hbytes => ⟨Affine.insertions_of_head?_ne M hbytes, fun p rest h => ?_⟩⟩
  · intro needed input part rest h
    exact (Codec.takeBytes_eq_ok_iff.1 h).symm
  · intro input b rest
    exact Codec.readByte_eq_ok_iff
  · intro c n input final hn h
    have hvalid := Codec.valid_of_readTerms hn h c
    exact ⟨hvalid.2, Codec.assemble_of_valid hvalid⟩
  · intro n input
    obtain ⟨last, hstops⟩ := Codec.stops_insertions n ⟨(VarMap.empty : Terms M), none, input⟩
    exact ⟨last, hstops, (Codec.readTerms_start_eq_ok_iff.1 hstops.reached).2.1⟩
  · -- What is read as a form is an encoding, which starts with the tag of forms.
    obtain ⟨-, -, rfl⟩ := Codec.readAffine_eq_ok_iff.1 h
    exact hbytes rfl

/-- Over seven, one term follows behind a header that announces as many terms as a word can.  It is
inserted, and the bytes are refused: as a form, and behind its tag as a value.  Without the last of
the bytes the term is not complete and nothing is inserted. -/
theorem decode_safe_seven :
    let head := Residue.encode (1 : Residue Modulus.seven)
    let count : Var := ⟨wordSize - 1, by decide⟩
    let rest := Codec.termBytes (Supply.initial.next, (1 : Residue Modulus.seven))
    let bytes := head ++ count.encode ++ rest
    let short := bytes.take 31
    bytes.length / (8 + Modulus.seven.width.bytes) = 2 ∧
      Form.insertions Modulus.seven bytes = 1 ∧
      (∃ e, (Form.decode bytes : Except CodecFailure (Form Modulus.seven)) =
        .error (.refused e)) ∧
      Codec.Course Modulus.seven bytes 1 (.error (.refused (.unexpectedEnd 8 0))) ∧
      Codec.Course Modulus.seven short 0 (.error (.refused (.unexpectedEnd 8 7))) ∧
      Affine.insertions Modulus.seven (Affine.formTag :: bytes) = 1 ∧
      (∃ e, (Affine.decode (Affine.formTag :: bytes) : Except CodecFailure (Affine Modulus.seven)) =
        .error (.refused e)) ∧
      Affine.insertions Modulus.seven (7 :: bytes) = 0 := by
  intro head count rest bytes short
  have hlength : bytes.length / (8 + Modulus.seven.width.bytes) = 2 := by decide
  have hinserted : Form.insertions Modulus.seven bytes = 1 := by decide
  have hcount : rest.length / (8 + Modulus.seven.width.bytes) < count.index := by decide
  obtain ⟨hform, haffine, -, -, -, -, hcourse, htagged, hothers⟩ := decode_safe Modulus.seven
  have hrefused := hform.overrun head rest count (by decide) hcount
  rw [List.nil_append] at hrefused
  have hend : (Codec.readForm bytes : Except CodecFailure (Form Modulus.seven × List UInt8)) =
      .error (.refused (.unexpectedEnd 8 0)) := by
    -- The reader runs on the bytes and not on their name.
    simp only [bytes, head, count, rest]
    rfl
  have hshort : (Codec.readForm short : Except CodecFailure (Form Modulus.seven × List UInt8)) =
      .error (.refused (.unexpectedEnd 8 7)) := by
    simp only [short, bytes, head, count, rest]
    rfl
  have hnone : Form.insertions Modulus.seven short = 0 := by decide
  have hbytes := hcourse bytes
  have hbeginning := hcourse short
  rw [hinserted, hend] at hbytes
  rw [hnone, hshort] at hbeginning
  exact ⟨hlength, hinserted, hrefused, hbytes, hbeginning, (htagged bytes).1.trans hinserted,
    haffine.overrun head rest count (by decide) hcount, (hothers (7 :: bytes) (by decide)).1⟩

end AffineForms
