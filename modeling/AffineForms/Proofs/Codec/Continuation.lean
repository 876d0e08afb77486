import AffineForms.Proofs.Codec.Exact

/-!
# Continuation — how the readers go on when bytes are appended to their input

The readers see their input from the left, so bytes appended to it change an outcome only where the
input had run out.  `Continues` compares the outcomes of a reader before and after:

* what was read is read again, and the new bytes are added to those that are left;
* a defect that was found (`CodecError.Settled`) is found again;
* where bytes were missing, fewer bytes than that change nothing but the number that remains.

Readers that run one after the other keep this relation (`Continues.bind`), so each reader is first
written as such a sequence (`readTerm_eq`, `readForm_eq`, …).  The loop over the terms is one more
sequence, as long as the input says (`continues_readTerms`).

The relation has no case for a reader that fails in another way.  In particular no reader finds a
word too large for an index, and none violates a precondition (`Continues.failure_eq`).
-/

namespace AffineForms

/-- Whether an error tells of a defect in the bytes read so far, not of where the input ends. -/
def CodecError.Settled : CodecError → Prop
  | .nonCanonical => True
  | .zeroCoefficient _ => True
  | .unordered _ _ => True
  | .emptyTerms => True
  | .invalidTag _ => True
  | .unexpectedEnd _ _ => False
  | .trailing _ => False
  | .outOfRange _ => False

namespace Codec

variable {M : Modulus}

/-! ## Outcomes before and after -/

section Outcomes

variable {ε α β : Type}

/-- The outcomes of a reader before and after `extra` bytes are appended to its input.  `refuse`
makes a codec error a failure of the reader, and `grow` appends the bytes to what is left. -/
inductive Continues (refuse : CodecError → ε) (grow : α → α) (extra : Nat) :
    Except ε α → Except ε α → Prop where
  | ok (x : α) : Continues refuse grow extra (.ok x) (.ok (grow x))
  | settled {e : CodecError} (he : e.Settled) :
      Continues refuse grow extra (.error (refuse e)) (.error (refuse e))
  | starved {needed remaining : Nat} {after : Except ε α} (hmissing : remaining < needed)
      (hafter : remaining + extra < needed →
        after = .error (refuse (.unexpectedEnd needed (remaining + extra)))) :
      Continues refuse grow extra (.error (refuse (.unexpectedEnd needed remaining))) after

namespace Continues

variable {refuse : CodecError → ε} {grow : α → α} {grow' : β → β} {extra : Nat}

theorem bind {before after : Except ε α} {next : α → Except ε β}
    (h : Continues refuse grow extra before after)
    (hnext : ∀ x, before = .ok x → Continues refuse grow' extra (next x) (next (grow x))) :
    Continues refuse grow' extra (before >>= next) (after >>= next) := by
  cases h with
  | ok x => exact hnext x rfl
  | settled he => exact settled he
  | starved hmissing hafter =>
      -- The second reader runs neither before nor after.
      refine starved hmissing fun hshort => ?_
      rw [hafter hshort]
      rfl

theorem refused {before after : Except CodecError α} (h : Continues id grow extra before after) :
    Continues .refused grow extra (before.mapError CodecFailure.refused)
      (after.mapError CodecFailure.refused) := by
  cases h with
  | ok x => exact ok x
  | settled he => exact settled he
  | starved hmissing hafter =>
      refine starved hmissing fun hshort => ?_
      rw [hafter hshort]
      rfl

/-! ### What an outcome tells about the one after it -/

theorem eq_of_ok {x : α} {after : Except ε α} (h : Continues refuse grow extra (.ok x) after) :
    after = .ok (grow x) := by
  cases h
  rfl

variable {after : Except CodecFailure α}

theorem eq_of_settled {e : CodecError}
    (h : Continues .refused grow extra (.error (.refused e)) after) (he : e.Settled) :
    after = .error (.refused e) := by
  cases h with
  | settled _ => rfl
  | starved _ _ => exact he.elim

theorem of_starved {needed remaining : Nat}
    (h : Continues .refused grow extra (.error (.refused (.unexpectedEnd needed remaining)))
      after) :
    remaining < needed ∧ (remaining + extra < needed →
      after = .error (.refused (.unexpectedEnd needed (remaining + extra)))) := by
  cases h with
  | settled he => exact he.elim
  | starved hmissing hafter => exact ⟨hmissing, hafter⟩

theorem failure_eq {failure : CodecFailure}
    (h : Continues .refused grow extra (.error failure) after) :
    ∃ e, failure = .refused e ∧
      (e.Settled ∨ ∃ needed remaining, e = .unexpectedEnd needed remaining) := by
  cases h with
  | settled he => exact ⟨_, rfl, .inl he⟩
  | starved _ _ => exact ⟨_, rfl, .inr ⟨_, _, rfl⟩⟩

end Continues

theorem mapError_ok (f : ε → β) (x : α) : (Except.ok x).mapError f = .ok x :=
  rfl

theorem eq_ok_of_mapError {f : ε → β} {outcome : Except ε α} {x : α}
    (h : outcome.mapError f = .ok x) : outcome = .ok x := by
  cases outcome with
  | error e => cases h
  | ok y => exact congrArg Except.ok (Except.ok.inj h)

/-- Appends bytes to those that are left behind what was read. -/
def feed (more : List UInt8) (read : α × List UInt8) : α × List UInt8 := (read.1, read.2 ++ more)

end Outcomes

def TermProgress.feed (more : List UInt8) (progress : TermProgress M) : TermProgress M :=
  { progress with rest := progress.rest ++ more }

/-! ## Parts of fixed width -/

theorem continues_takeBytes (needed : Nat) (input more : List UInt8) :
    Continues id (feed more) more.length (takeBytes needed input)
      (takeBytes needed (input ++ more)) := by
  unfold takeBytes
  by_cases hlen : input.length < needed
  · rw [if_pos hlen]
    refine .starved hlen fun hshort => ?_
    rw [List.length_append, if_pos hshort]
    rfl
  · have hfits : needed ≤ input.length := Nat.le_of_not_lt hlen
    have hlonger : ¬ (input ++ more).length < needed := by
      rw [List.length_append]
      omega
    rw [if_neg hlen, if_neg hlonger, List.take_append_of_le_length hfits,
      List.drop_append_of_le_length hfits]
    exact .ok _

theorem continues_readByte (input more : List UInt8) :
    Continues id (feed more) more.length (readByte input) (readByte (input ++ more)) := by
  cases input with
  | cons b rest => exact .ok (b, rest)
  | nil =>
      -- One byte is missing, so fewer bytes than that are none.
      refine .starved Nat.zero_lt_one fun hshort => ?_
      have hnone : more = [] := List.length_eq_zero_iff.1 (by omega)
      rw [hnone]
      rfl

theorem readIndex_eq (input : List UInt8) :
    readIndex input = takeBytes 8 input >>= fun read =>
      match Var.ofIndex? (Bytes.toNat read.1) with
      | none => .error (.outOfRange (Bytes.toNat read.1))
      | some v => .ok (v, read.2) := by
  unfold readIndex
  cases takeBytes 8 input with
  | error e => rfl
  | ok read => rfl

theorem continues_readIndex (input more : List UInt8) :
    Continues id (feed more) more.length (readIndex input) (readIndex (input ++ more)) := by
  rw [readIndex_eq, readIndex_eq]
  refine (continues_takeBytes 8 input more).bind fun read hread => ?_
  -- Eight bytes always stand for an index.
  obtain ⟨v, hv, -⟩ := ofIndex?_toNat (takeBytes_eq_ok_iff.1 hread).2
  simp only [feed, hv]
  exact .ok (v, read.2)

theorem readElement_eq (input : List UInt8) :
    (readElement input : Except CodecError (Residue M × List UInt8)) =
      takeBytes M.width.bytes input >>= fun read =>
        match Residue.ofBytes? read.1 with
        | none => .error .nonCanonical
        | some x => .ok (x, read.2) := by
  unfold readElement
  cases takeBytes M.width.bytes input with
  | error e => rfl
  | ok read => rfl

theorem continues_readElement (input more : List UInt8) :
    Continues id (feed more) more.length
      (readElement input : Except CodecError (Residue M × List UInt8))
      (readElement (input ++ more)) := by
  rw [readElement_eq, readElement_eq]
  refine (continues_takeBytes M.width.bytes input more).bind fun read _ => ?_
  simp only [feed]
  cases (Residue.ofBytes? read.1 : Option (Residue M)) with
  | none => exact .settled trivial
  | some x => exact .ok (x, read.2)

/-! ## Terms -/

theorem readTerm_eq (progress : TermProgress M) :
    readTerm progress = readIndex progress.rest >>= fun index =>
      match unorderedAfter progress.previous index.1 with
      | some previous => .error (.unordered previous index.1)
      | none => readElement index.2 >>= fun coefficient =>
          if coefficient.1 = 0 then
            .error (.zeroCoefficient index.1)
          else
            .ok ⟨progress.terms.insert index.1 coefficient.1, some index.1, coefficient.2⟩ := by
  unfold readTerm
  cases readIndex progress.rest with
  | error e => rfl
  | ok index =>
      obtain ⟨v, rest⟩ := index
      simp only [bind, Except.bind]
      cases unorderedAfter progress.previous v with
      | some previous => rfl
      | none =>
          cases (readElement rest : Except CodecError (Residue M × List UInt8)) with
          | error e => rfl
          | ok coefficient => rfl

theorem continues_readTerm (progress : TermProgress M) (more : List UInt8) :
    Continues id (TermProgress.feed more) more.length (readTerm progress)
      (readTerm (progress.feed more)) := by
  rw [readTerm_eq, readTerm_eq]
  refine (continues_readIndex progress.rest more).bind fun index _ => ?_
  -- The appended bytes take no part in the order check or in the zero check.
  simp only [feed]
  cases unorderedAfter progress.previous index.1 with
  | some previous => exact .settled trivial
  | none =>
      refine (continues_readElement index.2 more).bind fun coefficient _ => ?_
      dsimp only [feed]
      by_cases hzero : coefficient.1 = 0
      · rw [if_pos hzero, if_pos hzero]
        exact .settled trivial
      · rw [if_neg hzero, if_neg hzero]
        exact .ok _

theorem readTerms_succ (n : Nat) (progress : TermProgress M) :
    readTerms (n + 1) progress = readTerm progress >>= readTerms n := by
  rw [readTerms]
  cases readTerm progress with
  | error e => rfl
  | ok next => rfl

theorem continues_readTerms (n : Nat) (progress : TermProgress M) (more : List UInt8) :
    Continues id (TermProgress.feed more) more.length (readTerms n progress)
      (readTerms n (progress.feed more)) := by
  induction n generalizing progress with
  | zero => exact .ok progress
  | succ n ih =>
      rw [readTerms_succ, readTerms_succ]
      exact (continues_readTerm progress more).bind fun next _ => ih next

/-! ## Values -/

theorem readForm_eq (input : List UInt8) :
    (readForm input : Except CodecFailure (Form M × List UInt8)) =
      (readElement input).mapError .refused >>= fun constant =>
        (readIndex constant.2).mapError .refused >>= fun count =>
          if count.1.index = 0 then
            .error (.refused .emptyTerms)
          else
            (readTerms count.1.index ⟨VarMap.empty, none, count.2⟩).mapError .refused >>=
              fun progress =>
                match Affine.assemble constant.1 progress.terms with
                | .error fault => .error (.violated fault)
                | .ok (.form p) => .ok (p, progress.rest)
                | .ok (.constant _) => .error (.refused .emptyTerms) := by
  unfold readForm
  cases (readElement input : Except CodecError (Residue M × List UInt8)) with
  | error e => rfl
  | ok constant =>
      obtain ⟨c, rest⟩ := constant
      simp only [bind, Except.bind, mapError_ok]
      cases readIndex rest with
      | error e => rfl
      | ok count =>
          obtain ⟨n, rest⟩ := count
          simp only [mapError_ok]
          split
          · rfl
          · cases readTerms n.index ⟨(VarMap.empty : Terms M), none, rest⟩ with
            | error e => rfl
            | ok progress => rfl

theorem continues_readForm (input more : List UInt8) :
    Continues CodecFailure.refused (feed more) more.length
      (readForm input : Except CodecFailure (Form M × List UInt8)) (readForm (input ++ more)) := by
  rw [readForm_eq, readForm_eq]
  refine (continues_readElement input more).refused.bind fun constant _ => ?_
  refine (continues_readIndex constant.2 more).refused.bind fun count _ => ?_
  dsimp only [feed]
  by_cases hcount : count.1.index = 0
  · rw [if_pos hcount, if_pos hcount]
    exact .settled trivial
  · rw [if_neg hcount, if_neg hcount]
    have hterms := continues_readTerms count.1.index ⟨(VarMap.empty : Terms M), none, count.2⟩ more
    refine hterms.refused.bind fun progress hread => ?_
    -- The value that the terms make is a form, so the other branches are not reached.
    have hvalid := valid_of_readTerms hcount (eq_ok_of_mapError hread) constant.1
    simp only [TermProgress.feed, assemble_of_valid hvalid]
    exact .ok _

theorem readAffine_eq (input : List UInt8) :
    (readAffine input : Except CodecFailure (Affine M × List UInt8)) =
      (readByte input).mapError .refused >>= fun tag =>
        if tag.1 = Affine.constantTag then
          (readElement tag.2).mapError .refused >>= fun c => .ok (.constant c.1, c.2)
        else if tag.1 = Affine.formTag then
          readForm tag.2 >>= fun p => .ok (.form p.1, p.2)
        else
          .error (.refused (.invalidTag tag.1)) := by
  unfold readAffine
  cases readByte input with
  | error e => rfl
  | ok tag =>
      obtain ⟨tag, rest⟩ := tag
      simp only [bind, Except.bind, mapError_ok]
      split
      · cases (readElement rest : Except CodecError (Residue M × List UInt8)) with
        | error e => rfl
        | ok c => rfl
      · split
        · cases (readForm rest : Except CodecFailure (Form M × List UInt8)) with
          | error failure => rfl
          | ok p => rfl
        · rfl

theorem continues_readAffine (input more : List UInt8) :
    Continues .refused (feed more) more.length
      (readAffine input : Except CodecFailure (Affine M × List UInt8))
      (readAffine (input ++ more)) := by
  rw [readAffine_eq, readAffine_eq]
  refine (continues_readByte input more).refused.bind fun tag _ => ?_
  dsimp only [feed]
  by_cases hconstant : tag.1 = Affine.constantTag
  · rw [if_pos hconstant, if_pos hconstant]
    exact (continues_readElement tag.2 more).refused.bind fun c _ => .ok (Affine.constant c.1, c.2)
  · rw [if_neg hconstant, if_neg hconstant]
    by_cases hform : tag.1 = Affine.formTag
    · rw [if_pos hform, if_pos hform]
      exact (continues_readForm tag.2 more).bind fun p _ => .ok (Affine.form p.1, p.2)
    · rw [if_neg hform, if_neg hform]
      exact .settled trivial

end Codec
end AffineForms
