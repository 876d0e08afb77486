import AffineForms.Form.Rendering
import AffineForms.Proofs.Form.Meaning
import AffineForms.Proofs.Residue.Magnitudes

/-!
# Reading — the written form of a value determines the value

A written value is a sequence of words with single blanks between them:

* the first word is a constant or a term, with a minus sign in front when it is negative;
* every other term is a word of its own, after the word `+` or `-`;
* a term is a variable, with a magnitude and a dot in front unless the magnitude is one.

`Expression.read?` reads this grammar.  It knows no modulus: it answers signed integers, and
`Expression.value` takes their residues afterwards.

Letters and digits make up magnitudes and variables (`Plain`), and dots, blanks and signs separate
them.  So the words of a rendering are found by its blanks (`splitOn_renderTerms`), and each word is
read as what it was written for: `read?_render`.  `render_faithful` concludes that equal renderings
are renderings of one value.
-/

namespace AffineForms

/-! ## Expressions -/

/-- What a text says before there is a modulus: a constant, if there is one, and signed terms. -/
structure Expression where
  constant? : Option Int
  terms : List (Var × Int)
  deriving DecidableEq, Repr

namespace Expression

/-- The value of an expression over a modulus. -/
def value (M : Modulus) (e : Expression) : Affine M :=
  .ofTerms (Residue.ofInt (e.constant?.getD 0)) (e.terms.map fun t => (t.1, Residue.ofInt t.2))

/-- The numbers of an expression: the constant that is written, and the coefficients. -/
def numbers (e : Expression) : List Int := e.constant?.toList ++ e.terms.map Prod.snd

def signed (negative : Bool) (n : Nat) : Int := bif negative then -n else n

/-! ## The grammar -/

def readVar? : List Char → Option Var
  | 'x' :: digits => (Numeral.readDigits? 10 digits).bind Var.ofIndex?
  | _ => none

/-- A variable, with a magnitude and a dot in front unless the magnitude is one. -/
def readTerm? (word : List Char) : Option (Var × Nat) :=
  match word.splitOn '·' with
  | [name] => (readVar? name).map fun v => (v, 1)
  | [magnitude, name] => do
      let n ← Numeral.read? magnitude
      let v ← readVar? name
      some (v, n)
  | _ => none

def readSign? : List Char → Option Bool
  | ['+'] => some false
  | ['-'] => some true
  | _ => none

/-- The terms after the first word, each of them after its sign. -/
def readTerms? : List (List Char) → Option (List (Var × Int))
  | [] => some []
  | [_] => none
  | sign :: word :: words => do
      let negative ← readSign? sign
      let (v, n) ← readTerm? word
      let terms ← readTerms? words
      some ((v, signed negative n) :: terms)

/-- Takes a minus sign off the first word. -/
def splitSign : List Char → Bool × List Char
  | '-' :: word => (true, word)
  | word => (false, word)

/-- Reads a first word, which is a term or a constant, and the terms after it. -/
def readWords? (first : List Char) (words : List (List Char)) : Option Expression := do
  let (negative, word) := splitSign first
  let terms ← readTerms? words
  match readTerm? word with
  | some (v, n) => some ⟨none, (v, signed negative n) :: terms⟩
  | none => do
      let n ← Numeral.read? word
      some ⟨some (signed negative n), terms⟩

def read? (text : List Char) : Option Expression :=
  match text.splitOn ' ' with
  | [] => none
  | first :: words => readWords? first words

end Expression

/-! ## Signed residues -/

namespace Residue

variable {M : Modulus}

/-- A residue as an integer next to zero, under the sign with which it is written. -/
def toInt (x : Residue M) : Int := Expression.signed x.isNegative x.magnitude.val

theorem ofInt_toInt (x : Residue M) : ofInt x.toInt = x := by
  apply toZMod_injective
  rw [toZMod_ofInt, toInt, magnitude]
  cases x.isNegative with
  | true => simp [Expression.signed, cast_val]
  | false => simp [Expression.signed, cast_val]

theorem natAbs_toInt (x : Residue M) : x.toInt.natAbs = x.magnitude.val := by
  rw [toInt]
  cases x.isNegative with
  | true => simp [Expression.signed]
  | false => simp [Expression.signed]

end Residue

/-! ## Words -/

/-- Letters and digits, and dots between them. -/
def Plain (word : List Char) : Prop := ∀ c ∈ word, c.isAlphanum = true ∨ c = '·'

namespace Plain

variable {word : List Char}

theorem not_mem (h : Plain word) {c : Char} (hc : c.isAlphanum = false) (hdot : c ≠ '·') :
    c ∉ word := by
  intro hmem
  rcases h c hmem with halphanum | heq
  · simp [hc] at halphanum
  · exact hdot heq

theorem append {other : List Char} (h : Plain word) (hother : Plain other) :
    Plain (word ++ other) := by
  intro c hc
  rcases List.mem_append.1 hc with hc | hc
  · exact h c hc
  · exact hother c hc

theorem dot : Plain ['·'] := fun _ hc => Or.inr (List.mem_singleton.1 hc)

theorem ofNat (n : Nat) : Plain (Numeral.ofNat n) :=
  fun _ hc => Or.inl (Numeral.isAlphanum_of_mem_ofNat hc)

end Plain

theorem Var.isAlphanum_of_mem_render {v : Var} {c : Char} (hc : c ∈ v.render) :
    c.isAlphanum = true := by
  rcases List.mem_cons.1 hc with rfl | hc
  · decide
  · exact Numeral.isAlphanum_of_mem_toDigits (by decide) (by decide) hc

namespace Form

variable {M : Modulus}

/-- A term without its sign. -/
def termWord (e : Var × Residue M) : List Char := renderMagnitude e.2 ++ e.1.render

def signWord (c : Residue M) : List Char := bif c.isNegative then ['-'] else ['+']

/-- The minus sign in front of a first word. -/
def leadingSign (c : Residue M) : List Char := bif c.isNegative then ['-'] else []

/-- The words of the terms after the first word. -/
def words (terms : List (Var × Residue M)) : List (List Char) :=
  terms.flatMap fun e => [signWord e.2, termWord e]

theorem plain_termWord (e : Var × Residue M) : Plain (termWord e) := by
  have hvar : Plain e.1.render := fun c hc => Or.inl (Var.isAlphanum_of_mem_render hc)
  unfold termWord renderMagnitude
  split
  · exact hvar
  · rw [Residue.numeral_eq]
    exact ((Plain.ofNat _).append Plain.dot).append hvar

theorem termWord_ne_nil (e : Var × Residue M) : termWord e ≠ [] := by
  simp [termWord, Var.render]

theorem blank_not_mem_signWord (c : Residue M) : ' ' ∉ signWord c := by
  unfold signWord
  cases c.isNegative <;> decide

theorem blank_not_mem_leadingSign (c : Residue M) : ' ' ∉ leadingSign c := by
  unfold leadingSign
  cases c.isNegative <;> decide

theorem renderTerms_leading (e : Var × Residue M) (terms : List (Var × Residue M)) :
    renderTerms true (e :: terms) = leadingSign e.2 ++ termWord e ++ renderTerms false terms := by
  rw [renderTerms, leadingSign, termWord]
  cases e.2.isNegative <;> simp [separator]

theorem renderTerms_following (e : Var × Residue M) (terms : List (Var × Residue M)) :
    renderTerms false (e :: terms) =
      ' ' :: (signWord e.2 ++ ' ' :: (termWord e ++ renderTerms false terms)) := by
  rw [renderTerms, signWord, termWord]
  cases e.2.isNegative <;> simp [separator]

/-- The blanks of a rendering are those between its words. -/
theorem splitOn_renderTerms {first : List Char} (hfirst : ' ' ∉ first)
    (terms : List (Var × Residue M)) :
    (first ++ renderTerms false terms).splitOn ' ' = first :: words terms := by
  induction terms generalizing first with
  | nil =>
      rw [renderTerms, List.append_nil]
      exact List.splitOn_eq_singleton hfirst
  | cons e terms ih =>
      rw [renderTerms_following, List.splitOn_append_cons_self_of_not_mem hfirst,
        List.splitOn_append_cons_self_of_not_mem (blank_not_mem_signWord e.2),
        ih ((plain_termWord e).not_mem (by decide) (by decide))]
      rfl

end Form

/-! ## Reading words back -/

namespace Expression

variable {M : Modulus}

theorem readVar?_render (v : Var) : readVar? v.render = some v := by
  rw [Var.render, readVar?, Numeral.readDigits?_toDigits (by decide) (by decide)]
  exact dif_pos v.index_lt

/-- A term is read from its word; the dot marks off a magnitude other than one. -/
theorem readTerm?_termWord (e : Var × Residue M) :
    readTerm? (Form.termWord e) = some (e.1, e.2.magnitude.val) := by
  have hvar : '·' ∉ e.1.render := fun h => absurd (Var.isAlphanum_of_mem_render h) (by decide)
  by_cases hone : e.2.magnitude = 1
  · have hword : Form.termWord e = e.1.render := by
      rw [Form.termWord, Form.renderMagnitude, if_pos hone, List.nil_append]
    simp [readTerm?, hword, List.splitOn_eq_singleton hvar, readVar?_render, hone]
  · have hword : Form.termWord e = Numeral.ofNat e.2.magnitude.val ++ '·' :: e.1.render := by
      rw [Form.termWord, Form.renderMagnitude, if_neg hone, Residue.numeral_eq, List.append_assoc,
        List.singleton_append]
    have hnumeral : '·' ∉ Numeral.ofNat e.2.magnitude.val :=
      fun h => absurd (Numeral.isAlphanum_of_mem_ofNat h) (by decide)
    rw [readTerm?, hword, List.splitOn_append_cons_self_of_not_mem hnumeral,
      List.splitOn_eq_singleton hvar]
    simp [Numeral.read?_ofNat, readVar?_render]

/-- A constant is not taken for a term, because no numeral starts as a variable does. -/
theorem readTerm?_ofNat (n : Nat) : readTerm? (Numeral.ofNat n) = none := by
  have hdot : '·' ∉ Numeral.ofNat n :=
    fun h => absurd (Numeral.isAlphanum_of_mem_ofNat h) (by decide)
  have hvar : readVar? (Numeral.ofNat n) = none := by
    unfold readVar?
    split
    · rename_i digits hdigits
      have hhead := Numeral.head?_ofNat n
      rw [hdigits] at hhead
      exact absurd (hhead 'x' rfl) (by decide)
    · rfl
  simp [readTerm?, List.splitOn_eq_singleton hdot, hvar]

theorem readSign?_signWord (c : Residue M) : readSign? (Form.signWord c) = some c.isNegative := by
  unfold Form.signWord
  cases c.isNegative <;> rfl

theorem splitSign_leadingSign (c : Residue M) {word : List Char} (hword : '-' ∉ word) :
    splitSign (Form.leadingSign c ++ word) = (c.isNegative, word) := by
  unfold Form.leadingSign
  cases c.isNegative with
  | true => rfl
  | false =>
      rw [cond_false, List.nil_append]
      unfold splitSign
      split
      · simp at hword
      · rfl

theorem readTerms?_words (terms : List (Var × Residue M)) :
    readTerms? (Form.words terms) = some (terms.map fun e => (e.1, e.2.toInt)) := by
  induction terms with
  | nil => rfl
  | cons e terms ih =>
      have hwords : Form.words (e :: terms) =
          Form.signWord e.2 :: Form.termWord e :: Form.words terms := rfl
      rw [hwords, readTerms?, readSign?_signWord, readTerm?_termWord, ih]
      rfl

/-- A first word that is a term. -/
theorem readWords?_term (e : Var × Residue M) (terms : List (Var × Residue M)) :
    readWords? (Form.leadingSign e.2 ++ Form.termWord e) (Form.words terms) =
      some ⟨none, (e :: terms).map fun e => (e.1, e.2.toInt)⟩ := by
  have hminus : '-' ∉ Form.termWord e := (Form.plain_termWord e).not_mem (by decide) (by decide)
  rw [readWords?, splitSign_leadingSign e.2 hminus]
  simp [readTerms?_words, readTerm?_termWord, Residue.toInt]

/-- A first word that is a constant. -/
theorem readWords?_constant (c : Residue M) (terms : List (Var × Residue M)) :
    readWords? (Form.leadingSign c ++ Numeral.ofNat c.magnitude.val) (Form.words terms) =
      some ⟨some c.toInt, terms.map fun e => (e.1, e.2.toInt)⟩ := by
  have hminus : '-' ∉ Numeral.ofNat c.magnitude.val :=
    (Plain.ofNat _).not_mem (by decide) (by decide)
  rw [readWords?, splitSign_leadingSign c hminus]
  simp [readTerms?_words, readTerm?_ofNat, Numeral.read?_ofNat, Residue.toInt]

theorem read?_append_renderTerms {first : List Char} (hfirst : ' ' ∉ first)
    (terms : List (Var × Residue M)) :
    read? (first ++ Form.renderTerms false terms) = readWords? first (Form.words terms) := by
  rw [read?, Form.splitOn_renderTerms hfirst]

end Expression

/-! ## Renderings -/

namespace Affine

variable {M : Modulus} {r : Affine M}

/-- What is written for a value. -/
def expression : Affine M → Expression
  | constant c => ⟨some c.toInt, []⟩
  | form p =>
      ⟨if p.constant = 0 then none else some p.constant.toInt,
        p.terms.entries.map fun e => (e.1, e.2.toInt)⟩

theorem value_expression (h : r.Valid) : r.expression.value M = r := by
  have hterms : (r.expression.terms.map fun t => (t.1, (Residue.ofInt t.2 : Residue M))) =
      r.terms.entries := by
    cases r with
    | constant c => rfl
    | form p => simp [expression, terms, Residue.ofInt_toInt, Function.comp_def]
  have hconstant : Residue.ofInt (r.expression.constant?.getD 0) = r.constantTerm := by
    cases r with
    | constant c => exact Residue.ofInt_toInt c
    | form p =>
        by_cases hzero : p.constant = 0
        · simp only [expression, constantTerm, hzero, if_pos, Option.getD_none]
          exact Residue.toZMod_injective (by simp [Residue.toZMod_ofInt])
        · simp only [expression, constantTerm, if_neg hzero, Option.getD_some]
          exact Residue.ofInt_toInt p.constant
  rw [Expression.value, hterms, hconstant, ofTerms_terms h]

theorem mem_numbers_expression {n : Int} (hn : n ∈ r.expression.numbers) :
    ∃ x : Residue M, n = x.toInt := by
  cases r with
  | constant c => exact ⟨c, by simpa [expression, Expression.numbers] using hn⟩
  | form p =>
      rcases List.mem_append.1 hn with hn | hn
      · by_cases hzero : p.constant = 0
        · simp [expression, hzero] at hn
        · exact ⟨p.constant, by simpa [expression, hzero] using hn⟩
      · obtain ⟨t, ht, rfl⟩ := List.mem_map.1 hn
        obtain ⟨e, -, rfl⟩ := List.mem_map.1 ht
        exact ⟨e.2, rfl⟩

/-- The rendering of a valid value is a first word, which may have a sign in front, and the terms
after it. -/
theorem exists_first_word (h : r.Valid) :
    ∃ (c : Residue M) (word : List Char) (terms : List (Var × Residue M)),
      r.render = Form.leadingSign c ++ word ++ Form.renderTerms false terms ∧
        Plain word ∧ word ≠ [] ∧
        Expression.readWords? (Form.leadingSign c ++ word) (Form.words terms) =
          some r.expression := by
  have hsigned : ∀ c : Residue M,
      c.signedNumeral = Form.leadingSign c ++ Numeral.ofNat c.magnitude.val := fun c => by
    rw [Residue.signedNumeral, Residue.numeral_eq, Form.leadingSign]
  cases r with
  | constant c =>
      refine ⟨c, Numeral.ofNat c.magnitude.val, [], ?_, Plain.ofNat _, Numeral.ofNat_ne_nil _,
        Expression.readWords?_constant c []⟩
      rw [render, hsigned, Form.renderTerms, List.append_nil]
  | form p =>
      by_cases hzero : p.constant = 0
      · -- Without a constant the first term has no word for its sign.
        obtain ⟨e, terms, hentries⟩ := List.exists_cons_of_ne_nil h.1
        refine ⟨e.2, Form.termWord e, terms, ?_, Form.plain_termWord e, Form.termWord_ne_nil e, ?_⟩
        · rw [render, Form.render, hentries, if_pos hzero, hzero, beq_self_eq_true,
            List.nil_append, Form.renderTerms_leading]
        · rw [Expression.readWords?_term, expression, if_pos hzero, hentries]
      · refine ⟨p.constant, Numeral.ofNat p.constant.magnitude.val, p.terms.entries, ?_,
          Plain.ofNat _, Numeral.ofNat_ne_nil _, ?_⟩
        · rw [render, Form.render, if_neg hzero, beq_false_of_ne hzero, hsigned]
        · rw [Expression.readWords?_constant, expression, if_neg hzero]

theorem read?_render (h : r.Valid) : Expression.read? r.render = some r.expression := by
  obtain ⟨c, word, terms, hrender, hword, -, hread⟩ := exists_first_word h
  have hblank : ' ' ∉ Form.leadingSign c ++ word := fun hmem =>
    (List.mem_append.1 hmem).elim (Form.blank_not_mem_leadingSign c)
      (hword.not_mem (by decide) (by decide))
  rw [hrender, Expression.read?_append_renderTerms hblank, hread]

theorem head?_render (h : r.Valid) : ∀ ch ∈ r.render.head?, ch ≠ ' ' ∧ ch ≠ '+' := by
  obtain ⟨c, word, terms, hrender, hword, hne, -⟩ := exists_first_word h
  obtain ⟨first, rest, rfl⟩ := List.exists_cons_of_ne_nil hne
  intro ch hch
  rw [hrender, Form.leadingSign] at hch
  cases hneg : c.isNegative with
  | true =>
      rw [hneg] at hch
      cases hch
      decide
  | false =>
      rw [hneg] at hch
      cases hch
      have hmem : first ∈ first :: rest := List.mem_cons_self
      have hne : ∀ c : Char, c.isAlphanum = false → c ≠ '·' → first ≠ c := fun c hc hdot heq =>
        hword.not_mem hc hdot (heq ▸ hmem)
      exact ⟨hne ' ' (by decide) (by decide), hne '+' (by decide) (by decide)⟩

end Affine

/-- Reading the rendering of a valid value, and taking residues, answers the value.  So no two valid
values have the same rendering.  Over an odd modulus no number in a rendering lies further from zero
than the midpoint, and over two the only one besides zero is one.  No rendering starts with a blank
or a plus sign. -/
theorem render_faithful (M : Modulus) :
    (∀ r : Affine M, r.Valid →
      ∃ e, Expression.read? r.render = some e ∧ e.value M = r ∧
        (M.OddOrTwo → ∀ n ∈ e.numbers,
          n.natAbs ≤ (M.value - 1) / 2 ∨ M.value = 2 ∧ n.natAbs ≤ 1) ∧
        ∀ c ∈ r.render.head?, c ≠ ' ' ∧ c ≠ '+') ∧
      ∀ r₁ r₂ : Affine M, r₁.Valid → r₂.Valid → r₁.render = r₂.render → r₁ = r₂ := by
  refine ⟨fun r hr => ⟨r.expression, Affine.read?_render hr, Affine.value_expression hr, ?_,
    Affine.head?_render hr⟩, fun r₁ r₂ h₁ h₂ hrender => ?_⟩
  · intro hM n hn
    obtain ⟨x, rfl⟩ := Affine.mem_numbers_expression hn
    rw [Residue.natAbs_toInt]
    exact x.magnitude_le hM
  · have hexpression : r₁.expression = r₂.expression := by
      have hread := Affine.read?_render h₁
      rw [hrender, Affine.read?_render h₂] at hread
      exact (Option.some.inj hread).symm
    rw [← Affine.value_expression h₁, hexpression, Affine.value_expression h₂]

/-- Over the larger fields numbers beyond a word are written in hexadecimal, under a sign like all
others; the `x` of `0x` and the `x` of a variable are told apart. -/
theorem render_faithful_hexadecimal :
    let large : Residue Modulus.pallasBase := ⟨wordSize, by decide⟩
    let r : Affine Modulus.pallasBase :=
      .form ⟨-large, ⟨[(exampleVar 0, large), (exampleVar 1, -1)], by decide⟩⟩
    let text := "-0x10000000000000000 + 0x10000000000000000·x0 - x1".toList
    r.Valid ∧ Modulus.pallasBase.OddOrTwo ∧ r.render = text ∧
      (∃ e, Expression.read? text = some e ∧ e.value Modulus.pallasBase = r ∧
        ∀ n ∈ e.numbers, n.natAbs ≤ (Modulus.pallasBase.value - 1) / 2 ∨
          Modulus.pallasBase.value = 2 ∧ n.natAbs ≤ 1) ∧
      ∀ r' : Affine Modulus.pallasBase, r'.Valid → r'.render = text → r' = r := by
  intro large r text
  have hr : r.Valid := by decide
  have hM : Modulus.pallasBase.OddOrTwo := by decide
  have htext : r.render = text := by decide
  obtain ⟨hread, hunique⟩ := render_faithful Modulus.pallasBase
  obtain ⟨e, he, hvalue, hbound, -⟩ := hread r hr
  rw [htext] at he
  exact ⟨hr, hM, htext, ⟨e, he, hvalue, hbound hM⟩,
    fun r' hr' hrender => hunique r' r hr' hr (hrender.trans htext.symm)⟩

-- A constant can only come first.
example : Expression.read? "x0 + 3".toList = none := by decide

end AffineForms
