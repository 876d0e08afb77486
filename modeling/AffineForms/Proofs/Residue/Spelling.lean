import AffineForms.Proofs.Residue.Magnitudes

/-!
# Spelling — the one text that writes a number

`Numeral.Spells` says what it is to write a number in a base, and not how it is done: the characters
are digits of the base, they stand for the number, and there is no zero in front of others.  Exactly
one text does so, and it consists of the digits that repeated division leaves (`Numeral.spells_iff`).

A hexadecimal numeral is not made by division.  It is written byte by byte, without the zero bytes
in front, with one or two digits for the first byte that is left and two for each of the others.
That this is the numeral of the number as a whole, whatever zeros there are inside, is
`Numeral.significant_dropWhile`; here it is brought together with the border at `2 ^ 64` and with
the way back.  `numerals_exact` concludes that encodings of one length, and residues, are told apart
by their numerals.
-/

namespace AffineForms
namespace Numeral

variable {base n d : ℕ} {c : Char} {text : List Char}

/-- The text writes the number in the base.  Its characters are digits of the base, in lower case;
with the most significant one first they stand for the number; and a text that starts with a zero
goes no further. -/
structure Spells (base n : ℕ) (text : List Char) : Prop where
  digits : ∀ c ∈ text, c ∈ "0123456789abcdef".toList.take base
  reads : readDigits? base text = some n
  leading : text.head? = some '0' → text = ['0']

/-! ## The digits of a number spell it -/

theorem digitChar_mem_take :
    ∀ base ≤ 16, ∀ d < base, d.digitChar ∈ "0123456789abcdef".toList.take base := by
  decide

theorem head?_toDigits_ne (hbase : 1 < base) (hmax : base ≤ 16) (hn : 0 < n) :
    (Nat.toDigits base n).head? ≠ some '0' := by
  induction n using Nat.strongRecOn with
  | ind n ih =>
      rw [Nat.toDigits_eq_if hbase]
      split
      · have hdigit : ∀ d < 16, d.digitChar = '0' → d = 0 := by decide
        intro h
        exact absurd (hdigit n (by omega) (Option.some.inj h)) (by omega)
      · -- The first digit is that of the quotient, which is not zero either.
        rw [List.head?_append_of_ne_nil _ Nat.toDigits_ne_nil]
        exact ih (n / base) (Nat.div_lt_self hn hbase) (Nat.div_pos (by omega) (by omega))

theorem spells_toDigits (hbase : 1 < base) (hmax : base ≤ 16) (n : ℕ) :
    Spells base n (Nat.toDigits base n) where
  digits c hc := by
    obtain ⟨d, hd, rfl⟩ := exists_digitChar_of_mem_toDigits hbase hc
    exact digitChar_mem_take base hmax d hd
  reads := readDigits?_toDigits hbase hmax n
  leading h := by
    rcases Nat.eq_zero_or_pos n with rfl | hn
    · exact Nat.toDigits_zero base
    · exact absurd h (head?_toDigits_ne hbase hmax hn)

/-! ## Nothing else does -/

theorem digitChar_of_digit? (h : digit? base c = some d) : d < base ∧ d.digitChar = c := by
  obtain ⟨hchar, hmem, -⟩ := List.find?_range_eq_some.1 h
  exact ⟨List.mem_range.1 hmem, by simpa using hchar⟩

/-- Characters that are read after a number other than zero continue its digits. -/
theorem toDigits_append_of_foldlM {m : ℕ} (hbase : 1 < base) (hm : 0 < m)
    (h : text.foldlM (fun n c => (digit? base c).map fun d => base * n + d) m = some n) :
    Nat.toDigits base m ++ text = Nat.toDigits base n := by
  induction text generalizing m with
  | nil =>
      cases h
      exact List.append_nil _
  | cons c text ih =>
      rw [List.foldlM_cons] at h
      obtain ⟨next, hnext, hrest⟩ := Option.bind_eq_some_iff.1 h
      obtain ⟨d, hdigit, rfl⟩ := Option.map_eq_some_iff.1 hnext
      obtain ⟨hd, rfl⟩ := digitChar_of_digit? hdigit
      have hpos : 0 < base * m + d := Nat.add_pos_left (Nat.mul_pos (by omega) hm) d
      calc
        Nat.toDigits base m ++ d.digitChar :: text
            = (Nat.toDigits base m ++ [d.digitChar]) ++ text := List.append_cons _ _ _
        _ = Nat.toDigits base (base * m + d) ++ text := by
              rw [toDigits_append_digitChar hbase hm hd]
        _ = Nat.toDigits base n := ih hpos hrest

theorem Spells.eq_toDigits (hbase : 1 < base) (h : Spells base n text) :
    text = Nat.toDigits base n := by
  have hreads := h.reads
  rw [readDigits?] at hreads
  cases text with
  | nil => cases hreads
  | cons c text =>
      rw [List.isEmpty_cons, if_neg Bool.false_ne_true, List.foldlM_cons] at hreads
      obtain ⟨first, hfirst, hrest⟩ := Option.bind_eq_some_iff.1 hreads
      obtain ⟨d, hdigit, rfl⟩ := Option.map_eq_some_iff.1 hfirst
      obtain ⟨hd, rfl⟩ := digitChar_of_digit? hdigit
      rw [Nat.mul_zero, Nat.zero_add] at hrest
      rcases Nat.eq_zero_or_pos d with rfl | hpos
      · -- The first digit is a zero, so it is the last one too.
        obtain rfl : text = [] := (List.cons.inj (h.leading rfl)).2
        cases hrest
        exact (Nat.toDigits_zero base).symm
      · rw [← toDigits_append_of_foldlM hbase hpos hrest, Nat.toDigits_of_lt_base hd,
          List.singleton_append]

theorem spells_iff (hbase : 1 < base) (hmax : base ≤ 16) :
    Spells base n text ↔ text = Nat.toDigits base n := by
  constructor
  · exact Spells.eq_toDigits hbase
  · rintro rfl
    exact spells_toDigits hbase hmax n

/-! ## Encodings and their numerals -/

variable {bytes a b : List UInt8}

theorem spells_ofBytes_iff (h : Bytes.toNat bytes < wordSize) :
    Spells 10 (Bytes.toNat bytes) text ↔ text = ofBytes bytes := by
  rw [spells_iff (by decide) (by decide), ofBytes_eq, ofNat, if_pos h, decimal]

theorem exists_spells_ofBytes_iff (h : wordSize ≤ Bytes.toNat bytes) :
    ∃ digits, ofBytes bytes = '0' :: 'x' :: digits ∧
      ∀ text, Spells 16 (Bytes.toNat bytes) text ↔ text = digits := by
  refine ⟨Nat.toDigits 16 (Bytes.toNat bytes), ?_, fun text => spells_iff (by decide) (by decide)⟩
  rw [ofBytes_eq, ofNat, if_neg (Nat.not_lt.2 h)]

theorem read?_ofBytes (bytes : List UInt8) : read? (ofBytes bytes) = some (Bytes.toNat bytes) := by
  rw [ofBytes_eq, read?_ofNat]

theorem ofBytes_inj (h : a.length = b.length) : ofBytes a = ofBytes b ↔ a = b := by
  constructor
  · intro htext
    have hvalue : Bytes.toNat a = Bytes.toNat b := by
      have hread := read?_ofBytes a
      rw [htext, read?_ofBytes] at hread
      exact (Option.some.inj hread).symm
    rw [← Bytes.ofNat_toNat a, hvalue, h, Bytes.ofNat_toNat]
  · rintro rfl
    rfl

end Numeral

theorem Residue.numeral_inj {M : Modulus} {x y : Residue M} : x.numeral = y.numeral ↔ x = y := by
  rw [numeral_eq_ofBytes, numeral_eq_ofBytes, Numeral.ofBytes_inj (by simp), encode_inj]

/-- The numeral of a list of bytes, whatever its length, is the one text that spells the number that
they stand for: in decimal if the number is below `2 ^ 64`, and in hexadecimal after `0x` if it is
not.  Read as a number it gives the number back, so bytes of one length have the same numeral only
if they are the same.  The numeral of a residue is that of its encoding, in either width; it gives
the representative back, and tells the residue from any other. -/
theorem numerals_exact :
    (∀ bytes : List UInt8,
      (Bytes.toNat bytes < 2 ^ 64 →
        ∀ text, Numeral.Spells 10 (Bytes.toNat bytes) text ↔ text = Numeral.ofBytes bytes) ∧
      (2 ^ 64 ≤ Bytes.toNat bytes →
        ∃ digits, Numeral.ofBytes bytes = '0' :: 'x' :: digits ∧
          ∀ text, Numeral.Spells 16 (Bytes.toNat bytes) text ↔ text = digits) ∧
      Numeral.read? (Numeral.ofBytes bytes) = some (Bytes.toNat bytes)) ∧
      (∀ a b : List UInt8, a.length = b.length →
        (Numeral.ofBytes a = Numeral.ofBytes b ↔ a = b)) ∧
      ∀ (M : Modulus) (x y : Residue M),
        x.encode.length = M.width.bytes ∧ Bytes.toNat x.encode = x.val ∧
          x.numeral = Numeral.ofBytes x.encode ∧ Numeral.read? x.numeral = some x.val ∧
          (x.numeral = y.numeral ↔ x = y) := by
  have hword : wordSize = 2 ^ 64 := by decide
  refine ⟨fun bytes => ⟨fun h text => ?_, fun h => ?_, Numeral.read?_ofBytes bytes⟩,
    fun a b => Numeral.ofBytes_inj, fun M x y => ⟨x.length_encode, x.toNat_encode,
      x.numeral_eq_ofBytes, ?_, Residue.numeral_inj⟩⟩
  · exact Numeral.spells_ofBytes_iff (hword ▸ h)
  · exact Numeral.exists_spells_ofBytes_iff (hword ▸ h)
  · rw [Residue.numeral_eq, Numeral.read?_ofNat]

/-- Of nine bytes only the last one lies beyond a word, and zeros stand inside of it and below it;
each of them keeps its two digits, and without one of those the text would spell another number.
Eight full bytes, with nothing but zeros beyond them, are the largest decimal numeral. -/
theorem numerals_exact_inner_zeros :
    let bytes : List UInt8 := [0x0f, 0, 0x0a, 0, 0, 0, 0, 0x20, 0x01]
    let full : List UInt8 := [0xff, 0xff, 0xff, 0xff, 0xff, 0xff, 0xff, 0xff, 0]
    let x : Residue Modulus.pallasBase := ⟨2 ^ 64, by decide⟩
    2 ^ 64 ≤ Bytes.toNat bytes ∧ Numeral.ofBytes bytes = "0x120000000000a000f".toList ∧
      Numeral.Spells 16 (Bytes.toNat bytes) "120000000000a000f".toList ∧
      ¬ Numeral.Spells 16 (Bytes.toNat bytes) "12000000000a000f".toList ∧
      Numeral.read? (Numeral.ofBytes bytes) = some (Bytes.toNat bytes) ∧
      Bytes.toNat full < 2 ^ 64 ∧
      Numeral.Spells 10 (Bytes.toNat full) "18446744073709551615".toList ∧
      Numeral.ofBytes full = "18446744073709551615".toList ∧
      bytes.length = full.length ∧ Numeral.ofBytes bytes ≠ Numeral.ofBytes full ∧
      x.numeral = "0x10000000000000000".toList ∧ Numeral.read? x.numeral = some x.val ∧
      x.numeral ≠ (-x).numeral := by
  intro bytes full x
  obtain ⟨hbytes, hsame, hresidue⟩ := numerals_exact
  obtain ⟨-, hhigh, hread⟩ := hbytes bytes
  obtain ⟨hlow, -, -⟩ := hbytes full
  have hlarge : 2 ^ 64 ≤ Bytes.toNat bytes := by decide
  have hword : Bytes.toNat full < 2 ^ 64 := by decide
  have htext : Numeral.ofBytes bytes = "0x120000000000a000f".toList := by decide
  have hdecimal : Numeral.ofBytes full = "18446744073709551615".toList := by decide
  obtain ⟨digits, hdigits, hspells⟩ := hhigh hlarge
  have hhex : "120000000000a000f".toList = digits := by
    rw [htext] at hdigits
    exact (List.cons.inj (List.cons.inj hdigits).2).2
  obtain ⟨-, -, hnumeral, hvalue, hnegative⟩ := hresidue _ x (-x)
  refine ⟨hlarge, htext, (hspells _).2 hhex, ?_, hread, hword, (hlow hword _).2 hdecimal.symm,
    hdecimal, rfl, ?_, hnumeral.trans (by decide), hvalue, ?_⟩
  · rw [hspells, ← hhex]
    decide
  · rw [ne_eq, hsame bytes full rfl]
    decide
  · rw [ne_eq, hnegative]
    decide

end AffineForms
